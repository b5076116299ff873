import LibChan.Chan.Finality
import LibChan.Chan.Meeting
import LibChan.Chan.Solo
import LibChan.Chan.Reuse

/-!
# Buffered channels neither lose nor duplicate

In every run of direct calls in which no ring operation is overtaken by a whole lap and no call sets up
its waiters in a frame that somebody is still about to signal, the elements accepted by a buffered channel are those handed to receives together with those in its ring, and the
returns of the calls say which they are (`Sys.ExactlyOnce`). When every send has returned before
`chan_close` is called, all of them have been taken once a receive is refused with `CHAN_ERR_CLOSED`
(`accepted_exactly_once`).

With a lap the same element is received twice (`accepted_received_twice`).
-/

set_option autoImplicit false

namespace LibChan

variable {T C α : Type}

/-- The elements that the channel has accepted from the call `id`, in their order. -/
def Chan.SentBy (ch : Chan T α) (id : Nat) (xs : List α) : Prop :=
  ∀ i y, (⟨id, i⟩, y) ∈ ch.sent ↔ xs[i]? = some y

/-- The elements that the channel has handed to the call `id`, in their order. -/
def Chan.RecvdBy (ch : Chan T α) (id : Nat) (xs : List α) : Prop :=
  ∀ i y, (⟨id, i⟩, y) ∈ ch.recvd ↔ xs[i]? = some y

/-- The elements put into the ring that no receiver has reserved. -/
def Chan.inRing (ch : Chan T α) : List (Wid × α) := ch.hist.log.drop ch.hist.takers.length

/-- The channel has neither lost nor duplicated an element, and every return tells the truth about it. -/
structure Sys.ExactlyOnce (K : Config T C) (c : C) (s : Sys T C α) : Prop where
  balance : ((s.mem.chan c).sent.map Prod.snd).Perm
    ((s.mem.chan c).recvd.map Prod.snd ++ (s.mem.chan c).inRing.map Prod.snd)
  stored : ∀ n, (s.mem.chan c).hist.reserved .recv ≤ n → n < (s.mem.chan c).hist.committed .send →
    some ((s.mem.chan c).ring.slots (Wrap.slotOf (K.chan c).ringCap.size n)) =
      (s.mem.chan c).hist.valueAt n
  sent : ∀ w x, (w, x) ∈ (s.mem.chan c).sent → s.Offered c w x
  recvd : ∀ w x, (w, x) ∈ (s.mem.chan c).recvd → s.Accepting c w
  sent_once : ((s.mem.chan c).sent.map Prod.fst).Nodup
  recvd_once : ((s.mem.chan c).recvd.map Prod.fst).Nodup
  send : ∀ id x time r out, s.Answered id (.direct c (.send x time)) r out →
    (s.mem.chan c).SentBy id (if r = .err .ok then [x] else [])
  sendBurst : ∀ id xs r out, s.Answered id (.direct c (.sendBurst xs)) r out →
    ∃ k, r = .count k ∧ k ≤ xs.length ∧ (s.mem.chan c).SentBy id (xs.take k)
  recv : ∀ id time r out, s.Answered id (.direct c (.recv time)) r out →
    ∃ xs, (s.mem.chan c).RecvdBy id xs ∧ out = xs.map some ∧
      xs.length = if r = .err .ok then 1 else 0
  recvBurst : ∀ id n r out, s.Answered id (.direct c (.recvBurst n)) r out →
    ∃ xs, (s.mem.chan c).RecvdBy id xs ∧ out = xs.map some ∧ r = .count xs.length ∧ xs.length ≤ n

/-- Every send on the channel has returned before `chan_close` is called. -/
def Sys.SendsFirst (c : C) (s : Sys T C α) : Prop :=
  ∀ pre post id t, s.events = pre ++ .call id t (.direct c .close) :: post →
    ∀ id' t' op, .call id' t' (.direct c op) ∈ s.events → op.side = .send →
      ∃ r out, .ret id' t' r out ∈ pre

/-- `CHAN_ERR_CLOSED` is decided for the receive `id`: it has returned it or is about to, or it has set up
its waiter, which has been settled with it. -/
def Sys.Refused (c : C) (s : Sys T C α) (id : Nat) : Prop :=
  (∃ time out, s.Answered id (.direct c (.recv time)) (.err .closed) out) ∨
    ∃ t time pc, s.thread t = .direct id c (.recv time) pc ∧
      (pc = .unlockRet (.err .closed) ∨ pc = .ret (.err .closed) ∨
        pc.registered = true ∧ (s.mem.waiter ⟨id, 0⟩).result = .closed)

section Returns

variable [DecidableEq T] [DecidableEq C] {K : Config T C} {s s' : Sys T C α} {l : Label T C α}
  {c : C} {id : Nat} {op : Op α} {r : Ret} {out : List (Option α)}

omit [DecidableEq T] in
/-- On a buffered channel a call has moved what its return says. -/
theorem DirectValid.took_iff (hv : DirectValid K s) (hcap : 0 < (K.chan c).capacity)
    (hans : s.Answered id (.direct c op) r out) (i : Nat) :
    s.mem.Took ⟨id, i⟩ ↔ ⟨id, i⟩ ∈ op.gotOf id r := by
  refine ⟨fun htook => ?_, hv.must.calls.returned id _ r out hans ⟨id, i⟩⟩
  have hmay : ⟨id, i⟩ ∈ op.mayOf (K.chan c) id r := hv.waiters.returned id _ r out hans i htook
  rw [Op.mayOf] at hmay
  -- only a wait on an unbuffered channel expires after it has been served
  cases r with
  | err e =>
    cases e with
    | timeout =>
      rw [Pc.mayGot, if_neg hcap.ne'] at hmay
      cases hmay
    | _ => exact hmay
  | _ => exact hmay

omit [DecidableEq T] [DecidableEq C] in
/-- The offers of a call are those of its operation. -/
theorem Sys.Answered.offered_iff (hans : s.Answered id (.direct c op) r out) (hist : HistInv s)
    {i : Nat} {y : α} : s.Offered c ⟨id, i⟩ y ↔ op.offers i = some y := by
  obtain ⟨t, hcall, -⟩ := hans
  constructor
  · rintro ⟨t', k, hcall', hoff⟩
    obtain ⟨-, rfl⟩ := hist.call_inj id t' t k _ hcall' hcall
    exact hoff.2
  · exact fun hoff => ⟨t, _, hcall, rfl, hoff⟩

omit [DecidableEq T] in
/-- What the channel has accepted from a call that has returned. -/
theorem DirectValid.mem_sent_iff (hv : DirectValid K s) (hcap : 0 < (K.chan c).capacity)
    (hans : s.Answered id (.direct c op) r out) {i : Nat} {y : α} :
    (⟨id, i⟩, y) ∈ (s.mem.chan c).sent ↔ op.offers i = some y ∧ ⟨id, i⟩ ∈ op.gotOf id r := by
  rw [← hans.offered_iff hv.hist, ← hv.took_iff hcap hans]
  constructor
  · exact fun hmem => ⟨hv.ledger.sent c _ y hmem, c, Or.inl (List.mem_map_of_mem hmem)⟩
  · exact fun h => hv.sent_of_took h.1 h.2

omit [DecidableEq T] in
/-- A receive that has returned has in its buffer what the channel has handed to it. -/
theorem RingValid.data_of_answered (hv : RingValid K s) (hspsc : (K.chan c).spsc = false)
    (hans : s.Answered id (.direct c op) r out) {i : Nat} {y : α}
    (hmem : (⟨id, i⟩, y) ∈ (s.mem.chan c).recvd) : (s.mem.waiter ⟨id, i⟩).data = some y := by
  obtain ⟨t, -, hret⟩ := hans
  have hgone : ∀ u, (s.thread u).id? ≠ some id := fun u => hv.calls.ret_ne u id ⟨t, r, out, hret⟩
  refine hv.data_of_recvd hspsc hmem (fun u hu => absurd hu (hgone u)) fun u hu => ?_
  obtain ⟨v, hwaits⟩ := (hv.queues.claimed u _ _ _ hu).1
  exact hgone v (Thread.id_of_waits hwaits)

omit [DecidableEq T] in
/-- What a receive reports to have moved has been handed to it, and is in its buffer. -/
theorem DirectValid.recvd_of_got (hv : DirectValid K s) (hring : RingValid K s)
    (hspsc : (K.chan c).spsc = false) (hans : s.Answered id (.direct c op) r out) {i : Nat}
    (hacc : op.accepts i = true) (hgot : ⟨id, i⟩ ∈ op.gotOf id r) :
    ∃ y, (⟨id, i⟩, y) ∈ (s.mem.chan c).recvd ∧ (s.mem.waiter ⟨id, i⟩).data = some y := by
  have htook := hv.must.calls.returned id _ r out hans ⟨id, i⟩ hgot
  obtain ⟨t, hcall, hret⟩ := hans
  have haccepting : s.Accepting c ⟨id, i⟩ := ⟨t, _, hcall, rfl, hacc⟩
  obtain ⟨y, hmem⟩ := hring.recvd_of_took hspsc haccepting htook
  exact ⟨y, hmem, hring.data_of_answered hspsc ⟨t, hcall, hret⟩ hmem⟩

omit [DecidableEq T] [DecidableEq C] in
theorem exists_map_some {d : Nat → Option α} : ∀ {k : Nat}, (∀ i < k, ∃ y, d i = some y) →
    ∃ xs : List α, xs.length = k ∧ (List.range k).map d = xs.map some
  | 0, _ => ⟨[], rfl, rfl⟩
  | k + 1, h => by
    obtain ⟨xs, hlen, hxs⟩ := exists_map_some fun i hi => h i (Nat.lt_succ_of_lt hi)
    obtain ⟨y, hy⟩ := h k (Nat.lt_succ_self k)
    refine ⟨xs ++ [y], by rw [List.length_append, hlen, List.length_singleton], ?_⟩
    rw [List.range_succ, List.map_append, List.map_append, hxs, List.map_singleton, hy, List.map_singleton]

omit [DecidableEq T] in
/-- The buffers of a receive that has returned, with what the channel has handed to it. -/
theorem DirectValid.exists_buffers (hv : DirectValid K s) (hring : RingValid K s)
    (hspsc : (K.chan c).spsc = false) (hans : s.Answered id (.direct c op) r out) {k : Nat}
    (hgot : ∀ i < k, ⟨id, i⟩ ∈ op.gotOf id r) (hacc : ∀ i < k, op.accepts i = true) :
    ∃ xs : List α, xs.length = k ∧
      (List.range k).map (fun i => (s.mem.waiter ⟨id, i⟩).data) = xs.map some ∧
      ∀ i x, xs[i]? = some x → (⟨id, i⟩, x) ∈ (s.mem.chan c).recvd := by
  have hmoved : ∀ i < k, ∃ y, (⟨id, i⟩, y) ∈ (s.mem.chan c).recvd ∧
      (s.mem.waiter ⟨id, i⟩).data = some y := fun i hi =>
    hv.recvd_of_got hring hspsc hans (hacc i hi) (hgot i hi)
  obtain ⟨xs, hlen, hxs⟩ := exists_map_some fun i hi => (hmoved i hi).imp fun _ h => h.2
  refine ⟨xs, hlen, hxs, fun i x hx => ?_⟩
  have hi : i < k := hlen ▸ (List.getElem?_eq_some_iff.1 hx).1
  obtain ⟨y, hmem, hy⟩ := hmoved i hi
  have hat := congrArg (·[i]?) hxs
  simp only [List.getElem?_map, List.getElem?_range hi, hx, Option.map_some, hy, Option.some.injEq] at hat
  rwa [← hat]

omit [DecidableEq T] in
/-- What the channel has handed to a receive that has returned is what is in its buffers. -/
theorem DirectValid.exists_recvdBy (hv : DirectValid K s) (hring : RingValid K s)
    (hcap : 0 < (K.chan c).capacity) (hspsc : (K.chan c).spsc = false)
    (hans : s.Answered id (.direct c op) r out) {k : Nat}
    (hgot : ∀ i, ⟨id, i⟩ ∈ op.gotOf id r ↔ i < k) (hacc : ∀ i < k, op.accepts i = true) :
    ∃ xs, (s.mem.chan c).RecvdBy id xs ∧ xs.length = k ∧
      (List.range k).map (fun i => (s.mem.waiter ⟨id, i⟩).data) = xs.map some := by
  obtain ⟨xs, hlen, hxs, hrecvd⟩ := hv.exists_buffers hring hspsc hans (fun i => (hgot i).2) hacc
  refine ⟨xs, fun i y => ⟨fun hmem => ?_, hrecvd i y⟩, hlen, hxs⟩
  have hi : i < xs.length := by
    rw [hlen, ← hgot, ← hv.took_iff hcap hans]
    exact ⟨c, Or.inr (Or.inr (List.mem_map_of_mem hmem))⟩
  -- the buffer has one value
  have hdata := hring.data_of_answered hspsc hans (hrecvd i _ (List.getElem?_eq_getElem hi))
  rw [hring.data_of_answered hspsc hans hmem] at hdata
  rw [List.getElem?_eq_getElem hi, hdata]

omit [DecidableEq T] in
theorem DirectValid.sentBy_send (hv : DirectValid K s) (hcap : 0 < (K.chan c).capacity) {x : α}
    {time : Int} (hans : s.Answered id (.direct c (.send x time)) r out) :
    (s.mem.chan c).SentBy id (if r = .err .ok then [x] else []) := by
  intro i y
  rw [hv.mem_sent_iff hcap hans, Op.offers]
  obtain ⟨e, rfl⟩ := hv.reports.fits id _ r out hans
  cases e with
  | ok =>
    rw [if_pos rfl, Pc.gotOf_ok rfl]
    cases i with
    | zero => exact and_iff_left (List.mem_singleton_self _)
    | succ i => exact ⟨fun h => (by cases h.1), nofun⟩
  | _ => exact ⟨fun h => (by cases h.2), nofun⟩

omit [DecidableEq T] in
theorem DirectValid.sentBy_burst (hv : DirectValid K s) (hburst : BurstInv s)
    (hcap : 0 < (K.chan c).capacity) {xs : List α}
    (hans : s.Answered id (.direct c (.sendBurst xs)) r out) :
    ∃ k, r = .count k ∧ k ≤ xs.length ∧ (s.mem.chan c).SentBy id (xs.take k) := by
  obtain ⟨k, rfl⟩ := hv.reports.fits id _ r out hans
  have hroom : k ≤ min xs.length (2 ^ 32 - 1) := hburst.returned id _ _ out hans rfl k rfl
  refine ⟨k, rfl, hroom.trans (Nat.min_le_left _ _), fun i y => ?_⟩
  rw [hv.mem_sent_iff hcap hans, Op.mem_gotOf_burst rfl, Op.offers, List.getElem?_take]
  constructor
  · rintro ⟨hy, hi, -⟩
    rwa [if_pos hi]
  · intro hy
    obtain ⟨hi, hy⟩ := Option.ite_none_right_eq_some.1 hy
    exact ⟨hy, hi, hi.trans_le hroom⟩

omit [DecidableEq T] in
theorem DirectValid.recvdBy_recv (hv : DirectValid K s) (hring : RingValid K s)
    (hcap : 0 < (K.chan c).capacity) (hspsc : (K.chan c).spsc = false) {time : Int}
    (hans : s.Answered id (.direct c (.recv time)) r out) :
    ∃ xs, (s.mem.chan c).RecvdBy id xs ∧ out = xs.map some ∧
      xs.length = if r = .err .ok then 1 else 0 := by
  have hout := hv.reports.out id _ r out hans
  obtain ⟨e, rfl⟩ := hv.reports.fits id _ r out hans
  have hgot : ∀ i, (⟨id, i⟩ : Wid) ∈ (Op.recv time : Op α).gotOf id (.err e) ↔
      i < if Ret.err e = .err .ok then 1 else 0 := by
    intro i
    cases e with
    | ok =>
      rw [if_pos rfl, Pc.gotOf_ok rfl, List.mem_singleton, Wid.mk.injEq]
      omega
    | _ => exact ⟨fun h => (by cases h), fun h => absurd h (Nat.not_lt_zero i)⟩
  obtain ⟨xs, hby, hlen, hxs⟩ := hv.exists_recvdBy hring hcap hspsc hans hgot (by
    intro i hi
    split at hi
    · exact decide_eq_true (Nat.lt_one_iff.1 hi)
    · cases hi)
  refine ⟨xs, hby, hout.trans ((Eq.trans ?_ hxs)), hlen⟩
  cases e with
  | ok => rfl
  | _ => rfl

omit [DecidableEq T] [DecidableEq C] in
/-- A burst receive reports what it has moved, and not more than was asked for. -/
theorem BurstInv.mem_gotOf_recvBurst (hburst : BurstInv s) {n k : Nat}
    (hans : s.Answered id (.direct c (.recvBurst n)) (.count k) out) :
    k ≤ n ∧ ∀ i, (⟨id, i⟩ : Wid) ∈ (Op.recvBurst n : Op α).gotOf id (.count k) ↔ i < k := by
  have hroom : k ≤ min n (2 ^ 32 - 1) := hburst.returned id _ _ out hans rfl k rfl
  refine ⟨hroom.trans (Nat.min_le_left _ _), fun i => ?_⟩
  rw [Op.mem_gotOf_burst rfl]
  exact and_iff_left_of_imp fun hi => hi.trans_le hroom

omit [DecidableEq T] in
theorem DirectValid.recvdBy_burst (hv : DirectValid K s) (hring : RingValid K s) (hburst : BurstInv s)
    (hcap : 0 < (K.chan c).capacity) (hspsc : (K.chan c).spsc = false) {n : Nat}
    (hans : s.Answered id (.direct c (.recvBurst n)) r out) :
    ∃ xs, (s.mem.chan c).RecvdBy id xs ∧ out = xs.map some ∧ r = .count xs.length ∧ xs.length ≤ n := by
  have hout := hv.reports.out id _ r out hans
  obtain ⟨k, rfl⟩ := hv.reports.fits id _ r out hans
  obtain ⟨hn, hgot⟩ := hburst.mem_gotOf_recvBurst hans
  obtain ⟨xs, hby, hlen, hxs⟩ := hv.exists_recvdBy hring hcap hspsc hans hgot
    fun i hi => decide_eq_true (hi.trans_le hn)
  exact ⟨xs, hby, hout.trans hxs, by rw [hlen], hlen ▸ hn⟩

omit [DecidableEq T] in
theorem DirectValid.exactlyOnce (hv : DirectValid K s) (hring : RingValid K s) (hburst : BurstInv s)
    (hcap : 0 < (K.chan c).capacity) (hspsc : (K.chan c).spsc = false) : s.ExactlyOnce K c where
  balance := (hring.transfer.booked c hspsc).perm (hring.shared.takers_le hspsc)
  stored n hn hn' :=
    (hring.shared c hspsc).slots n ((hring.shared c hspsc).ordered.cons_le.trans hn) hn'
  sent := hv.ledger.sent c
  recvd w _ hmem := hv.ledger.taken c w (Or.inr (List.mem_map_of_mem hmem))
  sent_once := hv.ledger.sent_nodup c
  recvd_once := hv.ledger.recvd_nodup c
  send _ _ _ _ _ := hv.sentBy_send hcap
  sendBurst _ _ _ _ := hv.sentBy_burst hburst hcap
  recv _ _ _ _ := hv.recvdBy_recv hring hcap hspsc
  recvBurst _ _ _ _ := hv.recvdBy_burst hring hburst hcap hspsc

end Returns

/-! ## Sends that return before the close -/

section First

variable [DecidableEq T] [DecidableEq C] {K : Config T C} {s s' : Sys T C α} {l : Label T C α} {c : C}

/-- A channel has been closed by a call of `chan_close`. -/
def CloseCalled (c : C) (s : Sys T C α) : Prop :=
  (s.mem.chan c).closed = true → ∃ id t, .call id t (.direct c .close) ∈ s.events

theorem CloseCalled.step (h : CloseCalled c s) (hv : DirectValid K s) (hstep : s.Stepped K l s') :
    CloseCalled c s' := by
  intro hclosed
  cases hstep with
  | call hidle =>
    obtain ⟨id, t, hmem⟩ := h hclosed
    exact ⟨id, t, Sys.mem_events_startCall.2 (Or.inl hmem)⟩
  | ret hdone hret =>
    obtain ⟨id, t, hmem⟩ := h hclosed
    exact ⟨id, t, Sys.mem_events_finishCall.2 (Or.inl hmem)⟩
  | @move t alt d e th hnext hacts =>
    rcases Sys.closed_move.1 hclosed with hold | ⟨rfl, rfl⟩
    · exact h hold
    · obtain ⟨id, op, pc, pc', hth, -, hflow⟩ := hv.direct.flow hacts
      have hok := hv.direct_ok hth
      cases hflow
      obtain rfl : op = .close := hok
      exact ⟨id, t, hv.hist.running t id _ (by rw [hth]; rfl)⟩

/-- The history only grows. -/
theorem Sys.Stepped.events_append (hstep : s.Stepped K l s') : ∃ evs, s'.events = s.events ++ evs := by
  cases hstep with
  | call hidle => exact ⟨_, rfl⟩
  | ret hdone hret => exact ⟨_, rfl⟩
  | move hnext hacts => exact ⟨[], (List.append_nil _).symm⟩

omit [DecidableEq T] [DecidableEq C] in
theorem Sys.SendsFirst.before {evs : List (Event T C α)} (h : s'.SendsFirst c)
    (hevents : s'.events = s.events ++ evs) : s.SendsFirst c := by
  intro pre post id t hsplit id' t' op hcall hside
  have hsplit' : s'.events = pre ++ .call id t (.direct c .close) :: (post ++ evs) := by
    rw [hevents, hsplit, List.append_assoc, List.cons_append]
  refine h pre _ id t hsplit' id' t' op ?_ hside
  rw [hevents]
  exact List.mem_append_left _ hcall

omit [DecidableEq T] [DecidableEq C] in
/-- On a closed channel every send has returned. -/
theorem Sys.SendsFirst.returned (h : s.SendsFirst c) (hcalled : CloseCalled c s)
    (hclosed : (s.mem.chan c).closed = true) {id : Nat} {t : T} {op : Op α}
    (hcall : .call id t (.direct c op) ∈ s.events) (hside : op.side = .send) : s.Returned id := by
  obtain ⟨id', t', hclose⟩ := hcalled hclosed
  obtain ⟨pre, post, hsplit⟩ := List.append_of_mem hclose
  obtain ⟨r, out, hret⟩ := h pre post id' t' hsplit id t op hcall hside
  refine ⟨t, r, out, ?_⟩
  rw [hsplit]
  exact List.mem_append_left _ hret

omit [DecidableEq T] in
/-- So nobody is inside a send on a closed channel, on its own behalf or on that of a parked sender. -/
theorem Sys.SendsFirst.hushed (h : s.SendsFirst c) (hcalled : CloseCalled c s) (hv : DirectValid K s) :
    s.Hushed K c where
  ring hclosed t p hring := by
    have hgone : ∀ {id op pc}, s.thread t = .direct id c op pc → op.side ≠ .send := by
      intro id op pc hth hside
      have hcall := hv.hist.running t id (.direct c op) (by rw [hth]; rfl)
      exact hv.calls.ret_ne t id (h.returned hcalled hclosed hcall hside) (by rw [hth]; rfl)
    have hfor := Thread.ringFor (hv.ok t) hring
    generalize hth : s.thread t = th at hfor
    cases hfor with
    | @single id op pc p hop hruns =>
      rw [hruns.1]
      cases op with
      | send x time => exact absurd rfl (hgone hth)
      | _ => rfl
    | @burst id op pc p hop hruns =>
      rw [hruns.1]
      cases op with
      | sendBurst xs => exact absurd rfl (hgone hth)
      | _ => rfl
    | case hk hchan hruns =>
      have hdirect := hv.direct t
      rw [hth] at hdirect
      cases hdirect
    | @waiter _ _ w o hhand hserves =>
      subst hth
      have how := (hv.queues.claimed t w c o hhand).1
      obtain ⟨u, op, hcall, -, hside, -⟩ := hv.direct.single_of_owned hv.toSound how
      obtain ⟨v, hwaits⟩ := how
      cases o with
      | send =>
        exact absurd (Thread.id_of_waits hwaits)
          (hv.calls.ret_ne v w.call (h.returned hcalled hclosed hcall hside))
      | recv =>
        have hop := hserves.1
        generalize p.op = rop at hop
        cases rop with
        | pop w => rfl
        | push w x => cases hop.1
        | _ => exact hop.elim
  cached hclosed t alt p th hacts := by
    obtain ⟨id, op, pc, pc', hth, -, hflow⟩ := hv.direct.flow hacts
    obtain ⟨spin, rfl⟩ : ∃ spin, pc = .fastSpsc spin p := by
      cases hflow <;> exact ⟨_, rfl⟩
    have hcall := hv.hist.running t id (.direct c op) (by rw [hth]; rfl)
    rw [(hv.direct_ok hth).2.2.2]
    cases op with
    | send x time =>
      exact absurd (by rw [hth]; rfl) (hv.calls.ret_ne t id (h.returned hcalled hclosed hcall rfl))
    | sendBurst xs =>
      exact absurd (by rw [hth]; rfl) (hv.calls.ret_ne t id (h.returned hcalled hclosed hcall rfl))
    | _ => rfl
  meet hclosed t alt e th hacts := by
    cases e with
    | pair a b w x =>
      obtain ⟨-, ⟨u, time, hcall⟩, -⟩ := hv.calls_of_pair hacts
      exact absurd (List.mem_cons_self : a ∈ [a, b])
        (hv.not_granted (h.returned hcalled hclosed hcall rfl) hacts)
    | _ => rfl

/-- What the elements of a channel are subject to in runs without laps. -/
structure OnceValid (K : Config T C) (c : C) (s : Sys T C α) : Prop extends DirectValid K s where
  ring : RingValid K s
  bursts : BurstInv s
  called : CloseCalled c s
  final : s.SendsFirst c → FinalInv c s

omit [DecidableEq T] in
theorem OnceValid.init (slots : C → U32 → α) : OnceValid K c (Sys.init slots : Sys T C α) where
  toDirectValid := .init slots
  ring := .init slots
  bursts := Sys.Each.init slots trivial
  called h := by cases h
  final _ := Sys.Each.init slots trivial

omit [DecidableEq T] in
theorem OnceValid.quiet (hdirect : DirectValid K s) (hring : RingValid K s) (hcalled : CloseCalled c s)
    (hspsc : (K.chan c).spsc = false) (hfirst : s.SendsFirst c) : QuietValid K c s :=
  ⟨hdirect, hfirst.hushed hcalled hdirect, hring.shared.takers_le hspsc⟩

theorem OnceValid.step (h : OnceValid K c s) (hcap : 0 < (K.chan c).capacity)
    (hspsc : (K.chan c).spsc = false) (hl : l.direct = true) (htime : s.Timely l)
    (hstep : s.Stepped K l s') : OnceValid K c s' := by
  have hdirect' := h.toDirectValid.step hl hstep
  have hring' := h.ring.step htime hstep
  have hcalled' := h.called.step h.toDirectValid hstep
  refine ⟨hdirect', hring', h.bursts.step h.toSound hstep, hcalled', fun hfirst => ?_⟩
  obtain ⟨evs, hevents⟩ := hstep.events_append
  have hbefore := hfirst.before hevents
  have hquiet := OnceValid.quiet h.toDirectValid h.ring h.called hspsc hbefore
  have htells := hquiet.hushed.tellsEmpty h.ring.shared hspsc htime
  exact (h.final hbefore).step hquiet (OnceValid.quiet hdirect' hring' hcalled' hspsc hfirst) hcap htells
    hstep

omit [DecidableEq T] [DecidableEq C] in
/-- Everything accepted has been taken when a receive is refused. -/
theorem FinalInv.emptied_of_refused (h : FinalInv c s) (hshut : ClosedInv s) {id : Nat}
    (href : s.Refused c id) : (s.mem.chan c).Emptied := by
  rcases href with ⟨time, out, hans⟩ | ⟨t, time, pc, hth, hpc⟩
  · exact h.returned id _ _ out hans rfl rfl rfl
  · have hfinal := h.running t
    have hknows := hshut.running t
    rw [hth] at hfinal hknows
    rcases hpc with rfl | rfl | ⟨-, hres⟩
    · exact (hfinal rfl (hknows.1 rfl)).1 rfl
    · exact (hfinal rfl (hknows.1 rfl)).1 rfl
    · exact (hfinal rfl (hknows.2.2 hres)).2 rfl hres

/-- The books of a channel only grow. -/
theorem Sys.Stepped.books_prefix (hstep : s.Stepped K l s') (c : C) :
    (s.mem.chan c).sent <+: (s'.mem.chan c).sent ∧ (s.mem.chan c).recvd <+: (s'.mem.chan c).recvd := by
  cases hstep with
  | call hidle => exact ⟨List.prefix_rfl, List.prefix_rfl⟩
  | ret hdone hret => exact ⟨List.prefix_rfl, List.prefix_rfl⟩
  | @move t alt d e th hnext hacts =>
    show _ <+: ((s.mem.apply K t d e).chan c).sent ∧ _ <+: ((s.mem.apply K t d e).chan c).recvd
    by_cases hd : c = d
    · subst hd
      rw [Mem.chan_apply_self, Chan.sent_apply, Chan.recvd_apply]
      exact ⟨List.prefix_append _ _, List.prefix_append _ _⟩
    · rw [Mem.chan_apply_of_ne K s.mem t d e hd]
      exact ⟨List.prefix_rfl, List.prefix_rfl⟩

/-- A buffered channel in runs of `Sys` without selects and without laps of the ring. -/
theorem Sys.exactlyOnce (K : Config T C) (slots : C → U32 → α) (s s' : Sys T C α) (c : C)
    (hcap : 0 < (K.chan c).capacity) (hspsc : (K.chan c).spsc = false)
    (hrun : Reaches (Sys.step K) (fun s l => l.direct = true ∧ s.Timely l) (Sys.init slots) s)
    (hrun' : Reaches (Sys.step K) (fun s l => l.direct = true ∧ s.Timely l) s s') :
    s.ExactlyOnce K c ∧
    ((s.mem.chan c).sent <+: (s'.mem.chan c).sent ∧ (s.mem.chan c).recvd <+: (s'.mem.chan c).recvd) ∧
    (s.SendsFirst c → ∀ id, s.Refused c id → (s.mem.chan c).inRing = [] ∧
      ((s.mem.chan c).sent.map Prod.snd).Perm ((s.mem.chan c).recvd.map Prod.snd)) := by
  have hv : OnceValid K c s := by
    apply hrun.invariant (OnceValid.init slots)
    intro s l s' hv hok hstep
    exact hv.step hcap hspsc hok.1 hok.2 (Sys.step_cases hv.locks.wf hstep)
  have honce := hv.toDirectValid.exactlyOnce hv.ring hv.bursts hcap hspsc
  refine ⟨honce, ?_, fun hfirst id href => ?_⟩
  · obtain ⟨-, hbooks⟩ : OnceValid K c s' ∧ (s.mem.chan c).sent <+: (s'.mem.chan c).sent ∧
        (s.mem.chan c).recvd <+: (s'.mem.chan c).recvd := by
      apply hrun'.invariant (P := fun s' => OnceValid K c s' ∧
        (s.mem.chan c).sent <+: (s'.mem.chan c).sent ∧ (s.mem.chan c).recvd <+: (s'.mem.chan c).recvd)
        ⟨hv, List.prefix_rfl, List.prefix_rfl⟩
      rintro s₁ l s₂ ⟨hv₁, hsent, hrecvd⟩ hok hstep
      have hstep := Sys.step_cases hv₁.locks.wf hstep
      obtain ⟨hsent', hrecvd'⟩ := hstep.books_prefix c
      exact ⟨hv₁.step hcap hspsc hok.1 hok.2 hstep, hsent.trans hsent', hrecvd.trans hrecvd'⟩
    exact hbooks
  · have hempty := (hv.final hfirst).emptied_of_refused hv.shut href
    have hnone : (s.mem.chan c).inRing = [] := List.drop_of_length_le (Nat.le_of_eq hempty)
    have hbalance := honce.balance
    rw [hnone, List.map_nil, List.append_nil] at hbalance
    exact ⟨hnone, hbalance⟩

omit [DecidableEq T] [DecidableEq C] in
/-- The conditions on the calls and on the cursors say the same of the system with stack memory. -/
theorem StackSys.timely_direct {r : StackSys T C α} {l : StackLabel T C α}
    (h : (l.label.direct = true ∧ r.seen.Timely l.label) ∧ r.ReuseOk l) :
    r.ReuseOk l ∧ l.label.direct = true ∧ r.sys.Timely l.label := by
  obtain ⟨⟨hdirect, htime⟩, hreuse⟩ := h
  refine ⟨hreuse, hdirect, ?_⟩
  cases l with
  | call t k f => trivial
  | go t alt => exact htime

omit [DecidableEq T] in
/-- A refusal looks so through the view. -/
theorem StackInv.refused {r : StackSys T C α} (h : StackInv K r) {id : Nat} (href : r.seen.Refused c id) :
    r.sys.Refused c id := by
  rcases href with hans | ⟨t, time, pc, hth, hpc⟩
  · exact .inl hans
  · refine .inr ⟨t, time, pc, hth, hpc.imp_right (.imp_right ?_)⟩
    rintro ⟨hreg, hres⟩
    have hlive : (r.sys.thread t).Live ⟨id, 0⟩ := by
      rw [show r.sys.thread t = _ from hth]
      exact ⟨rfl, hreg⟩
    exact ⟨hreg, (congrArg Waiter.result (h.placed t _ hlive).view_eq.1).symm.trans hres⟩

/-- Runs without selects and without laps of the ring in which no call sets up its waiters in a frame that
somebody is still about to signal, on a buffered channel that is not an SPSC one, in every state `r`. The
elements accepted so far are, as a multiset, those handed to receives and those in the ring, which are in
their slots once they are committed; every return tells which elements its call has contributed or
obtained, none unless it is `CHAN_OK` or a count; what is decided stays so in every later state `r'`. If
every send on the channel has returned before `chan_close` is called, then all that was accepted has been
taken when a receive is refused with `CHAN_ERR_CLOSED`. -/
theorem accepted_exactly_once (K : Config T C) (slots : C → U32 → α) (r r' : StackSys T C α) (c : C)
    (hcap : 0 < (K.chan c).capacity) (hspsc : (K.chan c).spsc = false)
    (hrun : Reaches (StackSys.step K)
      (fun r l => (l.label.direct = true ∧ r.seen.Timely l.label) ∧ r.ReuseOk l) (StackSys.init slots) r)
    (hrun' : Reaches (StackSys.step K)
      (fun r l => (l.label.direct = true ∧ r.seen.Timely l.label) ∧ r.ReuseOk l) r r') :
    r.seen.ExactlyOnce K c ∧
    ((r.seen.mem.chan c).sent <+: (r'.seen.mem.chan c).sent ∧
      (r.seen.mem.chan c).recvd <+: (r'.seen.mem.chan c).recvd) ∧
    (r.seen.SendsFirst c → ∀ id, r.seen.Refused c id → (r.seen.mem.chan c).inRing = [] ∧
      ((r.seen.mem.chan c).sent.map Prod.snd).Perm ((r.seen.mem.chan c).recvd.map Prod.snd)) := by
  obtain ⟨hsys, hinv⟩ := StackSys.reaches_sys (fun s l => l.direct = true ∧ s.Timely l) (.init slots)
    (fun _ _ _ h => StackSys.timely_direct h) hrun
  obtain ⟨hsys', -⟩ := StackSys.reaches_sys (fun s l => l.direct = true ∧ s.Timely l) hinv
    (fun _ _ _ h => StackSys.timely_direct h) hrun'
  obtain ⟨honce, hbooks, hfinal⟩ := Sys.exactlyOnce K slots r.sys r'.sys c hcap hspsc hsys hsys'
  exact ⟨⟨honce.balance, honce.stored, honce.sent, honce.recvd, honce.sent_once, honce.recvd_once,
    honce.send, honce.sendBurst, honce.recv, honce.recvBurst⟩, hbooks,
    fun hfirst id href => hfinal hfirst id (hinv.refused href)⟩

end First

/-- The sends before a position of the history at which nobody has called `chan_close` yet. -/
theorem Sys.SendsFirst.of_append {s : Sys T C α} {c : C} {a b : List (Event T C α)}
    (hevents : s.events = a ++ b) (hnone : ∀ id t, .call id t (.direct c .close) ∉ a)
    (hret : ∀ id t op, .call id t (.direct c op) ∈ s.events → op.side = .send →
      ∃ r out, .ret id t r out ∈ a) : s.SendsFirst c := by
  intro pre post id t hsplit id' t' op hcall hside
  obtain ⟨r, out, hmem⟩ := hret id' t' op hcall hside
  refine ⟨r, out, ?_⟩
  rcases List.append_eq_append_iff.1 (hevents.symm.trans hsplit) with ⟨m, rfl, -⟩ | ⟨m, rfl, hm⟩
  · exact List.mem_append_left _ hmem
  · cases m with
    | nil => rwa [List.append_nil] at hmem
    | cons ev m =>
      cases hm
      exact absurd (List.mem_append_right pre List.mem_cons_self) (hnone id t)

/-- A send, `chan_close`, a receive that gets the element and one that is refused, in the frame of the first
receive. -/
theorem accepted_exactly_once_closed : ∃ r : StackSys (Fin 3) Unit Nat,
    Reaches (StackSys.step bufferedOne)
      (fun r l => (l.label.direct = true ∧ r.seen.Timely l.label) ∧ r.ReuseOk l)
      (StackSys.init fun _ _ => 0) r ∧
    r.home 3 = r.home 2 ∧ r.seen.SendsFirst () ∧ r.seen.Refused () 3 ∧
    (r.seen.mem.chan ()).SentBy 0 [7] ∧ (r.seen.mem.chan ()).inRing = [] ∧
    ((r.seen.mem.chan ()).sent.map Prod.snd).Perm ((r.seen.mem.chan ()).recvd.map Prod.snd) := by
  obtain ⟨r, hr, hhome, hevents⟩ := StackSys.exists_reaches bufferedOne (fun _ _ => (0 : Nat))
    (fun r l => (l.label.direct = true ∧ r.seen.Timely l.label) ∧ r.ReuseOk l)
    (List.flatten [
      [.call 0 (.direct () (.send 7 0)) 0], List.replicate 11 (.go 0 false),
      [.call 1 (.direct () .close) 1], List.replicate 7 (.go 1 false),
      [.call 2 (.direct () (.recv 0)) 2], List.replicate 10 (.go 2 false),
      [.call 2 (.direct () (.recv 0)) 2], List.replicate 12 (.go 2 false)])
    (fun r => r.home 3 = r.home 2 ∧
      r.seen.events = [.call 0 0 (.direct () (.send 7 0)), .ret 0 0 (.err .ok) []] ++
      [.call 1 1 (.direct () .close), .ret 1 1 (.err .ok) [], .call 2 2 (.direct () (.recv 0)),
        .ret 2 2 (.err .ok) [some 7], .call 3 2 (.direct () (.recv 0)), .ret 3 2 (.err .closed) []])
    (by decide +kernel)
  have hfirst : r.seen.SendsFirst () := by
    apply Sys.SendsFirst.of_append hevents
    · simp
    · intro id t op hcall hside
      rw [hevents] at hcall
      simp only [List.cons_append, List.nil_append, List.mem_cons, Event.call.injEq, Call.direct.injEq,
        true_and, List.not_mem_nil, or_false, reduceCtorEq, false_or] at hcall
      rcases hcall with ⟨rfl, rfl, rfl⟩ | ⟨rfl, rfl, rfl⟩ | ⟨rfl, rfl, rfl⟩ | ⟨rfl, rfl, rfl⟩
      · exact ⟨.err .ok, [], by simp⟩
      · cases hside
      · cases hside
      · cases hside
  have href : r.seen.Refused () 3 := Or.inl ⟨0, [], 2, by rw [hevents]; simp, by rw [hevents]; simp⟩
  obtain ⟨honce, -, hfinal⟩ := accepted_exactly_once bufferedOne _ r r () (by decide) rfl hr .refl
  have hsent := honce.send 0 7 0 (.err .ok) [] ⟨0, by rw [hevents]; simp, by rw [hevents]; simp⟩
  exact ⟨r, hr, hhome, hfirst, href, hsent, hfinal hfirst 3 href⟩

/-- A send is stopped before its CAS until the producer cursor has gone once around its `2 ^ 32` values:
the one element `7` that was ever sent is received twice. -/
theorem accepted_received_twice : ∃ s : Sys Bool Unit Nat,
    Reaches (Sys.step bufferedLargest) (fun _ l => l.direct = true) (Sys.init fun _ _ => 0) s ∧
    (∀ t, s.thread t = .idle) ∧ (∀ w, s.Offered () w 7 → w = ⟨0, 0⟩) ∧
    s.Answered 0 (.direct () (.send 7 0)) (.err .ok) [] ∧
    s.Answered 4 (.direct () (.recv 0)) (.err .ok) [some 7] ∧
    s.Answered 6 (.direct () (.recv 0)) (.err .ok) [some 7] := by
  obtain ⟨s, o₁, o₂, o₃, o₅, hs, hidle, hevents⟩ := exists_lap rfl
  generalize 2 ^ 31 = n at hevents
  refine ⟨s, hs, hidle, fun w hw => offered_of_lapEvents hevents hw, ?_, ?_, ?_⟩
  · exact ⟨false, by rw [hevents]; simp [lapEvents], by rw [hevents]; simp [lapEvents]⟩
  · exact ⟨true, by rw [hevents]; simp [lapEvents], by rw [hevents]; simp [lapEvents]⟩
  · exact ⟨true, by rw [hevents]; simp [lapEvents], by rw [hevents]; simp [lapEvents]⟩

end LibChan
