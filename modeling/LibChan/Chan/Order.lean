import LibChan.Chan.ExactlyOnce

/-!
# The order of one producer's elements at one consumer

Calls are numbered in the order in which they start, so the elements of one thread are ordered by the
number of the call and, inside a burst, by their index (`Wid.Before`). An element travels through the
ring, or is handed over by a thread that meets the other under the lock. On a buffered channel the second
happens only after the ring was found empty under the lock; from then on no parked sender has an element
in the ring (`SawInv`), so the hand-over does not overtake one (`OrderInv`).

`producer_order` is the result, `producer_order_broken` what a lap of the ring does to it.
-/

set_option autoImplicit false

namespace LibChan

variable {T C α : Type}

/-- The order of the elements of one thread: by calls, and inside a call by index. -/
def Wid.Before (v w : Wid) : Prop := v.call < w.call ∨ v.call = w.call ∧ v.idx < w.idx

/-- The element belongs to a call of thread `t`. -/
def Sys.By (s : Sys T C α) (t : T) (w : Wid) : Prop := ∃ k, .call w.call t k ∈ s.events

/-- The elements of every single thread are in their order. -/
def Sys.InLine (s : Sys T C α) (l : List Wid) : Prop :=
  l.Pairwise fun v w => ∀ t, s.By t v → s.By t w → v.Before w

/-- `pairs` says for each element obtained from the channel which send it comes from, who obtained it
and what it is. Every receive that has returned an element is in it, no send twice and no receive twice,
and what one thread obtains from another it obtains in the order in which the other sent it. -/
structure Sys.Delivers (c : C) (s : Sys T C α) (pairs : List (Wid × Wid × α)) : Prop where
  offered : ∀ p ∈ pairs, s.Offered c p.1 p.2.2
  accepting : ∀ p ∈ pairs, s.Accepting c p.2.1
  sent_once : (pairs.map Prod.fst).Nodup
  recvd_once : (pairs.map fun p => p.2.1).Nodup
  recv : ∀ id time out, s.Answered id (.direct c (.recv time)) (.err .ok) out →
    ∃ a x, (a, ⟨id, 0⟩, x) ∈ pairs ∧ out = [some x]
  recvBurst : ∀ id n k out, s.Answered id (.direct c (.recvBurst n)) (.count k) out →
    ∃ xs : List α, xs.length = k ∧ out = xs.map some ∧
      ∀ i x, xs[i]? = some x → ∃ a, (a, ⟨id, i⟩, x) ∈ pairs
  order : ∀ p ∈ pairs, ∀ q ∈ pairs, ∀ P Q, s.By P p.1 → s.By P q.1 → s.By Q p.2.1 → s.By Q q.2.1 →
    p.2.1.Before q.2.1 → p.1.Before q.1

theorem Wid.Before.asymm {v w : Wid} (h : v.Before w) : ¬ w.Before v := by
  rintro (h' | h') <;> rcases h with h | h <;> omega

/-! ## Calls of one thread -/

/-- The call a thread is in is its last. -/
def LastInv (s : Sys T C α) : Prop :=
  ∀ t id, (s.thread t).id? = some id → ∀ id' k, .call id' t k ∈ s.events → id' ≤ id

section Calls

variable [DecidableEq T] [DecidableEq C] {K : Config T C} {s s' : Sys T C α} {l : Label T C α}
  {t : T} {alt : Bool} {c : C} {e : Effect α} {th : Thread C α} {v w : Wid}

theorem LastInv.step (h : LastInv s) (hs : Sound K s) (hstep : s.Stepped K l s') : LastInv s' := by
  intro u id hid id' k hcall
  cases hstep with
  | @call t k' hidle =>
    by_cases hu : u = t
    · subst hu
      rw [Sys.thread_startCall_self] at hid
      have hnext : id = s.next := by
        cases k' with
        | direct c op => exact (Option.some.inj hid).symm
        | select cases timeout => exact (Option.some.inj hid).symm
      rw [hnext]
      rcases Sys.mem_events_startCall.1 hcall with hold | hnew
      · exact (hs.hist.call_lt id' u k hold).le
      · cases hnew
        exact Nat.le_refl _
    · rw [Sys.thread_startCall_of_ne hu] at hid
      rcases Sys.mem_events_startCall.1 hcall with hold | hnew
      · exact h u id hid id' k hold
      · cases hnew
        exact absurd rfl hu
  | @ret t alt id₀ r out hdone hret =>
    by_cases hu : u = t
    · subst hu
      rw [Sys.thread_finishCall_self] at hid
      cases hid
    · rw [Sys.thread_finishCall_of_ne hu] at hid
      rcases Sys.mem_events_finishCall.1 hcall with hold | hnew
      · exact h u id hid id' k hold
      · cases hnew
  | @move t alt c e th hnext hacts =>
    by_cases hu : u = t
    · subst hu
      rw [Sys.thread_move_self] at hid
      obtain ⟨k', hk'⟩ := Thread.call_of_id hid
      rw [hacts.call_eq] at hk'
      exact h u id (Thread.id_of_call hk') id' k hcall
    · rw [Sys.thread_move_of_ne hu] at hid
      exact h u id hid id' k hcall

omit [DecidableEq T] [DecidableEq C] in
/-- The elements of a running call belong to the thread that is in it. -/
theorem HistInv.eq_of_by (hist : HistInv s) (hid : (s.thread t).id? = some w.call) {u : T}
    (h : s.By u w) : u = t := by
  obtain ⟨k, hk⟩ := h
  obtain ⟨k', hrun⟩ := Thread.call_of_id hid
  exact (hist.call_inj _ _ _ _ _ hk (hist.running t _ _ hrun)).1

omit [DecidableEq T] in
/-- The owner of an element that is moved is in its call. -/
theorem Sound.running_of_grants (hs : Sound K s) (hacts : s.Acts K t alt c e th)
    (hw : w ∈ (s.mem.chan c).grants e) : ∃ u, (s.thread u).id? = some w.call := by
  rcases hacts.grants (hs.ok t) hw with ⟨hid, -⟩ | ⟨o, hhand, -⟩
  · exact ⟨t, hid⟩
  · obtain ⟨u, hwaits⟩ := (hs.queues.claimed t w c o hhand).1
    exact ⟨u, Thread.id_of_waits hwaits⟩

omit [DecidableEq T] [DecidableEq C] in
/-- An element that has been moved was offered, or there was a receive for it. -/
theorem LedgerInv.call_of_took (h : LedgerInv s) (htook : s.mem.Took w) :
    ∃ c, (∃ x, s.Offered c w x) ∨ s.Accepting c w := by
  obtain ⟨c, hsent | htaken⟩ := htook
  · obtain ⟨⟨w', x⟩, hmem, rfl⟩ := List.mem_map.1 hsent
    exact ⟨c, Or.inl ⟨x, h.sent c w' x hmem⟩⟩
  · exact ⟨c, Or.inr (h.taken c w htaken)⟩

omit [DecidableEq T] [DecidableEq C] in
theorem LedgerInv.lt_next_of_took (h : LedgerInv s) (hist : HistInv s) (htook : s.mem.Took w) :
    w.call < s.next := by
  obtain ⟨c, ⟨x, u, k, hcall, -⟩ | ⟨u, k, hcall, -⟩⟩ := h.call_of_took htook
  · exact hist.call_lt _ u k hcall
  · exact hist.call_lt _ u k hcall

/-- A step does not change whose an old call is. -/
theorem Sys.Stepped.by_before (hstep : s.Stepped K l s') (hlt : w.call < s.next) {u : T}
    (h : s'.By u w) : s.By u w := by
  obtain ⟨k, hk⟩ := h
  cases hstep with
  | call hidle =>
    rcases Sys.mem_events_startCall.1 hk with hold | hnew
    · exact ⟨k, hold⟩
    · exact absurd (Event.call.inj hnew).1 hlt.ne
  | ret hdone hret =>
    rcases Sys.mem_events_finishCall.1 hk with hold | hnew
    · exact ⟨k, hold⟩
    · cases hnew
  | move hnext hacts => exact ⟨k, hk⟩

omit [DecidableEq T] [DecidableEq C] in
/-- A call for one element has moved no other. -/
theorem LedgerInv.idx_of_single (h : LedgerInv s) (hist : HistInv s) {id i : Nat} {u : T} {op : Op α}
    (hcall : .call id u (.direct c op) ∈ s.events) (hop : op.single = true)
    (htook : s.mem.Took ⟨id, i⟩) : i = 0 := by
  obtain ⟨d, ⟨x, u', k, hcall', hoff⟩ | ⟨u', k, hcall', hacc⟩⟩ := h.call_of_took htook
  · obtain ⟨-, rfl⟩ := hist.call_inj id u' u k _ hcall' hcall
    have hoffers := hoff.2
    cases op with
    | send y time => exact (Option.ite_none_right_eq_some.1 hoffers).1
    | recv time => cases hoffers
    | _ => cases hop
  · obtain ⟨-, rfl⟩ := hist.call_inj id u' u k _ hcall' hcall
    have haccepts := hacc.2
    cases op with
    | send y time => cases haccepts
    | recv time => exact of_decide_eq_true haccepts
    | _ => cases hop

omit [DecidableEq T] in
/-- A call that moves elements has moved none before. -/
theorem DirectValid.fresh_of_grants (hv : DirectValid K s) (hacts : s.Acts K t alt c e th)
    (hw : w ∈ (s.mem.chan c).grants e) (i : Nat) : ¬ s.mem.Took ⟨w.call, i⟩ := by
  intro htook
  obtain ⟨id, op, pc, pc', hth, -, hflow⟩ := hv.direct.flow hacts
  rcases Pc.fresh_of_flow (hv.direct_ok hth) hflow hw with ⟨hcall, hshared, hgot⟩ | ⟨⟨o, hhand⟩, hgot⟩
  · have hmay := hv.waiters.running t
    rw [hth] at hmay
    have hmem := hmay.own hshared i (hcall ▸ htook)
    rw [hgot] at hmem
    cases hmem
  · -- a parked waiter is the only one of its call
    have hhand' : (s.thread t).hand = some (w, .claimed c o) := by
      rw [hth]
      exact hhand
    have how := (hv.queues.claimed t w c o hhand').1
    obtain ⟨u, op', hcall, hop, -, hidx⟩ := hv.direct.single_of_owned hv.toSound how
    obtain rfl : i = w.idx := by rw [hidx, hv.ledger.idx_of_single hv.hist hcall hop htook]
    exact Sys.fresh_of_grants hv.toSound hv.selects hv.waiters hacts hw htook

omit [DecidableEq T] in
/-- Elements are moved in the order of the calls of a thread. -/
theorem DirectValid.before_of_grants (hv : DirectValid K s) (hlast : LastInv s)
    (hacts : s.Acts K t alt c e th) (hw : w ∈ (s.mem.chan c).grants e) (htook : s.mem.Took v) {u : T}
    (hvu : s.By u v) (hwu : s.By u w) : v.Before w := by
  obtain ⟨k, hk⟩ := hvu
  obtain ⟨u', hid⟩ := hv.running_of_grants hacts hw
  obtain rfl := hv.hist.eq_of_by hid hwu
  refine Or.inl (Nat.lt_of_le_of_ne (hlast u _ hid _ k hk) fun heq => ?_)
  refine hv.fresh_of_grants hacts hw v.idx ?_
  rw [← heq]
  exact htook

end Calls

/-! ## Elements of parked senders -/

/-- The places of a call that takes over from a waiter of the other side, or gives to one. -/
def Pc.meeting : Pc α → Bool
  | meetClaim | meetCopy _ => true
  | _ => false

/-- Nothing is put into the ring of an unbuffered channel. -/
def DryInv (K : Config T C) (c : C) (s : Sys T C α) : Prop :=
  (K.chan c).capacity = 0 → (s.mem.chan c).inRing = []

/-- When a thread meets a waiter of the other side, no parked sender has an element in the ring. -/
def SawInv (K : Config T C) (c : C) (s : Sys T C α) : Prop :=
  ∀ t id op pc, s.thread t = .direct id c op pc → pc.meeting = true →
    (op.isSend = true → (K.chan c).capacity = 0) ∧
    ∀ u v, (s.thread u).Waits c .send v → ∀ y ∈ (s.mem.chan c).inRing, ¬ s.By u y.1

section Saw

variable [DecidableEq T] [DecidableEq C] {K : Config T C} {s s' : Sys T C α} {l : Label T C α}
  {t : T} {alt : Bool} {c : C} {e : Effect α} {th : Thread C α} {v w : Wid}

omit [DecidableEq T] [DecidableEq C] in
/-- A registered waiter looks at the ring again under the lock. -/
theorem Pc.locked_of_waits {pc : Pc α} {p : RingPc Wid α} (h : pc.waits = true)
    (hring : pc.ring? = some p) : pc.locked = true := by
  cases pc with
  | recheck p => rfl
  | unRemove | parkUnlock | park | expLock | expRemove | reparkUnlock | repark => cases hring
  | _ => cases h

omit [DecidableEq T] in
/-- Who is in a ring operation for an element of a parked sender holds the lock. -/
theorem DirectValid.holds_of_waits (hv : DirectValid K s) {p : RingPc Wid α}
    (hring : (s.thread t).ring? = some (c, p)) (hw : w ∈ p.op.wids) {u : T} (hwu : s.By u w)
    (hwaits : (s.thread u).Waits c .send v) : c ∈ (s.thread t).holds K := by
  have hown : (s.thread t).id? = some w.call → c ∈ (s.thread t).holds K := by
    intro hid
    obtain rfl := hv.hist.eq_of_by hid hwu
    have hdirect := hv.direct u
    cases hth : s.thread u with
    | idle =>
      rw [hth] at hid
      cases hid
    | select id cases timeout pc =>
      rw [hth] at hdirect
      cases hdirect
    | direct id d op pc =>
      rw [hth] at hring hwaits
      obtain ⟨q, hq, heq⟩ := Option.map_eq_some_iff.1 hring
      cases heq
      rw [Thread.holds, if_pos (Pc.locked_of_waits hwaits.2.2.2 hq)]
      exact List.mem_singleton_self _
  have hfor := Thread.ringFor (hv.ok t) hring
  generalize hth : s.thread t = th at hfor hown
  cases hfor with
  | single hop hruns =>
    rw [hruns.1] at hw
    exact hown (congrArg some (Op.call_of_ringOp hw).symm)
  | burst hop hruns =>
    rw [hruns.1] at hw
    exact hown (congrArg some (Op.call_of_burstOp hw).symm)
  | case hk hchan hruns =>
    have hdirect := hv.direct t
    rw [hth] at hdirect
    cases hdirect
  | waiter hhand hserves => exact Thread.mem_holds_of_hand hhand (Or.inl rfl)

omit [DecidableEq T] in
/-- When the ring is found empty under the lock, no parked sender has an element in it. -/
theorem DirectValid.not_by_of_empty (hv : DirectValid K s) (hshared : SharedInv K s)
    (hspsc : (K.chan c).spsc = false) (hheld : c ∈ (s.thread t).holds K) {p : RingPc Wid α}
    (hring : (s.thread t).ring? = some (c, p)) (hside : p.op.side = .recv)
    (hempty : (s.mem.chan c).hist.committed .send = (s.mem.chan c).hist.reserved .recv) {u : T}
    (hwaits : (s.thread u).Waits c .send v) {y : Wid × α} (hy : y ∈ (s.mem.chan c).inRing) :
    ¬ s.By u y.1 := by
  intro hyu
  obtain ⟨j, hj⟩ := List.mem_iff_getElem?.1 hy
  rw [Chan.inRing, List.getElem?_drop] at hj
  have hinv := hshared c hspsc
  have hlt : (s.mem.chan c).hist.takers.length + j < (s.mem.chan c).hist.log.length :=
    (List.getElem?_eq_some_iff.1 hj).1
  -- the element is not committed, so somebody is still in its push
  obtain ⟨u', q, k, hq, hrun, hmark, hend⟩ := hinv.covers .send _
    (by rw [hempty]; exact Nat.le_add_right _ _) hlt
  have hdata : y ∈ q.op.data := by
    rw [(hinv.thread u' q hq).log_of_run hrun hmark hend] at hj
    exact List.mem_of_getElem? hj
  have hq' := Thread.ringOn_eq_some.1 hq
  have hheld' := hv.holds_of_waits hq' (List.mem_append_left _ (List.mem_map_of_mem hdata)) hyu hwaits
  obtain rfl := hv.locks.holds_inj hheld hheld'
  cases hq'.symm.trans hring
  cases (RingPc.side_of_run hrun).symm.trans hside

omit [DecidableEq C] in
/-- What a step does to the elements in the ring. -/
theorem Chan.inRing_apply {ch : Chan T α} {cap : RingCap}
    (hle : ch.hist.takers.length ≤ ch.hist.log.length) :
    (ch.apply cap t e).inRing = (ch.inRing ++ ch.pushes e).drop (ch.pops e).length := by
  rw [Chan.inRing, Chan.log_apply, Chan.takers_apply, List.length_append, ← List.drop_drop,
    List.drop_append_of_le_length hle]
  rfl

theorem Sys.mem_inRing_move {d : C} (hle : (s.mem.chan c).hist.takers.length ≤ (s.mem.chan c).hist.log.length)
    {y : Wid × α} (hy : y ∈ ((s.move K t d e th).mem.chan c).inRing) :
    y ∈ (s.mem.chan c).inRing ∨ d = c ∧ y ∈ (s.mem.chan c).pushes e := by
  have hmem : (s.move K t d e th).mem = s.mem.apply K t d e := rfl
  rw [hmem] at hy
  by_cases hd : c = d
  · subst hd
    rw [Mem.chan_apply_self, Chan.inRing_apply hle] at hy
    rcases List.mem_append.1 (List.mem_of_mem_drop hy) with hold | hnew
    · exact Or.inl hold
    · exact Or.inr ⟨rfl, hnew⟩
  · rw [Mem.chan_apply_of_ne K s.mem t d e hd] at hy
    exact Or.inl hy

theorem DryInv.step (h : DryInv K c s) (hs : Sound K s) (hshared : SharedInv K s)
    (hspsc : (K.chan c).spsc = false) (hstep : s.Stepped K l s') : DryInv K c s' := by
  intro hcap
  cases hstep with
  | call hidle => exact h hcap
  | ret hdone hret => exact h hcap
  | @move t alt d e th hnext hacts =>
    refine List.eq_nil_iff_forall_not_mem.2 fun y hy => ?_
    rcases Sys.mem_inRing_move (hshared.takers_le hspsc) hy with hold | ⟨rfl, hnew⟩
    · rw [h hcap] at hold
      cases hold
    · obtain ⟨hring, hspsc'⟩ := hacts.not_ring (hs.ok t) hcap
      cases e with
      | ring weak p => cases hring
      | spsc p => exact hspsc' p rfl
      | _ => cases hnew

/-- A thread does not start to wait on a channel that another thread has locked. -/
theorem Sound.waits_before (hs : Sound K s) {d : C} (hnext : (s.thread t).Next K s.mem d th e) {u u' : T}
    {o : ChanOp} (hheld : c ∈ (s.thread u').holds K) (hne : u' ≠ t)
    (hwaits : ((s.move K t d e th).thread u).Waits c o v) : (s.thread u).Waits c o v := by
  by_cases hu : u = t
  · subst hu
    rw [Sys.thread_move_self] at hwaits
    rcases hnext.move.waits_source hwaits with hold | ⟨rfl, -, hheld'⟩
    · exact hold
    · exact absurd (hs.locks.holds_inj hheld hheld') hne
  · rwa [Sys.thread_move_of_ne hu] at hwaits

omit [DecidableEq T] [DecidableEq C] in
theorem LedgerInv.took_of_inRing (h : LedgerInv s) {y : Wid × α} (hy : y ∈ (s.mem.chan c).inRing) :
    s.mem.Took y.1 :=
  ⟨c, Or.inl (List.mem_map_of_mem ((h.log c).subset (List.mem_of_mem_drop hy)))⟩

omit [DecidableEq T] [DecidableEq C] in
theorem Pc.locked_of_meeting {pc : Pc α} (h : pc.meeting = true) :
    pc.locked = true ∧ pc.waits = false := by
  cases pc with
  | meetClaim | meetCopy w => exact ⟨rfl, rfl⟩
  | _ => cases h

omit [DecidableEq T] in
/-- How a call comes to meet a waiter. -/
theorem SawInv.own (h : SawInv K c s) (hv : DirectValid K s) (hshared : SharedInv K s)
    (hdry : DryInv K c s) (hspsc : (K.chan c).spsc = false) {id : Nat} {op : Op α} {pc pc' : Pc α}
    (hth : s.thread t = .direct id c op pc) (htime : s.Timely (.go t alt))
    (hflow : Pc.Flow K s.mem id c op alt pc e pc') (hpc' : pc'.meeting = true) :
    (op.isSend = true → (K.chan c).capacity = 0) ∧ (s.mem.chan c).pushes e = [] ∧
      ∀ u v, (s.thread u).Waits c .send v → ∀ y ∈ (s.mem.chan c).inRing, ¬ s.By u y.1 := by
  have hok := hv.direct_ok hth
  have hempty : (K.chan c).capacity = 0 → ∀ u v, (s.thread u).Waits c .send v →
      ∀ y ∈ (s.mem.chan c).inRing, ¬ s.By u y.1 := by
    intro hcap u v hwaits y hy
    rw [hdry hcap] at hy
    cases hy
  cases hflow with
  | slowMeet hfree hop hcap => exact ⟨fun _ => hcap, rfl, hempty hcap⟩
  | slowOpenMeet hopen hcap => exact ⟨fun _ => hcap, rfl, hempty hcap⟩
  | meetDrop hqueue hclaim => exact ⟨(h t id op _ hth rfl).1, rfl, (h t id op _ hth rfl).2⟩
  | meetClaim hqueue hclaim => exact ⟨(h t id op _ hth rfl).1, rfl, (h t id op _ hth rfl).2⟩
  | @slowRecvMiss p res hp hres hop =>
    have hring : (s.thread t).ring? = some (c, p) := by
      rw [hth]
      rfl
    have hside : p.op.side = .recv := by
      rw [hok.2.2.1]
      cases op with
      | send x time => cases hop
      | _ => rfl
    have hfound := (hshared c hspsc).empty_of_moved (Thread.ringOn_eq_some.2 hring) hside
      (htime _ hring) hp hres
    refine ⟨fun hsend => (by cases hop.symm.trans hsend), ?_, fun u v hwaits y hy => ?_⟩
    · exact List.eq_nil_iff_forall_not_mem.2 fun z hz => RingPc.not_grants_of_inr hp
        (Chan.mem_grants.2 (Or.inl (List.mem_map_of_mem (List.mem_append_left _ hz))))
    · exact hv.not_by_of_empty hshared hspsc (Sys.held_of_locked hth rfl) hring hside hfound hwaits hy
  | serveStopBlock hstop hblock | serveEmptyBlock hqueue hblock | servePutBackBlock hblock
  | meetEmptySend hqueue hop hblock | emptyOpen hopen hblock => cases hblock <;> cases hpc'
  | _ => cases hpc'

theorem SawInv.step (h : SawInv K c s) (hv : DirectValid K s) (hshared : SharedInv K s)
    (hdry : DryInv K c s) (hspsc : (K.chan c).spsc = false) (htime : s.Timely l)
    (hstep : s.Stepped K l s') : SawInv K c s' := by
  intro t id op pc hth hpc
  have hbefore : ∀ {u : T} {y : Wid × α}, y ∈ (s.mem.chan c).inRing → s'.By u y.1 → s.By u y.1 :=
    fun hold hyu =>
      hstep.by_before (hv.ledger.lt_next_of_took hv.hist (hv.ledger.took_of_inRing hold)) hyu
  cases hstep with
  | @call t' k hidle =>
    have ht : t ≠ t' := by
      rintro rfl
      rw [Sys.thread_startCall_self] at hth
      cases k with
      | select cases timeout => cases hth
      | direct d op' =>
        have hbegins := Pc.begins_entry (K.chan d) s.next op'
        cases hth
        generalize Pc.entry (K.chan c) s.next op = pc at hpc hbegins
        cases hbegins <;> cases hpc
    rw [Sys.thread_startCall_of_ne ht] at hth
    refine ⟨(h t id op pc hth hpc).1, fun u v hwaits y hy hyu => ?_⟩
    have hu : u ≠ t' := by
      rintro rfl
      rw [Sys.thread_startCall_self] at hwaits
      exact (Sys.begun_startThread K s.next k).waits c .send v hwaits
    rw [Sys.thread_startCall_of_ne hu] at hwaits
    exact (h t id op pc hth hpc).2 u v hwaits y hy (hbefore hy hyu)
  | @ret t' alt id' r out hdone hret =>
    have ht : t ≠ t' := by
      rintro rfl
      rw [Sys.thread_finishCall_self] at hth
      cases hth
    rw [Sys.thread_finishCall_of_ne ht] at hth
    refine ⟨(h t id op pc hth hpc).1, fun u v hwaits y hy hyu => ?_⟩
    have hu : u ≠ t' := by
      rintro rfl
      rw [Sys.thread_finishCall_self] at hwaits
      exact hwaits
    rw [Sys.thread_finishCall_of_ne hu] at hwaits
    exact (h t id op pc hth hpc).2 u v hwaits y hy (hbefore hy hyu)
  | @move t' alt d e th hnext hacts =>
    by_cases ht : t = t'
    · subst ht
      obtain ⟨id', op', q, q', hq, rfl, hflow⟩ := hv.direct.flow hacts
      rw [Sys.thread_move_self] at hth
      cases hth
      obtain ⟨hsend, hnone, hsaw⟩ := h.own hv hshared hdry hspsc hq htime hflow hpc
      refine ⟨hsend, fun u v hwaits y hy hyu => ?_⟩
      have hu : u ≠ t := by
        rintro rfl
        rw [Sys.thread_move_self] at hwaits
        cases (Pc.locked_of_meeting hpc).2.symm.trans hwaits.2.2.2
      rw [Sys.thread_move_of_ne hu] at hwaits
      rcases Sys.mem_inRing_move (hshared.takers_le hspsc) hy with hold | ⟨-, hnew⟩
      · exact hsaw u v hwaits y hold (hbefore hold hyu)
      · rw [hnone] at hnew
        cases hnew
    · rw [Sys.thread_move_of_ne ht] at hth
      obtain ⟨hsend, hsaw⟩ := h t id op pc hth hpc
      refine ⟨hsend, fun u v hwaits y hy hyu => ?_⟩
      have hheld : c ∈ (s.thread t).holds K := Sys.held_of_locked hth (Pc.locked_of_meeting hpc).1
      have hwaits' := hv.waits_before hnext hheld ht hwaits
      rcases Sys.mem_inRing_move (hshared.takers_le hspsc) hy with hold | ⟨rfl, hnew⟩
      · exact hsaw u v hwaits' y hold (hbefore hold hyu)
      · -- a push outside the lock is for an element of the thread itself, which is not parked
        cases e with
        | ring weak p =>
          have hdata : y.1 ∈ p.op.data.map Prod.fst :=
            List.mem_map_of_mem (RingPc.mem_data_of_pushes hnew)
          have hheld' := hv.holds_of_waits (hacts.ring_of_effect (hv.ok t')) (List.mem_append_left _ hdata)
            hyu hwaits'
          exact ht (hv.locks.holds_inj hheld hheld')
        | spsc p => cases hspsc.symm.trans (hacts.spsc (hv.ok t'))
        | _ => cases hnew

end Saw

/-! ## The line -/

/-- The pairs and the elements in the ring stand in the order of their senders, and the pairs in the
order of their receivers. -/
structure Sys.Lined (c : C) (s : Sys T C α) (pairs : List (Wid × Wid × α)) : Prop where
  recvd : (s.mem.chan c).recvd = pairs.map Prod.snd
  sent : ∀ p ∈ pairs, (p.1, p.2.2) ∈ (s.mem.chan c).sent
  senders : s.InLine (pairs.map Prod.fst ++ (s.mem.chan c).inRing.map Prod.fst)
  receivers : s.InLine (pairs.map fun p => p.2.1)

section Line

variable [DecidableEq T] [DecidableEq C] {K : Config T C} {s s' : Sys T C α} {l : Label T C α}
  {t : T} {alt : Bool} {c : C} {e : Effect α} {th : Thread C α} {v w : Wid}

omit [DecidableEq T] [DecidableEq C] in
theorem Sys.inLine_append {l₁ l₂ : List Wid} (h₁ : s.InLine l₁) (h₂ : l₂.Pairwise Wid.Before)
    (h : ∀ v ∈ l₁, ∀ w ∈ l₂, ∀ t, s.By t v → s.By t w → v.Before w) : s.InLine (l₁ ++ l₂) :=
  List.pairwise_append.2 ⟨h₁, h₂.imp fun hvw _ _ _ => hvw, h⟩

theorem Sys.InLine.step {l₁ : List Wid} (h : s.InLine l₁) (hstep : s.Stepped K l s')
    (hlt : ∀ w ∈ l₁, w.call < s.next) : s'.InLine l₁ :=
  h.imp_of_mem fun hv hw hvw t hvt hwt =>
    hvw t (hstep.by_before (hlt _ hv) hvt) (hstep.by_before (hlt _ hw) hwt)

omit [DecidableEq T] [DecidableEq C] in
/-- The elements of a ring operation are in order. -/
theorem Thread.wids_before {p : RingPc Wid α} (hok : th.Ok K) (hring : th.ring? = some (c, p)) :
    p.op.wids.Pairwise Wid.Before := by
  cases Thread.ringFor hok hring with
  | @single id op pc p hop hruns =>
    rw [hruns.1]
    cases op with
    | send x time => exact List.pairwise_singleton _ _
    | _ => exact List.pairwise_singleton _ _
  | @burst id op pc p hop hruns =>
    rw [hruns.1, Op.wids_burstOp hop, List.pairwise_map]
    exact List.pairwise_lt_range.imp fun h => Or.inr ⟨rfl, h⟩
  | @case id cases timeout pc p i k hk hchan hruns =>
    rw [hruns.1]
    obtain ⟨d, elem⟩ := k
    cases elem with
    | none => exact List.pairwise_singleton _ _
    | some x => exact List.pairwise_singleton _ _
  | waiter hhand hserves =>
    rw [RingOp.wids_of_serves hserves.1]
    exact List.pairwise_singleton _ _

/-- The pairs a step makes: takers with the oldest elements of the ring, and those who meet. -/
def Chan.moves (ch : Chan T α) (e : Effect α) : List (Wid × Wid × α) :=
  ((ch.pops e).zip (ch.inRing ++ ch.pushes e)).map (fun x => (x.2.1, x.1, x.2.2)) ++ e.meets

omit [DecidableEq C] [DecidableEq T] in
theorem Chan.map_snd_moves {ch : Chan T α} (hle : ch.hist.takers.length ≤ ch.hist.log.length) :
    (ch.moves e).map Prod.snd = ch.recvs e := by
  rw [Chan.moves, Chan.recvs, List.map_append, List.map_map, List.drop_append_of_le_length hle]
  rfl

omit [DecidableEq C] [DecidableEq T] in
theorem Chan.receivers_moves (ch : Chan T α) (e : Effect α) :
    ((ch.moves e).map fun p => p.2.1).Sublist (ch.pops e ++ e.meets.map fun p => p.2.1) := by
  rw [Chan.moves, List.map_append, List.map_map]
  exact (map_fst_zip_sublist _ _).append (List.Sublist.refl _)

omit [DecidableEq C] [DecidableEq T] in
theorem Chan.sent_of_moves {ch : Chan T α} {p : Wid × Wid × α} (h : p ∈ ch.moves e) :
    (p.1, p.2.2) ∈ ch.inRing ∨ (p.1, p.2.2) ∈ ch.sends e := by
  rcases List.mem_append.1 h with hzip | hmeet
  · obtain ⟨⟨b, a, x⟩, hmem, rfl⟩ := List.mem_map.1 hzip
    rcases List.mem_append.1 (List.of_mem_zip hmem).2 with hold | hnew
    · exact Or.inl hold
    · exact Or.inr (List.mem_append_left _ hnew)
  · exact Or.inr (List.mem_append_right _ (List.mem_map_of_mem hmeet))

omit [DecidableEq C] [DecidableEq T] in
theorem map_snd_zip_eq_take {β γ : Type} : ∀ (l : List β) (l' : List γ), (l.zip l').map Prod.snd = l'.take l.length
  | [], _ => rfl
  | _ :: _, [] => rfl
  | _ :: l, x :: l' => congrArg (x :: ·) (map_snd_zip_eq_take l l')

/-- Elements leave the ring at the front, so the line of the senders grows at its end. -/
theorem Chan.line_apply {ch : Chan T α} {cap : RingCap}
    (hle : ch.hist.takers.length ≤ ch.hist.log.length) (hmeets : e.meets = []) :
    (ch.moves e).map Prod.fst ++ (ch.apply cap t e).inRing.map Prod.fst =
      ch.inRing.map Prod.fst ++ (ch.pushes e).map Prod.fst := by
  have hzip : (ch.moves e).map Prod.fst =
      ((ch.inRing ++ ch.pushes e).take (ch.pops e).length).map Prod.fst := by
    rw [Chan.moves, hmeets, List.append_nil, ← map_snd_zip_eq_take, List.map_map, List.map_map]
    rfl
  rw [Chan.inRing_apply hle, hzip, ← List.map_append, List.take_append_drop, List.map_append]

/-- What holds of the elements of a channel in every run without selects and laps. -/
structure LineValid (K : Config T C) (c : C) (s : Sys T C α) : Prop extends DirectValid K s where
  ring : RingValid K s
  bursts : BurstInv s
  last : LastInv s
  dry : DryInv K c s
  saw : SawInv K c s
  line : ∃ pairs, s.Lined c pairs

omit [DecidableEq C] [DecidableEq T] in
/-- Everybody in the line has moved an element. -/
theorem Sys.Lined.took {pairs : List (Wid × Wid × α)} (h : s.Lined c pairs) (hledger : LedgerInv s) :
    (∀ w ∈ pairs.map Prod.fst ++ (s.mem.chan c).inRing.map Prod.fst, s.mem.Took w) ∧
      ∀ w ∈ pairs.map fun p => p.2.1, s.mem.Took w := by
  constructor
  · intro w hw
    rcases List.mem_append.1 hw with hw | hw
    · obtain ⟨p, hp, rfl⟩ := List.mem_map.1 hw
      exact ⟨c, Or.inl (List.mem_map_of_mem (f := Prod.fst) (h.sent p hp))⟩
    · obtain ⟨y, hy, rfl⟩ := List.mem_map.1 hw
      exact hledger.took_of_inRing hy
  · intro w hw
    obtain ⟨p, hp, rfl⟩ := List.mem_map.1 hw
    refine ⟨c, Or.inr (Or.inr ?_)⟩
    rw [h.recvd, List.map_map]
    exact List.mem_map_of_mem (f := Prod.fst ∘ Prod.snd) hp

omit [DecidableEq T] in
/-- What a step moves through the ring it moves in order. -/
theorem Sys.Acts.moved_before (hacts : s.Acts K t alt c e th) (hok : (s.thread t).Ok K)
    (hspsc : (K.chan c).spsc = false) :
    (((s.mem.chan c).pushes e).map Prod.fst).Pairwise Wid.Before ∧
      ((s.mem.chan c).pops e).Pairwise Wid.Before := by
  cases e with
  | ring weak p =>
    have hwids := Thread.wids_before hok (hacts.ring_of_effect hok)
    have hgrants : (p.grants (s.mem.chan c).ring weak).Pairwise Wid.Before := by
      cases p with
      | cas op h k =>
        rw [RingPc.grants]
        split
        · exact hwids.sublist (List.take_sublist _ _)
        · exact List.Pairwise.nil
      | _ => exact List.Pairwise.nil
    rw [RingPc.grants_eq] at hgrants
    exact ⟨(List.pairwise_append.1 hgrants).1, (List.pairwise_append.1 hgrants).2.1⟩
  | spsc p => cases hspsc.symm.trans (hacts.spsc hok)
  | _ => exact ⟨List.Pairwise.nil, List.Pairwise.nil⟩

omit [DecidableEq T] in
/-- When two calls meet, the sender has nothing in the ring. -/
theorem LineValid.not_by_of_meet (h : LineValid K c s) {a b : Wid} {x : α}
    (hacts : s.Acts K t alt c (.pair a b v x) th) {u : T} (hu : s.By u a) {y : Wid × α}
    (hy : y ∈ (s.mem.chan c).inRing) : ¬ s.By u y.1 := by
  obtain ⟨id, op, pc, pc', hth, -, hflow⟩ := h.direct.flow hacts
  cases hflow with
  | meetSend hop =>
    subst hop
    rw [h.dry ((h.saw t id _ _ hth rfl).1 rfl)] at hy
    cases hy
  | meetRecv hop hdata =>
    have hhand : (s.thread t).hand = some (v, .claimed c op.side.other) := by
      rw [hth]
      rfl
    obtain ⟨u', hwaits⟩ := (h.queues.claimed t v c _ hhand).1
    obtain rfl := h.hist.eq_of_by (Thread.id_of_waits hwaits) hu
    have hside : op.side.other = .send := by
      cases op with
      | send y time => cases hop
      | sendBurst xs => cases (h.direct_ok hth : Op.single _ = true)
      | _ => rfl
    rw [hside] at hwaits
    exact (h.saw t id op _ hth rfl).2 u v hwaits y hy

/-- A step that moves no element from hand to hand appends to the line of the senders; one that does so
inserts its element before those in the ring. -/
theorem LineValid.senders_move (h : LineValid K c s) (hspsc : (K.chan c).spsc = false)
    (hacts : s.Acts K t alt c e th) {pairs : List (Wid × Wid × α)} (hline : s.Lined c pairs) :
    s.InLine (pairs.map Prod.fst ++ (((s.mem.chan c).moves e).map Prod.fst ++
      ((s.mem.chan c).apply (K.chan c).ringCap t e).inRing.map Prod.fst)) := by
  have hle := h.ring.shared.takers_le hspsc
  have hbefore : ∀ v ∈ pairs.map Prod.fst ++ (s.mem.chan c).inRing.map Prod.fst,
      ∀ w ∈ ((s.mem.chan c).sends e).map Prod.fst, ∀ u, s.By u v → s.By u w → v.Before w :=
    fun v hv w hw u => h.before_of_grants h.last hacts (Chan.mem_grants.2 (Or.inl hw))
      ((hline.took h.ledger).1 v hv)
  by_cases hmeets : e.meets = []
  · rw [Chan.line_apply hle hmeets, ← List.append_assoc]
    refine Sys.inLine_append hline.senders (hacts.moved_before (h.ok t) hspsc).1 fun v hv w hw => ?_
    refine hbefore v hv w ?_
    rw [Chan.sends, List.map_append]
    exact List.mem_append_left _ hw
  · cases e with
    | pair a b w x =>
      obtain ⟨hpairs, hring, hcross⟩ := List.pairwise_append.1 hline.senders
      have ha : ∀ v ∈ pairs.map Prod.fst, ∀ u, s.By u v → s.By u a → v.Before a := fun v hv =>
        hbefore v (List.mem_append_left _ hv) a (List.mem_singleton_self _)
      refine List.pairwise_append.2 ⟨hpairs, List.pairwise_cons.2 ⟨?_, hring⟩, fun v hv y hy => ?_⟩
      · intro y hy u hau hyu
        obtain ⟨z, hz, rfl⟩ := List.mem_map.1 hy
        exact absurd hyu (h.not_by_of_meet hacts hau hz)
      · rcases List.mem_cons.1 hy with rfl | hy
        · exact ha v hv
        · exact hcross v hv y hy
    | _ => exact absurd rfl hmeets

/-- A step on the channel keeps the line. -/
theorem LineValid.line_move (h : LineValid K c s) (hspsc : (K.chan c).spsc = false)
    (hacts : s.Acts K t alt c e th) : ∃ pairs, (s.move K t c e th).Lined c pairs := by
  obtain ⟨pairs, hline⟩ := h.line
  have hle := h.ring.shared.takers_le hspsc
  have hmem : (s.move K t c e th).mem.chan c = (s.mem.chan c).apply (K.chan c).ringCap t e :=
    Mem.chan_apply_self _ _ _ _ _
  refine ⟨pairs ++ (s.mem.chan c).moves e, ?_, ?_, ?_, ?_⟩
  · rw [hmem, Chan.recvd_apply, List.map_append, Chan.map_snd_moves hle, hline.recvd]
  · intro p hp
    rw [hmem, Chan.sent_apply]
    rcases List.mem_append.1 hp with hp | hp
    · exact List.mem_append_left _ (hline.sent p hp)
    · rcases Chan.sent_of_moves hp with hold | hnew
      · exact List.mem_append_left _ ((h.ledger.log c).subset (List.mem_of_mem_drop hold))
      · exact List.mem_append_right _ hnew
  · rw [hmem, List.map_append, List.append_assoc]
    exact h.senders_move hspsc hacts hline
  · rw [List.map_append]
    refine Sys.inLine_append (s := s) hline.receivers ?_ fun v hv w hw u hvu hwu => ?_
    · have hall : ((s.mem.chan c).pops e ++ e.meets.map fun p => p.2.1).Pairwise Wid.Before := by
        by_cases hmeets : e.meets = []
        · rw [hmeets, List.map_nil, List.append_nil]
          exact (hacts.moved_before (h.ok t) hspsc).2
        · cases e with
          | pair a b w x => exact List.pairwise_singleton _ _
          | _ => exact absurd rfl hmeets
      exact hall.sublist (Chan.receivers_moves _ _)
    · refine h.before_of_grants h.last hacts (Chan.mem_grants.2 (Or.inr ?_))
        ((hline.took h.ledger).2 v hv) hvu hwu
      exact List.mem_append.1 ((Chan.receivers_moves _ _).subset hw)

theorem LineValid.line_step (h : LineValid K c s) (hspsc : (K.chan c).spsc = false)
    (hstep : s.Stepped K l s') : ∃ pairs, s'.Lined c pairs := by
  obtain ⟨pairs, hline⟩ := h.line
  have hsame : s'.mem.chan c = s.mem.chan c → ∃ pairs, s'.Lined c pairs := by
    intro hmem
    obtain ⟨hsenders, hreceivers⟩ := hline.took h.ledger
    refine ⟨pairs, ?_, ?_, ?_, ?_⟩
    · rw [hmem, hline.recvd]
    · rw [hmem]
      exact hline.sent
    · rw [hmem]
      exact hline.senders.step hstep fun w hw => h.ledger.lt_next_of_took h.hist (hsenders w hw)
    · exact hline.receivers.step hstep fun w hw => h.ledger.lt_next_of_took h.hist (hreceivers w hw)
  cases hstep with
  | call hidle => exact hsame rfl
  | ret hdone hret => exact hsame rfl
  | @move t alt d e th hnext hacts =>
    by_cases hd : c = d
    · subst hd
      exact h.line_move hspsc hacts
    · exact hsame (Mem.chan_apply_of_ne K s.mem t d e hd)

omit [DecidableEq T] in
theorem LineValid.init (slots : C → U32 → α) : LineValid K c (Sys.init slots : Sys T C α) where
  toDirectValid := .init slots
  ring := .init slots
  bursts := Sys.Each.init slots trivial
  last _ _ h := by cases h
  dry _ := rfl
  saw _ _ _ _ h := by cases h
  line := ⟨[], rfl, nofun, List.Pairwise.nil, List.Pairwise.nil⟩

theorem LineValid.step (h : LineValid K c s) (hspsc : (K.chan c).spsc = false) (hl : l.direct = true)
    (htime : s.Timely l) (hstep : s.Stepped K l s') : LineValid K c s' where
  toDirectValid := h.toDirectValid.step hl hstep
  ring := h.ring.step htime hstep
  bursts := h.bursts.step h.toSound hstep
  last := h.last.step h.toSound hstep
  dry := h.dry.step h.toSound h.ring.shared hspsc hstep
  saw := h.saw.step h.toDirectValid h.ring.shared h.dry hspsc htime hstep
  line := h.line_step hspsc hstep

omit [DecidableEq T] [DecidableEq C] in
theorem Sys.Lined.mem_of_recvd {pairs : List (Wid × Wid × α)} (h : s.Lined c pairs) {x : α}
    (hw : (w, x) ∈ (s.mem.chan c).recvd) : ∃ a, (a, w, x) ∈ pairs := by
  rw [h.recvd] at hw
  obtain ⟨⟨a, b⟩, hp, rfl⟩ := List.mem_map.1 hw
  exact ⟨a, hp⟩

omit [DecidableEq T] [DecidableEq C] in
/-- Two pairs stand in the line one way or the other. -/
theorem Sys.Lined.order {pairs : List (Wid × Wid × α)} (h : s.Lined c pairs) {p q : Wid × Wid × α}
    (hp : p ∈ pairs) (hq : q ∈ pairs) {P Q : T} (hpP : s.By P p.1) (hqP : s.By P q.1)
    (hpQ : s.By Q p.2.1) (hqQ : s.By Q q.2.1) (hlt : p.2.1.Before q.2.1) : p.1.Before q.1 := by
  have hsenders : pairs.Pairwise fun p q => ∀ t, s.By t p.1 → s.By t q.1 → p.1.Before q.1 :=
    List.pairwise_map.1 (List.pairwise_append.1 h.senders).1
  have hreceivers : pairs.Pairwise fun p q => ∀ t, s.By t p.2.1 → s.By t q.2.1 → p.2.1.Before q.2.1 :=
    List.pairwise_map.1 h.receivers
  obtain ⟨i, hi, rfl⟩ := List.mem_iff_getElem.1 hp
  obtain ⟨j, hj, rfl⟩ := List.mem_iff_getElem.1 hq
  rcases Nat.lt_trichotomy i j with hij | rfl | hij
  · exact List.pairwise_iff_getElem.1 hsenders i j hi hj hij P hpP hqP
  · exact absurd hlt hlt.asymm
  · exact absurd hlt (List.pairwise_iff_getElem.1 hreceivers j i hj hi hij Q hqQ hpQ).asymm

/-- The order on a channel in runs of `Sys` without selects and without laps of the ring. -/
theorem Sys.exists_delivers {slots : C → U32 → α} (hspsc : (K.chan c).spsc = false)
    (hrun : Reaches (Sys.step K) (fun s l => l.direct = true ∧ s.Timely l) (Sys.init slots) s) :
    ∃ pairs, s.Delivers c pairs := by
  have hv : LineValid K c s := by
    apply hrun.invariant (LineValid.init slots)
    intro s l s' hv hok hstep
    exact hv.step hspsc hok.1 hok.2 (Sys.step_cases hv.locks.wf hstep)
  obtain ⟨pairs, hline⟩ := hv.line
  have hoffered : ∀ p ∈ pairs, s.Offered c p.1 p.2.2 := fun p hp =>
    hv.ledger.sent c _ _ (hline.sent p hp)
  refine ⟨pairs, hoffered, ?_, ?_, ?_, ?_, ?_, ?_⟩
  · intro p hp
    refine hv.ledger.taken c _ (Or.inr ?_)
    rw [hline.recvd, List.map_map]
    exact List.mem_map_of_mem (f := Prod.fst ∘ Prod.snd) hp
  · -- an element would come before itself
    refine (List.pairwise_append.1 hline.senders).1.imp_of_mem fun {v w} hmem _ hvw heq => ?_
    subst heq
    obtain ⟨p, hp, rfl⟩ := List.mem_map.1 hmem
    obtain ⟨t, k, hcall, -⟩ := hoffered p hp
    have hself := hvw t ⟨k, hcall⟩ ⟨k, hcall⟩
    exact hself.asymm hself
  · have hnodup := hv.ledger.recvd_nodup c
    rw [hline.recvd, List.map_map] at hnodup
    exact hnodup
  · intro id time out hans
    have hgot : (⟨id, 0⟩ : Wid) ∈ (Op.recv time : Op α).gotOf id (.err .ok) := List.mem_singleton_self _
    obtain ⟨x, hmem, hdata⟩ := hv.recvd_of_got hv.ring hspsc hans rfl hgot
    obtain ⟨a, ha⟩ := hline.mem_of_recvd hmem
    refine ⟨a, x, ha, (hv.reports.out id _ _ out hans).trans ?_⟩
    exact congrArg (fun y => [y]) hdata
  · intro id n k out hans
    obtain ⟨hn, hgot⟩ := hv.bursts.mem_gotOf_recvBurst hans
    obtain ⟨xs, hlen, hxs, hrecvd⟩ := hv.exists_buffers hv.ring hspsc hans (fun i => (hgot i).2)
      fun i hi => decide_eq_true (hi.trans_le hn)
    exact ⟨xs, hlen, (hv.reports.out id _ _ out hans).trans hxs,
      fun i x hx => hline.mem_of_recvd (hrecvd i x hx)⟩
  · exact fun p hp q hq P Q hpP hqP hpQ hqQ hlt => hline.order hp hq hpP hqP hpQ hqQ hlt

/-- Runs without selects and without laps of the ring in which no call sets up its waiters in a frame that
somebody is still about to signal, on a channel that is not an SPSC one, buffered or not: what one thread
obtains from another it obtains in the order in which the other sent it. -/
theorem producer_order (K : Config T C) (slots : C → U32 → α) (r : StackSys T C α) (c : C)
    (hspsc : (K.chan c).spsc = false)
    (hrun : Reaches (StackSys.step K)
      (fun r l => (l.label.direct = true ∧ r.seen.Timely l.label) ∧ r.ReuseOk l) (StackSys.init slots) r) :
    ∃ pairs, r.seen.Delivers c pairs := by
  obtain ⟨hsys, -⟩ := StackSys.reaches_sys (fun s l => l.direct = true ∧ s.Timely l) (.init slots)
    (fun _ _ _ h => StackSys.timely_direct h) hrun
  obtain ⟨pairs, h⟩ := Sys.exists_delivers hspsc hsys
  exact ⟨pairs, h.offered, h.accepting, h.sent_once, h.recvd_once, h.recv, h.recvBurst, h.order⟩

end Line

/-- Two sends and two receives in turns, each pair in one frame. -/
theorem producer_order_two : ∃ r : StackSys (Fin 3) Unit Nat,
    Reaches (StackSys.step bufferedOne)
      (fun r l => (l.label.direct = true ∧ r.seen.Timely l.label) ∧ r.ReuseOk l)
      (StackSys.init fun _ _ => 0) r ∧
    (r.home 2 = r.home 0 ∧ r.home 3 = r.home 1) ∧
    r.seen.Answered 1 (.direct () (.recv 0)) (.err .ok) [some 7] ∧
    r.seen.Answered 3 (.direct () (.recv 0)) (.err .ok) [some 8] ∧
    ∃ pairs a b, r.seen.Delivers () pairs ∧ (a, ⟨1, 0⟩, 7) ∈ pairs ∧ (b, ⟨3, 0⟩, 8) ∈ pairs := by
  obtain ⟨r, hr, hhome, hevents⟩ := StackSys.exists_reaches bufferedOne (fun _ _ => (0 : Nat))
    (fun r l => (l.label.direct = true ∧ r.seen.Timely l.label) ∧ r.ReuseOk l)
    (List.flatten [
      [.call 0 (.direct () (.send 7 0)) 0], List.replicate 11 (.go 0 false),
      [.call 2 (.direct () (.recv 0)) 2], List.replicate 10 (.go 2 false),
      [.call 0 (.direct () (.send 8 0)) 0], List.replicate 11 (.go 0 false),
      [.call 2 (.direct () (.recv 0)) 2], List.replicate 10 (.go 2 false)])
    (fun r => (r.home 2 = r.home 0 ∧ r.home 3 = r.home 1) ∧
      [.call 1 2 (.direct () (.recv 0)), .ret 1 2 (.err .ok) [some 7],
        .call 3 2 (.direct () (.recv 0)), .ret 3 2 (.err .ok) [some 8]] ⊆ r.seen.events)
    (by decide +kernel)
  have hfirst : r.seen.Answered 1 (.direct () (.recv 0)) (.err .ok) [some 7] :=
    ⟨2, hevents (by simp), hevents (by simp)⟩
  have hsecond : r.seen.Answered 3 (.direct () (.recv 0)) (.err .ok) [some 8] :=
    ⟨2, hevents (by simp), hevents (by simp)⟩
  obtain ⟨pairs, hpairs⟩ := producer_order bufferedOne _ r () rfl hr
  obtain ⟨a, x, ha, hx⟩ := hpairs.recv 1 0 _ hfirst
  obtain ⟨b, y, hb, hy⟩ := hpairs.recv 3 0 _ hsecond
  cases hx
  cases hy
  exact ⟨r, hr, hhome, hfirst, hsecond, pairs, a, b, hpairs, ha, hb⟩

/-- A send is stopped before its CAS until the producer cursor has gone once around its `2 ^ 32` values:
the one element of its thread is obtained twice by another. -/
theorem producer_order_broken : ∃ s : Sys Bool Unit Nat,
    Reaches (Sys.step bufferedLargest) (fun _ l => l.direct = true) (Sys.init fun _ _ => 0) s ∧
    (∀ t, s.thread t = .idle) ∧ ¬ ∃ pairs, s.Delivers () pairs := by
  obtain ⟨s, o₁, o₂, o₃, o₅, hs, hidle, hevents⟩ := exists_lap rfl
  generalize 2 ^ 31 = n at hevents
  refine ⟨s, hs, hidle, fun ⟨pairs, hpairs⟩ => ?_⟩
  obtain ⟨a, x, ha, hx⟩ := hpairs.recv 4 0 [some 7]
    ⟨true, by rw [hevents]; simp [lapEvents], by rw [hevents]; simp [lapEvents]⟩
  obtain ⟨b, y, hb, hy⟩ := hpairs.recv 6 0 [some 7]
    ⟨true, by rw [hevents]; simp [lapEvents], by rw [hevents]; simp [lapEvents]⟩
  cases hx
  cases hy
  obtain rfl := offered_of_lapEvents hevents (hpairs.offered _ ha)
  obtain rfl := offered_of_lapEvents hevents (hpairs.offered _ hb)
  have hP : s.By false ⟨0, 0⟩ := ⟨.direct () (.send 7 0), by rw [hevents]; simp [lapEvents]⟩
  have hQ : s.By true ⟨4, 0⟩ := ⟨.direct () (.recv 0), by rw [hevents]; simp [lapEvents]⟩
  have hQ' : s.By true ⟨6, 0⟩ := ⟨.direct () (.recv 0), by rw [hevents]; simp [lapEvents]⟩
  have hself := hpairs.order _ ha _ hb false true hP hP hQ hQ' (Or.inl (by decide))
  exact hself.asymm hself

end LibChan
