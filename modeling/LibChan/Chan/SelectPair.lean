import LibChan.Chan.Looks

/-!
# Select between one producer and one consumer

A buffered channel has one producer and one consumer, which use it in selects only. The history tells
which elements the producer's send cases have reported as accepted (`Sys.sendOks`) and what the buffers
of the consumer's receive cases held (`Sys.recvOks`). As long as the locked send cases move what they
report, elements are received in the order of their acceptance (`Sys.InTurn`), the returns report exactly
what was moved (`Sys.Tallied`), and so the second list is a prefix of the first (`select_pair_exact`).

The condition is needed. A consumer parked in a select is not counted, so the producer's lock-free path
fills the ring past it; the next send case then finds the ring full and a receiver queued, drops its
element and reports `CHAN_OK` to both sides (`select_pair_loses_element`).
-/

set_option autoImplicit false

namespace LibChan

variable {T C α : Type}

/-! ## What has been returned -/

/-- Case `i` of a call. -/
def Call.case? (i : Nat) : Call C α → Option (Case C α)
  | .select cases _ => cases[i]?
  | .direct _ _ => none

/-- Case `i` of the call with number `id`, if this is the event of its start. -/
def Event.case? (id i : Nat) : Event T C α → Option (Case C α)
  | .call id' _ k => if id' = id then k.case? i else none
  | _ => none

/-- Case `i` of the call with number `id`. -/
def Sys.case? (s : Sys T C α) (id i : Nat) : Option (Case C α) := s.events.findSome? (Event.case? id i)

/-- What the return of a case with `CHAN_OK` contributes: `f` is given the case and the output buffers. -/
def Event.oks {β : Type} (f : Case C α → List (Option α) → List β) (s : Sys T C α) :
    Event T C α → List β
  | .ret id _ (.sel (some i) .ok) out => ((s.case? id i).map fun k => f k out).getD []
  | _ => []

/-- The contributions of the returns so far, in their order. -/
def Sys.oks {β : Type} (f : Case C α → List (Option α) → List β) (s : Sys T C α) : List β :=
  s.events.flatMap (Event.oks f s)

/-- The elements of the send cases on `c` that selects have returned with `CHAN_OK`. -/
def Sys.sendOks [DecidableEq C] (c : C) (s : Sys T C α) : List α :=
  s.oks fun k _ => if k.chan = c then k.elem.toList else []

/-- What is in the buffers of the receive cases on `c` that selects have returned with `CHAN_OK`; `none`
is a buffer that was not written. -/
def Sys.recvOks [DecidableEq C] (c : C) (s : Sys T C α) : List (Option α) :=
  s.oks fun k out => if k.chan = c ∧ k.elem = none then out else []

section Oks

variable [DecidableEq T] [DecidableEq C] {K : Config T C} {s s' : Sys T C α} {t : T} {id : Nat} {β : Type}
  {f : Case C α → List (Option α) → List β}

omit [DecidableEq T] [DecidableEq C] in
theorem Sys.case_of_call (hist : HistInv s) {call : Call C α} (hcall : .call id t call ∈ s.events)
    (i : Nat) : s.case? id i = call.case? i := by
  have hself : Event.case? id i (Event.call id t call) = call.case? i := if_pos rfl
  cases hcase : s.case? id i with
  | none => exact (List.findSome?_eq_none_iff.1 hcase _ hcall).symm.trans hself
  | some k =>
    obtain ⟨ev, hev, hk⟩ := List.exists_of_findSome?_eq_some hcase
    cases ev with
    | ret id' t' r out => cases hk
    | call id' t' call' =>
      obtain ⟨rfl, hcases⟩ := Option.ite_none_right_eq_some.1 hk
      obtain ⟨-, rfl⟩ := hist.call_inj _ _ _ _ _ hcall hev
      exact hcases.symm

omit [DecidableEq T] [DecidableEq C] in
/-- The contributions of the old returns stay when an event is added that is not the call of one of them. -/
theorem Sys.oks_append (hist : HistInv s) {ev : Event T C α} (hevents : s'.events = s.events ++ [ev])
    (hnew : ∀ id i, id < s.next → Event.case? id i ev = none) :
    s'.oks f = s.oks f ++ Event.oks f s' ev := by
  have hcase : ∀ id i, id < s.next → s'.case? id i = s.case? id i := by
    intro id i hlt
    rw [Sys.case?, hevents, List.findSome?_append, List.findSome?_cons, hnew id i hlt]
    exact Option.or_none
  rw [Sys.oks, hevents, List.flatMap_append, List.flatMap_singleton]
  refine congrArg (· ++ _) (List.flatMap_congr fun ev hev => ?_)
  cases ev with
  | call id' t' call => rfl
  | ret id' t' r out =>
    have hlt := hist.ret_lt id' t' r out hev
    cases r with
    | sel winner e =>
      cases winner with
      | none => rfl
      | some i =>
        cases e with
        | ok => simp only [Event.oks, hcase id' i hlt]
        | _ => rfl
    | _ => rfl

omit [DecidableEq T] [DecidableEq C] in
theorem Event.oks_eq_nil {r : Ret} {out : List (Option α)}
    (h : ∀ i, r = .sel (some i) .ok → ∀ k, s.case? id i = some k → f k out = []) :
    Event.oks f s (.ret id t r out) = [] := by
  cases r with
  | sel winner e =>
    cases winner with
    | none => rfl
    | some i =>
      cases e with
      | ok =>
        rw [Event.oks]
        cases hk : s.case? id i with
        | none => rfl
        | some k => exact h i rfl k hk
      | _ => rfl
  | _ => rfl

theorem Sys.oks_startCall (hist : HistInv s) (call : Call C α) :
    (s.startCall K t call).oks f = s.oks f := by
  have hnew : ∀ id i, id < s.next → Event.case? id i (Event.call s.next t call) = none :=
    fun id i hlt => if_neg hlt.ne'
  exact (Sys.oks_append hist rfl hnew).trans (List.append_nil _)

omit [DecidableEq C] in
theorem Sys.oks_finishCall (hist : HistInv s) {r : Ret} {out : List (Option α)} :
    (s.finishCall t id r out).oks f = s.oks f ++ Event.oks f s (.ret id t r out) := by
  have hcase : (s.finishCall t id r out).case? = s.case? := by
    funext id' i
    rw [Sys.case?, Sys.finishCall, List.findSome?_append]
    exact Option.or_none
  rw [Sys.oks_append hist rfl fun id i hlt => rfl]
  congr 1
  cases r with
  | sel winner e =>
    cases winner with
    | none => rfl
    | some i =>
      cases e with
      | ok => simp only [Event.oks, hcase]
      | _ => rfl
  | _ => rfl

end Oks

/-! ## Accepted and received elements in turn -/

/-- The elements accepted by the channel are those received, in the same order, and those in the ring. -/
def Sys.InTurn (c : C) (s : Sys T C α) : Prop :=
  (s.mem.chan c).sent.map Prod.snd =
    (s.mem.chan c).recvd.map Prod.snd ++ (s.mem.chan c).inRing.map Prod.snd

/-- The entries of `book` that belong to the call with number `id`. -/
def ofCall (id : Nat) (book : List (Wid × α)) : List (Wid × α) :=
  book.filter fun y => decide (y.1.call = id)

/-- `oks` are the elements in `book` up to those of the call that thread `t` is in. -/
def Sys.Tallied (s : Sys T C α) (t : T) (book : List (Wid × α)) (oks : List α) : Prop :=
  ∃ done cur, book = done ++ cur ∧ oks = done.map Prod.snd ∧ (∀ y ∈ done, s.Returned y.1.call) ∧
    ∀ y ∈ cur, (s.thread t).id? = some y.1.call

section Tally

variable [DecidableEq T] [DecidableEq C] {K : Config T C} {s s' : Sys T C α} {l : Label T C α}
  {t u : T} {c d : C} {e : Effect α} {th : Thread C α} {id i : Nat} {book new : List (Wid × α)}
  {oks : List α} {x : α}

omit [DecidableEq T] [DecidableEq C] in
theorem Sys.Tallied.oks_le (h : s.Tallied t book oks) : oks <+: book.map Prod.snd := by
  obtain ⟨done, cur, rfl, rfl, -⟩ := h
  rw [List.map_append]
  exact List.prefix_append _ _

theorem Sys.Tallied.startCall (h : s.Tallied t book oks) (hidle : s.thread u = .idle)
    (call : Call C α) : (s.startCall K u call).Tallied t book oks := by
  obtain ⟨done, cur, hbook, hoks, hdone, hcur⟩ := h
  refine ⟨done, cur, hbook, hoks, fun y hy => Sys.returned_startCall.2 (hdone y hy), fun y hy => ?_⟩
  have hne : t ≠ u := by
    rintro rfl
    have hid := hcur y hy
    rw [hidle] at hid
    cases hid
  rw [Sys.thread_startCall_of_ne hne]
  exact hcur y hy

theorem Sys.Tallied.move (h : s.Tallied t book oks) (hid : th.id? = (s.thread u).id?)
    (hnew : ∀ y ∈ new, (s.thread t).id? = some y.1.call) :
    (s.move K u d e th).Tallied t (book ++ new) oks := by
  obtain ⟨done, cur, rfl, hoks, hdone, hcur⟩ := h
  have hthread : ((s.move K u d e th).thread t).id? = (s.thread t).id? := by
    by_cases ht : t = u
    · subst ht
      rw [Sys.thread_move_self, hid]
    · rw [Sys.thread_move_of_ne ht]
  refine ⟨done, cur ++ new, List.append_assoc .., hoks, hdone, fun y hy => ?_⟩
  rw [hthread]
  exact (List.mem_append.1 hy).elim (hcur y) (hnew y)

omit [DecidableEq T] [DecidableEq C] in
theorem ofCall_eq_nil (h : ∀ y ∈ book, y.1.call ≠ id) : ofCall id book = [] := by
  rw [ofCall, List.filter_eq_nil_iff]
  intro y hy heq
  exact h y hy (of_decide_eq_true heq)

omit [DecidableEq C] in
/-- A return reports the entries of its call. -/
theorem Sys.Tallied.finishCall (h : s.Tallied t book oks) (hcalls : CallInv s) {r : Ret}
    {out : List (Option α)} (hid : (s.thread u).id? = some id)
    (hbook : ∀ y ∈ book, y.1.call = id → u = t) :
    (s.finishCall u id r out).Tallied t book (oks ++ (ofCall id book).map Prod.snd) := by
  obtain ⟨done, cur, rfl, rfl, hdone, hcur⟩ := h
  have hne : ∀ y ∈ done, y.1.call ≠ id := by
    rintro y hy rfl
    exact hcalls.ret_ne u y.1.call (hdone y hy) hid
  have hnil := ofCall_eq_nil hne
  have hdone' : ∀ y ∈ done, (s.finishCall u id r out).Returned y.1.call := fun y hy =>
    Sys.returned_finishCall.2 (Or.inl (hdone y hy))
  by_cases hu : u = t
  · -- the thread reports everything it has moved
    subst hu
    have hall : ofCall id cur = cur := by
      rw [ofCall, List.filter_eq_self]
      intro y hy
      exact decide_eq_true (Option.some.inj ((hcur y hy).symm.trans hid))
    refine ⟨done ++ cur, [], (List.append_nil _).symm, ?_, fun y hy => ?_, nofun⟩
    · rw [ofCall, List.filter_append, ← ofCall, ← ofCall, hnil, hall, List.nil_append, List.map_append]
    · rcases List.mem_append.1 hy with hy | hy
      · exact hdone' y hy
      · exact Sys.returned_finishCall.2 (Or.inr (Option.some.inj ((hcur y hy).symm.trans hid)))
  · rw [ofCall_eq_nil fun y hy hid => hu (hbook y hy hid), List.map_nil, List.append_nil]
    refine ⟨done, cur, rfl, rfl, hdone', fun y hy => ?_⟩
    rw [Sys.thread_finishCall_of_ne (Ne.symm hu)]
    exact hcur y hy

omit [DecidableEq T] [DecidableEq C] in
theorem map_snd_ofCall_of_mem (hnodup : (book.map Prod.fst).Nodup) (hmem : (⟨id, i⟩, x) ∈ book)
    (hone : ∀ y ∈ book, y.1.call = id → y.1.idx = i) : (ofCall id book).map Prod.snd = [x] := by
  have hfilter : ofCall id book = book.filter fun y => decide (y.1 = ⟨id, i⟩) := by
    refine List.filter_congr fun y hy => decide_eq_decide.2 ⟨fun hcall => ?_, fun h => by rw [h]⟩
    exact Wid.ext hcall (hone y hy hcall)
  rw [hfilter]
  exact entriesOf_of_mem hnodup hmem

/-- Ring accesses keep the elements in turn, and so does a hand-over past an empty ring. -/
theorem Sys.InTurn.move (h : s.InTurn c) (hle : (s.mem.chan c).hist.takers.length ≤
      (s.mem.chan c).hist.log.length) (hmeet : d = c → e.meets ≠ [] → (s.mem.chan c).inRing = []) :
    (s.move K t d e th).InTurn c := by
  by_cases hd : c = d
  · subst hd
    have hchan : (s.move K t c e th).mem.chan c = (s.mem.chan c).apply (K.chan c).ringCap t e :=
      Mem.chan_apply_self K s.mem t c e
    rw [Sys.InTurn, hchan, Chan.sent_apply, Chan.recvd_apply, Chan.inRing_apply hle,
      ← Chan.map_snd_moves hle]
    have h : (s.mem.chan c).sent.map Prod.snd = _ := h
    by_cases hmeets : e.meets = []
    · have hzip : (((s.mem.chan c).moves e).map Prod.snd).map Prod.snd =
          (((s.mem.chan c).inRing ++ (s.mem.chan c).pushes e).take ((s.mem.chan c).pops e).length).map
            Prod.snd := by
        rw [Chan.moves, hmeets, List.append_nil, ← map_snd_zip_eq_take]
        simp only [List.map_map]
        rfl
      have hsplit : ∀ n, (((s.mem.chan c).inRing ++ (s.mem.chan c).pushes e).take n).map Prod.snd ++
          (((s.mem.chan c).inRing ++ (s.mem.chan c).pushes e).drop n).map Prod.snd =
            (s.mem.chan c).inRing.map Prod.snd ++ ((s.mem.chan c).pushes e).map Prod.snd := by
        intro n
        rw [← List.map_append, List.take_append_drop, List.map_append]
      rw [List.map_append, h, Chan.sends, hmeets, List.map_nil, List.append_nil, List.map_append, hzip,
        List.append_assoc, List.append_assoc, hsplit]
    · have hempty := hmeet rfl hmeets
      cases e with
      | pair a b w x =>
        rw [List.map_append, h, hempty, List.map_append]
        simp [Chan.sends, Chan.pushes, Chan.pops, Chan.moves, Effect.meets]
      | _ => exact absurd rfl hmeets
  · rw [Sys.InTurn, show (s.move K t d e th).mem.chan c = s.mem.chan c from
      Mem.chan_apply_of_ne K s.mem t d e hd]
    exact h

end Tally

/-! ## Runs -/

/-- The next step of `execute_case_locked` for a send case on `c` moves what it reports: its push does
not find the ring full, and no receiver is queued that it would wake after it. -/
def Thread.pushOk [DecidableEq C] (K : Config T C) (c : C) (m : Mem T C α) : Thread C α → Bool
  | .select _ cases _ (.exec i st) =>
    (cases[i]?).all fun k => decide (k.chan ≠ c ∨ k.op = .recv) || st.moves K m k
  | _ => true

section Valid

variable [DecidableEq T] [DecidableEq C] {K : Config T C} {s s' : Sys T C α} {l : Label T C α}
  {p q t u : T} {alt : Bool} {c d : C} {e : Effect α} {th : Thread C α} {w : Wid} {id i : Nat}
  {cases : List (Case C α)} {timeout : Int} {k : Case C α} {x : α}

/-- What holds in the runs of a producer and a consumer that select, if the locked sends move what they
report. -/
structure DuoValid (K : Config T C) (c : C) (p q : T) (s : Sys T C α) : Prop extends Valid K s where
  duo : DuoInv c p q s
  ring : s.RingSound K c
  mark : MarkInv c s
  carried : s.Carried c
  must : MustOn c s
  tells : TellInv s
  look : LookInv K c p s
  turn : s.InTurn c
  sends : s.Tallied p (s.mem.chan c).sent (s.sendOks c)
  recvs : ∃ vs, s.recvOks c = vs.map some ∧ s.Tallied q (s.mem.chan c).recvd vs

omit [DecidableEq T] [DecidableEq C] in
theorem DuoInv.of_offered (h : DuoInv c p q s) (hoff : s.Offered c w x) : s.By p w := by
  obtain ⟨t, call, hcall, hoff⟩ := hoff
  have hduo := h _ t call hcall
  cases call with
  | direct d op => exact absurd hoff.1 hduo
  | select cases timeout =>
    obtain ⟨k, hk, hc, hx⟩ := hoff
    obtain ⟨-, ⟨-, rfl⟩ | ⟨hop, -⟩⟩ := hduo k (List.mem_of_getElem? hk) hc
    · exact ⟨_, hcall⟩
    · rw [Case.op, hx] at hop
      cases hop

omit [DecidableEq T] [DecidableEq C] in
theorem DuoInv.of_accepting (h : DuoInv c p q s) (hacc : s.Accepting c w) : s.By q w := by
  obtain ⟨t, call, hcall, hacc⟩ := hacc
  have hduo := h _ t call hcall
  cases call with
  | direct d op => exact absurd hacc.1 hduo
  | select cases timeout =>
    obtain ⟨k, hk, hc, hx⟩ := hacc
    obtain ⟨-, ⟨hop, -⟩ | ⟨-, rfl⟩⟩ := hduo k (List.mem_of_getElem? hk) hc
    · rw [Case.op, hx] at hop
      cases hop
    · exact ⟨_, hcall⟩

omit [DecidableEq T] in
/-- A select that returns has moved an element for the case it returns with `CHAN_OK` and for no other. -/
theorem DuoValid.took_iff (hv : DuoValid K c p q s) {r : Ret}
    (hth : s.thread t = .select id cases timeout (.ret r)) (hk : cases[i]? = some k) (hc : k.chan = c) :
    s.mem.Took ⟨id, i⟩ ↔ r = .sel (some i) .ok := by
  constructor
  · intro htook
    have hgot := hv.tells t id cases timeout _ hth (hv.duo.case hv.toSound hth hk hc).1 i htook
    cases r with
    | sel winner e =>
      cases winner with
      | none => cases hgot
      | some j =>
        cases e with
        | ok => cases List.mem_singleton.1 hgot; rfl
        | _ => cases hgot
    | _ => cases hgot
  · rintro rfl
    exact hv.must.own t id cases timeout _ hth i k hk hc (List.mem_singleton_self _)

omit [DecidableEq T] in
/-- An accepted element of a call that returns belongs to the case it returns with `CHAN_OK`. -/
theorem DuoValid.case_of_sent (hv : DuoValid K c p q s) {r : Ret} {out : List (Option α)}
    (hret : s.Returns t id r out) {y : Wid × α} (hy : y ∈ (s.mem.chan c).sent) (hid : y.1.call = id) :
    ∃ cases timeout k, .call id t (.select cases timeout) ∈ s.events ∧ cases[y.1.idx]? = some k ∧
      k.chan = c ∧ k.elem = some y.2 ∧ r = .sel (some y.1.idx) .ok := by
  obtain ⟨u, call, hcall, hoff⟩ := hv.ledger.sent c y.1 y.2 hy
  have htook : s.mem.Took y.1 := ⟨c, Or.inl (List.mem_map_of_mem hy)⟩
  rw [hid] at hcall
  cases hret with
  | @direct d op _ hth =>
    cases (hv.hist.call_inj _ _ _ _ _ hcall (hv.hist.running t id (.direct d op) (by rw [hth]; rfl))).2
    obtain ⟨rfl, -⟩ := hoff
    exact absurd hth (hv.duo.not_direct hv.toSound)
  | @select cases timeout _ hth =>
    have hrun := hv.hist.running t id (.select cases timeout) (by rw [hth]; rfl)
    cases (hv.hist.call_inj _ _ _ _ _ hcall hrun).2
    obtain ⟨k, hk, hc, hx⟩ := hoff
    refine ⟨cases, timeout, k, hrun, hk, hc, hx, (hv.took_iff hth hk hc).1 ?_⟩
    rwa [← hid]

omit [DecidableEq T] in
/-- A received element of a call that returns belongs to the case it returns with `CHAN_OK`, and is in
its buffer. -/
theorem DuoValid.case_of_recvd (hv : DuoValid K c p q s) {r : Ret} {out : List (Option α)}
    (hret : s.Returns t id r out) {y : Wid × α} (hy : y ∈ (s.mem.chan c).recvd) (hid : y.1.call = id) :
    ∃ cases timeout k, .call id t (.select cases timeout) ∈ s.events ∧ cases[y.1.idx]? = some k ∧
      k.chan = c ∧ k.elem = none ∧ r = .sel (some y.1.idx) .ok ∧ out = [some y.2] := by
  obtain ⟨u, call, hcall, hacc⟩ := hv.ledger.taken c y.1 (Or.inr (List.mem_map_of_mem hy))
  have htook : s.mem.Took y.1 := ⟨c, Or.inr (Or.inr (List.mem_map_of_mem hy))⟩
  rw [hid] at hcall
  cases hret with
  | @direct d op _ hth =>
    cases (hv.hist.call_inj _ _ _ _ _ hcall (hv.hist.running t id (.direct d op) (by rw [hth]; rfl))).2
    obtain ⟨rfl, -⟩ := hacc
    exact absurd hth (hv.duo.not_direct hv.toSound)
  | @select cases timeout _ hth =>
    have hrun := hv.hist.running t id (.select cases timeout) (by rw [hth]; rfl)
    cases (hv.hist.call_inj _ _ _ _ _ hcall hrun).2
    obtain ⟨⟨d, elem⟩, hk, hc, hx⟩ := hacc
    obtain rfl : elem = none := hx
    have hr := (hv.took_iff hth hk hc).1 (by rwa [← hid])
    subst hr
    refine ⟨cases, timeout, _, hrun, hk, hc, rfl, rfl, ?_⟩
    have hdata : (s.mem.waiter y.1).data = some y.2 := by
      refine hv.carried.data_of_recvd hv.toSound hy (fun v hv' => ?_) fun v hhand => ?_
      · obtain rfl : v = t := hv.calls.id_inj v t _ hv' (by rw [hth, hid]; rfl)
        rw [hth]
        rfl
      · exact absurd hid (hv.not_claimed hth rfl hhand)
    have hy1 : y.1 = ⟨id, y.1.idx⟩ := Wid.ext hid rfl
    rw [Sys.selectOut, hk]
    show [(s.mem.waiter ⟨id, y.1.idx⟩).data] = _
    rw [← hy1, hdata]

omit [DecidableEq T] in
/-- The case of a thread that returns. -/
theorem DuoValid.case_of_ret (hv : DuoValid K c p q s) {r : Ret} {out : List (Option α)}
    (hret : s.Returns t id r out) (hk : s.case? id i = some k) :
    ∃ cases timeout, s.thread t = .select id cases timeout (.ret r) ∧ cases[i]? = some k := by
  cases hret with
  | @direct d op _ hth =>
    rw [Sys.case_of_call hv.hist (hv.hist.running t id (.direct d op) (by rw [hth]; rfl))] at hk
    cases hk
  | @select cases timeout _ hth =>
    rw [Sys.case_of_call hv.hist (hv.hist.running t id (.select cases timeout) (by rw [hth]; rfl))] at hk
    exact ⟨cases, timeout, hth, hk⟩

omit [DecidableEq T] in
/-- The contribution of a return to the accepted elements. -/
theorem DuoValid.sendOks_ret (hv : DuoValid K c p q s) {r : Ret} {out : List (Option α)}
    (hret : s.Returns t id r out) : (ofCall id (s.mem.chan c).sent).map Prod.snd =
      Event.oks (fun k _ => if k.chan = c then k.elem.toList else []) s (.ret id t r out) := by
  by_cases hsome : ∃ y ∈ (s.mem.chan c).sent, y.1.call = id
  · obtain ⟨y, hy, hid⟩ := hsome
    obtain ⟨cases, timeout, k, hcall, hk, hc, hx, rfl⟩ := hv.case_of_sent hret hy hid
    have hmem : (⟨id, y.1.idx⟩, y.2) ∈ (s.mem.chan c).sent := by
      rw [← hid]
      exact hy
    rw [map_snd_ofCall_of_mem (hv.ledger.sent_nodup c) hmem]
    · rw [Event.oks, Sys.case_of_call hv.hist hcall, Call.case?, hk]
      simp [hc, hx]
    · intro z hz hzid
      obtain ⟨_, _, _, -, -, -, -, heq⟩ := hv.case_of_sent hret hz hzid
      exact (Option.some.inj (Ret.sel.inj heq).1).symm
  · rw [ofCall_eq_nil fun y hy hid => hsome ⟨y, hy, hid⟩]
    refine (Event.oks_eq_nil fun i hr k hk => ?_).symm
    obtain ⟨cases, timeout, hth, hk⟩ := hv.case_of_ret hret hk
    subst hr
    split
    · next hc =>
      cases hx : k.elem with
      | none => rfl
      | some x =>
        -- a send case returned with `CHAN_OK` has its element accepted
        have hoff : s.Offered c ⟨id, i⟩ x :=
          ⟨t, _, hv.hist.running t id (.select cases timeout) (by rw [hth]; rfl), k, hk, hc, hx⟩
        have hsent := hv.sent_of_took hoff ((hv.took_iff hth hk hc).2 rfl)
        exact absurd ⟨_, hsent, rfl⟩ hsome
    · rfl

omit [DecidableEq T] in
/-- The contribution of a return to the received elements. -/
theorem DuoValid.recvOks_ret (hv : DuoValid K c p q s) {r : Ret} {out : List (Option α)}
    (hret : s.Returns t id r out) : ((ofCall id (s.mem.chan c).recvd).map Prod.snd).map some =
      Event.oks (fun k out => if k.chan = c ∧ k.elem = none then out else []) s (.ret id t r out) := by
  by_cases hsome : ∃ y ∈ (s.mem.chan c).recvd, y.1.call = id
  · obtain ⟨y, hy, hid⟩ := hsome
    obtain ⟨cases, timeout, k, hcall, hk, hc, hx, rfl, rfl⟩ := hv.case_of_recvd hret hy hid
    have hmem : (⟨id, y.1.idx⟩, y.2) ∈ (s.mem.chan c).recvd := by
      rw [← hid]
      exact hy
    rw [map_snd_ofCall_of_mem (hv.ledger.recvd_nodup c) hmem]
    · rw [Event.oks, Sys.case_of_call hv.hist hcall, Call.case?, hk]
      simp [hc, hx]
    · intro z hz hzid
      obtain ⟨_, _, _, -, -, -, -, heq, -⟩ := hv.case_of_recvd hret hz hzid
      exact (Option.some.inj (Ret.sel.inj heq).1).symm
  · rw [ofCall_eq_nil fun y hy hid => hsome ⟨y, hy, hid⟩]
    refine (Event.oks_eq_nil fun i hr k hk => ?_).symm
    obtain ⟨cases, timeout, hth, hk⟩ := hv.case_of_ret hret hk
    subst hr
    split
    · next hc =>
      -- a receive case returned with `CHAN_OK` has received an element
      have hacc : s.Accepting c ⟨id, i⟩ :=
        ⟨t, _, hv.hist.running t id (.select cases timeout) (by rw [hth]; rfl), k, hk, hc⟩
      obtain ⟨v, hrecvd⟩ := hv.carried.recvd_of_took hv.toValid hv.ring hacc
        ((hv.took_iff hth hk hc.1).2 rfl)
      exact absurd ⟨_, hrecvd, rfl⟩ hsome
    · rfl

omit [DecidableEq T] in
/-- Elements meet receivers past an empty ring only. -/
theorem DuoValid.inRing_of_meet (hv : DuoValid K c p q s) (hacts : s.Acts K t alt c e th)
    (hmeets : e.meets ≠ []) : (s.mem.chan c).inRing = [] := by
  cases hacts with
  | direct hth hact => exact absurd hth (hv.duo.not_direct hv.toSound)
  | @select id cases timeout pc pc' _ _ e hth hact =>
    cases SelPc.flow_of_act hact with
    | pick hk hmem he => rcases he with rfl | ⟨v, rfl⟩ <;> exact absurd rfl hmeets
    | execDone hk hexec => cases hexec <;> exact absurd rfl hmeets
    | @execGo i k st st' e hk hexec =>
      have hlook := hv.look t id cases timeout i st k hth hk rfl
      have hempty : (s.mem.chan k.chan).hist.reserved .recv = (s.mem.chan k.chan).hist.reserved .send →
          (s.mem.chan k.chan).inRing = [] := fun heq => List.drop_of_length_le (Nat.le_of_eq heq.symm)
      cases hexec with
      | @copySend w' x hx =>
        refine hempty (hlook (Or.inl ?_))
        rw [Case.op, hx]
      | @copyRecv w' x hx hdata =>
        -- the sender in hand is the producer, which waits
        have hhand : (s.thread t).hand = some (w', .claimed k.chan .send) := by
          rw [hth, Thread.hand, SelPc.hand, hk]
          show some (w', Stage.claimed k.chan k.op.other) = _
          rw [Case.op, hx]
          rfl
        have how := (hv.queues.claimed t w' _ _ hhand).1
        exact hempty (hlook (Or.inr ⟨w', hv.duo.waits_of_owned hv.toSound how⟩))
      | _ => exact absurd rfl hmeets
    | _ => exact absurd rfl hmeets

theorem DuoValid.sends_move (hv : DuoValid K c p q s) (hnext : (s.thread t).Next K s.mem d th e)
    (hacts : s.Acts K t alt d e th) :
    (s.move K t d e th).Tallied p ((s.move K t d e th).mem.chan c).sent (s.sendOks c) := by
  by_cases hd : c = d
  · subst hd
    rw [show (s.move K t c e th).mem.chan c = (s.mem.chan c).apply (K.chan c).ringCap t e from
      Mem.chan_apply_self K s.mem t c e, Chan.sent_apply]
    refine hv.sends.move hnext.id fun y hy => ?_
    -- the sender is the producer, in its running call
    obtain ⟨u, hu⟩ := hv.running_of_grants hacts (Chan.mem_grants.2 (Or.inl (List.mem_map_of_mem hy)))
    have hoff := hv.ledger.offered_of_data hv.toSound hacts (Chan.sends_subset _ _ hy)
    rwa [hv.hist.eq_of_by hu (hv.duo.of_offered hoff)]
  · rw [show (s.move K t d e th).mem.chan c = s.mem.chan c from
      Mem.chan_apply_of_ne K s.mem t d e hd, ← List.append_nil (s.mem.chan c).sent]
    exact hv.sends.move hnext.id nofun

theorem DuoValid.recvs_move (hv : DuoValid K c p q s) (hnext : (s.thread t).Next K s.mem d th e)
    (hacts : s.Acts K t alt d e th) {vs : List α} (htally : s.Tallied q (s.mem.chan c).recvd vs) :
    (s.move K t d e th).Tallied q ((s.move K t d e th).mem.chan c).recvd vs := by
  by_cases hd : c = d
  · subst hd
    have hv' := hv.toValid.step (.move hnext hacts)
    have hchan : (s.move K t c e th).mem.chan c = (s.mem.chan c).apply (K.chan c).ringCap t e :=
      Mem.chan_apply_self K s.mem t c e
    rw [hchan, Chan.recvd_apply]
    refine htally.move hnext.id fun y hy => ?_
    -- the receiver is the consumer, in its running call
    have hgrants : y.1 ∈ (s.mem.chan c).grants e :=
      Chan.mem_grants.2 (Or.inr (List.mem_append.1
        ((Chan.recvs_sublist _ _).subset (List.mem_map_of_mem hy))))
    obtain ⟨u, hu⟩ := hv.running_of_grants hacts hgrants
    have hacc : s.Accepting c y.1 := hv'.ledger.taken c y.1 (Or.inr (List.mem_map_of_mem (by
      rw [hchan, Chan.recvd_apply]
      exact List.mem_append_right _ hy)))
    rwa [hv.hist.eq_of_by hu (hv.duo.of_accepting hacc)]
  · rw [show (s.move K t d e th).mem.chan c = s.mem.chan c from
      Mem.chan_apply_of_ne K s.mem t d e hd, ← List.append_nil (s.mem.chan c).recvd]
    exact htally.move hnext.id nofun

omit [DecidableEq T] in
/-- The cases on the channel move what they report: the receive cases always, the send cases by
assumption. -/
theorem DuoValid.movesOn (hv : DuoValid K c p q s) (hok : Sys.When (Thread.pushOk K c) s (.go t alt)) :
    s.MovesOn K c t := by
  intro id cases timeout i st k hth hk hc
  cases hop : k.op with
  | recv => exact hv.look.moves hv.toSound hv.ring hv.mark hth hk hc hop
  | send =>
    have hok : (s.thread t).pushOk K c s.mem = true := hok
    rw [hth, Thread.pushOk, hk, Option.all_some, Bool.or_eq_true] at hok
    refine hok.resolve_left fun h => ?_
    rcases of_decide_eq_true h with hne | hrecv
    · exact hne hc
    · cases hop.symm.trans hrecv

omit [DecidableEq T] in
theorem DuoValid.init (slots : C → U32 → α) : DuoValid K c p q (Sys.init slots : Sys T C α) where
  toValid := .init slots
  duo _ _ _ h := by cases h
  ring := .init slots c
  mark _ _ h := by cases h
  carried := .init slots c
  must := {
    hand := fun _ _ _ h => by cases h
    own := fun _ _ _ _ _ h => by cases h
    stub := fun _ ⟨_, _, _, _, h, _⟩ => by cases h }
  tells _ _ _ _ _ h := by cases h
  look _ _ _ _ _ _ _ h := by cases h
  turn := rfl
  sends := ⟨[], [], rfl, rfl, nofun, nofun⟩
  recvs := ⟨[], rfl, [], [], rfl, rfl, nofun, nofun⟩

theorem DuoValid.ring_step (h : DuoValid K c p q s) (hstep : s.Stepped K l s') : s'.RingSound K c := by
  cases hstep with
  | call hidle => exact h.ring.startCall hidle
  | ret hdone hret => exact h.ring.finishCall hret
  | move hnext hacts =>
    exact h.ring.move (h.ok _) hacts (h.duo.not_spsc h.toSound hacts) fun pr hpr => h.mark.timely h.ring hpr

theorem DuoValid.carried_step (h : DuoValid K c p q s) (hstep : s.Stepped K l s') : s'.Carried c := by
  cases hstep with
  | call hidle => exact h.carried.startCall h.toValid hidle
  | ret hdone hret => exact h.carried.finishCall hret
  | move hnext hacts =>
    exact h.carried.move h.toValid h.ring hacts fun hd => h.duo.not_spsc h.toSound hacts hd.symm

theorem DuoValid.turn_step (h : DuoValid K c p q s) (hstep : s.Stepped K l s') : s'.InTurn c := by
  cases hstep with
  | call hidle => exact h.turn
  | ret hdone hret => exact h.turn
  | move hnext hacts =>
    refine h.turn.move h.ring.takers_le ?_
    rintro rfl hmeets
    exact h.inRing_of_meet hacts hmeets

theorem DuoValid.sends_step (h : DuoValid K c p q s) (hstep : s.Stepped K l s') :
    s'.Tallied p (s'.mem.chan c).sent (s'.sendOks c) := by
  cases hstep with
  | @call t k hidle =>
    rw [Sys.sendOks, Sys.oks_startCall h.hist]
    exact h.sends.startCall hidle k
  | @ret t alt id r out hdone hret =>
    rw [Sys.sendOks, Sys.oks_finishCall h.hist, ← h.sendOks_ret hret]
    refine h.sends.finishCall h.calls hret.id_eq fun y hy hid => ?_
    exact (h.hist.eq_of_by (hid ▸ hret.id_eq) (h.duo.of_offered (h.ledger.sent c _ _ hy))).symm
  | move hnext hacts => exact h.sends_move hnext hacts

theorem DuoValid.recvs_step (h : DuoValid K c p q s) (hstep : s.Stepped K l s') :
    ∃ vs, s'.recvOks c = vs.map some ∧ s'.Tallied q (s'.mem.chan c).recvd vs := by
  obtain ⟨vs, hvs, htally⟩ := h.recvs
  cases hstep with
  | @call t k hidle =>
    refine ⟨vs, ?_, htally.startCall hidle k⟩
    rw [Sys.recvOks, Sys.oks_startCall h.hist]
    exact hvs
  | @ret t alt id r out hdone hret =>
    refine ⟨vs ++ (ofCall id (s.mem.chan c).recvd).map Prod.snd, ?_, ?_⟩
    · rw [Sys.recvOks, Sys.oks_finishCall h.hist, ← h.recvOks_ret hret, List.map_append, ← hvs]
      rfl
    · refine htally.finishCall h.calls hret.id_eq fun y hy hid => ?_
      have hacc := h.ledger.taken c y.1 (Or.inr (List.mem_map_of_mem hy))
      exact (h.hist.eq_of_by (hid ▸ hret.id_eq) (h.duo.of_accepting hacc)).symm
  | move hnext hacts => exact ⟨vs, hvs, h.recvs_move hnext hacts htally⟩

theorem DuoValid.step (h : DuoValid K c p q s) (hcap : (K.chan c).capacity ≠ 0) (hl : l.Duo c p q)
    (hok : Sys.When (Thread.pushOk K c) s l) (hstep : s.Stepped K l s') : DuoValid K c p q s' where
  toValid := h.toValid.step hstep
  duo := h.duo.step hl hstep
  ring := h.ring_step hstep
  mark := h.mark.step h.duo h.toSound hstep
  carried := h.carried_step hstep
  must := h.must.step h.toSound (fun t alt hgo =>
    h.movesOn (show Sys.When (Thread.pushOk K c) s (.go t alt) from hgo ▸ hok)) hstep
  tells := h.tells.step h.toSound h.selects hstep
  look := h.look.step h.toSound h.duo h.ring h.mark (h.ring_step hstep) hcap hstep
  turn := h.turn_step hstep
  sends := h.sends_step hstep
  recvs := h.recvs_step hstep

/-- The steps of a producer and a consumer that only select on `c`, the producer's locked cases moving
what they report. -/
def Sys.DuoOk (K : Config T C) (c : C) (p q : T) (s : Sys T C α) (l : Label T C α) : Prop :=
  l.Duo c p q ∧ Sys.When (Thread.pushOk K c) s l

instance (s : Sys T C α) : DecidablePred (Sys.DuoOk K c p q s) := fun _ =>
  inferInstanceAs (Decidable (_ ∧ _))

theorem DuoValid.of_reaches {slots : C → U32 → α} (hcap : (K.chan c).capacity ≠ 0)
    (hrun : Reaches (Sys.step K) (Sys.DuoOk K c p q) (Sys.init slots) s) : DuoValid K c p q s := by
  apply hrun.invariant (DuoValid.init slots)
  intro s l s' hv hok hstep
  exact hv.step hcap hok.1 hok.2 (Sys.step_cases hv.locks.wf hstep)

end Valid

end LibChan
