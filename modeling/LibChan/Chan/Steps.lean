import LibChan.Chan.SelectMoves

/-!
# Steps of the system

The steps of `Sys.step` in one list: a call, a return, or a move of a thread inside a call
(`Sys.step_cases`). Below it, what the effect of a move leaves in the queues, locks, parks and select
states.
-/

set_option autoImplicit false

namespace LibChan

variable {T C α : Type} [DecidableEq C]

/-- What a step inside a call on channel `c` is to the rest of the system. -/
structure Thread.Next (K : Config T C) (m : Mem T C α) (c : C) (th th' : Thread C α)
    (e : Effect α) : Prop where
  move : Move K m c th th' e
  id : th'.id? = th.id?
  select : th'.isSelect = th.isSelect
  wf : th'.Wf K
  hidden : th'.Hidden → th.Hidden ∨
    ∃ o w, th.Waits c o w ∧ e = .remove o w ∧ w ∈ (m.chan c).queue o ∧ th.isSelect = false

/-- A thread that is about to return from call `id`. -/
structure Thread.Done (K : Config T C) (id : Nat) (th : Thread C α) : Prop where
  id : th.id? = some id
  holds : th.holds K = []
  hand : th.hand = none
  waits : ∀ c o w, ¬ th.Waits c o w

/-- A thread that has just called. -/
structure Thread.Begun (K : Config T C) (id : Nat) (select : Bool) (th : Thread C α) : Prop where
  id : th.id? = some id
  select : th.isSelect = select
  wf : th.Wf K
  holds : th.holds K = []
  hand : th.hand = none
  waits : ∀ c o w, ¬ th.Waits c o w

/-- The call is a select. -/
def Call.isSelect : Call C α → Bool
  | .direct _ _ => false
  | .select _ _ => true

theorem Sys.begun_startThread (K : Config T C) (id : Nat) (k : Call C α) :
    (Sys.startThread K id k).Begun K id k.isSelect := by
  cases k with
  | direct c op =>
    have hv : (Pc.entry (K.chan c) id op).view c op = (false, none, false) :=
      Pc.view_entry (K.chan c)
    exact ⟨rfl, rfl, trivial, Thread.holds_of_view hv, Thread.hand_of_view hv,
      fun d o w h => by
        rw [Sys.startThread, Thread.waits_of_view hv] at h
        exact Bool.false_ne_true h.2.2.2⟩
  | select cases timeout =>
    have hfree : (SelPc.entry cases).Free K cases := SelPc.free_entry
    refine ⟨rfl, rfl, hfree.2.2.2, hfree.1, hfree.2.1, ?_⟩
    rintro d o w ⟨-, h, -⟩
    exact absurd h (Bool.eq_false_iff.1 (hfree.2.2.1 _))

/-! ## What an effect leaves -/

namespace Effect

/-- The lock of the channel after a step of thread `t`. -/
def lockAfter (t : T) (l : Option T) : Effect α → Option T
  | .lock => some t
  | .unlock => Option.none
  | _ => l

/-- The queues of the channel after a step. -/
def queueAfter (q : ChanOp → List Wid) : Effect α → ChanOp → List Wid
  | .claim o _ => Function.update q o (q o).tail
  | .drop o => Function.update q o (q o).tail
  | .enroll o w => Function.update q o (q o ++ [w])
  | .stub o w => Function.update q o (q o ++ [w])
  | .requeue o w => Function.update q o (q o ++ [w])
  | .remove o w => Function.update q o ((q o).erase w)
  | .putBack o w => Function.update q o (w :: q o)
  | _ => q

/-- The result of waiter `w` after a step. -/
def resultAfter (w : Wid) (r : ChanErr) : Effect α → ChanErr
  | .enroll _ v => if w = v then .ok else r
  | .stub _ v => if w = v then .wouldblock else r
  | .settle v r' => if w = v then r' else r
  | .pair _ _ v _ => if w = v then .ok else r
  | _ => r

/-- The park of call `id` after a step. -/
def signalAfter (id : Nat) (b : Bool) : Effect α → Bool
  | .wake w => if id = w.call then true else b
  | _ => b

/-- The select state of call `id` after a step. -/
def stateAfter (id : Nat) (st : Option Bool) : Effect α → Option Bool
  | .claim _ w => if id = w.call then st.map fun _ => true else st
  | _ => st

end Effect

section Apply

variable [DecidableEq T] (K : Config T C) (m : Mem T C α) (t : T) (c : C) (e : Effect α)

theorem Mem.chan_apply_self :
    (m.apply K t c e).chan c = (m.chan c).apply (K.chan c).ringCap t e :=
  Function.update_self c _ _

theorem Mem.chan_apply_of_ne {d : C} (hd : d ≠ c) : (m.apply K t c e).chan d = m.chan d :=
  Function.update_of_ne hd _ _

theorem Mem.lock_apply (d : C) : ((m.apply K t c e).chan d).lock =
    if d = c then e.lockAfter t (m.chan d).lock else (m.chan d).lock := by
  by_cases hd : d = c
  · subst hd
    rw [if_pos rfl, chan_apply_self]
    cases e <;> rfl
  · rw [if_neg hd, chan_apply_of_ne K m t c e hd]

theorem Mem.queue_apply (d : C) : ((m.apply K t c e).chan d).queue =
    if d = c then e.queueAfter (m.chan d).queue else (m.chan d).queue := by
  by_cases hd : d = c
  · subst hd
    rw [if_pos rfl, chan_apply_self]
    cases e <;> rfl
  · rw [if_neg hd, chan_apply_of_ne K m t c e hd]

theorem result_fillBuffer (ws : Wid → Waiter α) (x : Option (Wid × α)) (w : Wid) :
    (fillBuffer ws x w).result = (ws w).result := by
  cases x with
  | none => rfl
  | some x =>
    rw [fillBuffer]
    by_cases hw : w = x.1
    · rw [hw, Function.update_self]
    · rw [Function.update_of_ne hw]

theorem Waiter.result_update (ws : Wid → Waiter α) (v w : Wid) (x : Waiter α) :
    (Function.update ws v x w).result = if w = v then x.result else (ws w).result := by
  rw [Function.update_apply]
  split <;> rfl

theorem Mem.result_apply (w : Wid) :
    ((m.apply K t c e).waiter w).result = e.resultAfter w (m.waiter w).result := by
  cases e with
  | ring weak p => exact result_fillBuffer _ _ _
  | spsc p => exact result_fillBuffer _ _ _
  | enroll o v | stub o v | settle v r => exact Waiter.result_update _ _ _ _
  | pair a r v x =>
    refine (Waiter.result_update _ _ _ _).trans ?_
    rw [Effect.resultAfter]
    split
    · rfl
    · rw [Waiter.result_update]
      split
      · next hw => rw [hw]
      · rfl
  | _ => rfl

theorem Mem.signaled_apply (id : Nat) :
    (m.apply K t c e).signaled id = e.signalAfter id (m.signaled id) := by
  cases e with
  | wake w => exact Function.update_apply _ _ _ _
  | _ => rfl

theorem Mem.selectState_apply (id : Nat) :
    (m.apply K t c e).selectState id = e.stateAfter id (m.selectState id) := by
  cases e with
  | claim o w =>
    refine (Function.update_apply _ _ _ _).trans ?_
    rw [Effect.stateAfter]
    split
    · next hid => rw [hid]
    · rfl
  | _ => rfl

end Apply

/-! ## The next step of a thread -/

/-- The step a thread takes when it sees the memory `m`: the channel, the effect and what the thread does
afterwards. -/
def Thread.act (K : Config T C) (m : Mem T C α) (t : T) (alt : Bool) :
    Thread C α → Option (C × Effect α × Thread C α)
  | .idle => none
  | .direct id c op pc => (pc.act K m id c op alt).map fun r => (c, r.1, .direct id c op r.2)
  | .select id cases timeout pc => cases.head?.bind fun k =>
    (pc.act K m t id cases timeout alt k.chan).map fun r =>
      (r.1, r.2.1, .select id cases timeout r.2.2)

/-- What a thread returns that is at the end of its call. -/
def Thread.returns (m : Mem T C α) : Thread C α → Option (Nat × Ret × List (Option α))
  | .direct id _ op (.ret r) => some (id, r, Sys.directOut m id op r)
  | .select id cases _ (.ret r) => some (id, r, Sys.selectOut m id cases r)
  | _ => none

section Step

variable [DecidableEq T] {K : Config T C} {s s' : Sys T C α}

/-- Thread `t` takes the next step of its call. -/
inductive Sys.Acts (K : Config T C) (s : Sys T C α) (t : T) (alt : Bool) :
    C → Effect α → Thread C α → Prop
  | direct {id : Nat} {c : C} {op : Op α} {pc pc' : Pc α} {e : Effect α}
      (hth : s.thread t = .direct id c op pc)
      (hact : pc.act K s.mem id c op alt = some (e, pc')) : Acts K s t alt c e (.direct id c op pc')
  | select {id : Nat} {cases : List (Case C α)} {timeout : Int} {pc pc' : SelPc C α} {c d : C}
      {e : Effect α} (hth : s.thread t = .select id cases timeout pc)
      (hact : pc.act K s.mem t id cases timeout alt d = some (c, e, pc')) :
      Acts K s t alt c e (.select id cases timeout pc')

/-- Thread `t` returns from its call. -/
inductive Sys.Returns (s : Sys T C α) (t : T) : Nat → Ret → List (Option α) → Prop
  | direct {id : Nat} {c : C} {op : Op α} {r : Ret} (hth : s.thread t = .direct id c op (.ret r)) :
      Returns s t id r (Sys.directOut s.mem id op r)
  | select {id : Nat} {cases : List (Case C α)} {timeout : Int} {r : Ret}
      (hth : s.thread t = .select id cases timeout (.ret r)) :
      Returns s t id r (Sys.selectOut s.mem id cases r)

/-- The steps of the system. -/
inductive Sys.Stepped (K : Config T C) (s : Sys T C α) : Label T C α → Sys T C α → Prop
  | call {t : T} {k : Call C α} (hidle : s.thread t = .idle) :
      Stepped K s (.call t k) (s.startCall K t k)
  | ret {t : T} {alt : Bool} {id : Nat} {r : Ret} {out : List (Option α)}
      (hdone : (s.thread t).Done K id) (hret : s.Returns t id r out) :
      Stepped K s (.go t alt) (s.finishCall t id r out)
  | move {t : T} {alt : Bool} {c : C} {e : Effect α} {th : Thread C α}
      (hnext : (s.thread t).Next K s.mem c th e) (hacts : s.Acts K t alt c e th) :
      Stepped K s (.go t alt) (s.move K t c e th)

omit [DecidableEq T] in
theorem Thread.Next.of_direct {m : Mem T C α} {id : Nat} {c : C} {op : Op α} {alt : Bool} {pc pc' : Pc α}
    {e : Effect α} (hact : pc.act K m id c op alt = some (e, pc')) :
    (Thread.direct id c op pc).Next K m c (.direct id c op pc') e := by
  refine ⟨.of_act hact, rfl, rfl, trivial, fun hp => ?_⟩
  rcases Pc.hidden_of_act hact hp with hp | ⟨hw, he, hmem⟩
  · exact Or.inl hp
  · exact Or.inr ⟨op.side, ⟨id, 0⟩, ⟨rfl, rfl, rfl, hw⟩, he, hmem, rfl⟩

omit [DecidableEq T] in
theorem Thread.Next.of_select {m : Mem T C α} {t : T} {id : Nat} {cases : List (Case C α)} {timeout : Int}
    {alt : Bool} {pc pc' : SelPc C α} {c d : C} {e : Effect α} (hwf : pc.Wf K cases)
    (hact : pc.act K m t id cases timeout alt d = some (c, e, pc')) :
    (Thread.select id cases timeout pc).Next K m c (.select id cases timeout pc') e := by
  obtain ⟨hwf', hhidden⟩ := SelPc.wf_hidden_of_act hwf hact
  exact ⟨.of_select hwf hact, rfl, rfl, hwf', fun hp => Or.inl (hhidden hp)⟩

/-- `Sys.step` in these terms. -/
theorem Sys.step_go (K : Config T C) (s : Sys T C α) (t : T) (alt : Bool) :
    s.step K (.go t alt) =
      match (s.thread t).returns s.mem with
      | some (id, r, out) => some (s.finishCall t id r out)
      | none => ((s.thread t).act K s.mem t alt).map fun a => s.move K t a.1 a.2.1 a.2.2 := by
  rw [Sys.step]
  cases s.thread t with
  | idle => rfl
  | direct id c op pc =>
    cases pc with
    | ret r => rfl
    | _ =>
      rw [Thread.act, Option.map_map]
      rfl
  | select id cases timeout pc =>
    cases pc with
    | ret r => rfl
    | _ =>
      cases cases with
      | nil => rfl
      | cons k rest =>
        rw [Thread.act, List.head?_cons, Option.bind_some, Option.map_map]
        rfl

omit [DecidableEq T] in
theorem Sys.done_of_returns {t : T} {id : Nat} {x : Ret} {out : List (Option α)}
    (h : (s.thread t).returns s.mem = some (id, x, out)) :
    (s.thread t).Done K id ∧ s.Returns t id x out := by
  cases hth : s.thread t with
  | idle =>
    rw [hth] at h
    cases h
  | direct id' c op pc =>
    rw [hth] at h
    cases pc with
    | ret x' =>
      cases h
      refine ⟨⟨rfl, rfl, rfl, ?_⟩, .direct hth⟩
      rintro d o w ⟨-, -, -, hw⟩
      cases hw
    | _ => cases h
  | select id' cases timeout pc =>
    rw [hth] at h
    cases pc with
    | ret x' =>
      cases h
      refine ⟨⟨rfl, rfl, rfl, ?_⟩, .select hth⟩
      rintro d o w ⟨-, hw, -⟩
      cases hw
    | _ => cases h

omit [DecidableEq T] in
theorem Sys.acts_of_act {t : T} {alt : Bool} {c : C} {e : Effect α} {th : Thread C α}
    (hwf : (s.thread t).Wf K) (h : (s.thread t).act K s.mem t alt = some (c, e, th)) :
    (s.thread t).Next K s.mem c th e ∧ s.Acts K t alt c e th := by
  cases hth : s.thread t with
  | idle =>
    rw [hth] at h
    cases h
  | direct id c' op pc =>
    rw [hth] at h
    obtain ⟨⟨e', pc'⟩, hact, heq⟩ := Option.map_eq_some_iff.1 h
    cases heq
    exact ⟨.of_direct hact, .direct hth hact⟩
  | select id cases timeout pc =>
    rw [hth] at h hwf
    obtain ⟨k, -, hrest⟩ := Option.bind_eq_some_iff.1 h
    obtain ⟨⟨c', e', pc'⟩, hact, heq⟩ := Option.map_eq_some_iff.1 hrest
    cases heq
    exact ⟨.of_select hwf hact, .select hth hact⟩

/-- Every step is a call, a return or a move. -/
theorem Sys.step_cases {l : Label T C α} (hwf : ∀ t, (s.thread t).Wf K)
    (h : s.step K l = some s') : s.Stepped K l s' := by
  cases l with
  | call t k =>
    simp only [Sys.step] at h
    split at h
    · next hidle =>
      cases h
      exact .call hidle
    · cases h
  | go t alt =>
    rw [Sys.step_go] at h
    split at h
    · next id x out hret =>
      cases h
      obtain ⟨hdone, hreturns⟩ := Sys.done_of_returns (K := K) hret
      exact .ret hdone hreturns
    · next hret =>
      obtain ⟨⟨c, e, th⟩, hact, heq⟩ := Option.map_eq_some_iff.1 h
      cases heq
      obtain ⟨hnext, hacts⟩ := Sys.acts_of_act (hwf t) hact
      exact .move hnext hacts

/-- A thread takes the step that its place allows. -/
theorem Sys.step_of_act {t : T} {alt : Bool} {id : Nat} {c : C} {op : Op α} {pc pc' : Pc α}
    {e : Effect α} (hth : s.thread t = .direct id c op pc)
    (hact : pc.act K s.mem id c op alt = some (e, pc')) :
    s.step K (.go t alt) = some (s.move K t c e (.direct id c op pc')) := by
  rw [Sys.step, hth]
  show s.stepDirect K t alt id c op pc = _
  rw [Sys.stepDirect]
  · rw [hact]
    rfl
  · rintro r rfl
    cases hact

section Threads

variable {t t' : T} {k : Call C α} {id : Nat} {r : Ret} {out : List (Option α)} {c : C}
  {e : Effect α} {th : Thread C α}

theorem Sys.thread_startCall_self : (s.startCall K t k).thread t = startThread K s.next k :=
  Function.update_self t _ _

theorem Sys.thread_startCall_of_ne (ht : t' ≠ t) :
    (s.startCall K t k).thread t' = s.thread t' :=
  Function.update_of_ne ht _ _

omit [DecidableEq C] in
theorem Sys.thread_finishCall_self : (s.finishCall t id r out).thread t = .idle :=
  Function.update_self t _ _

omit [DecidableEq C] in
theorem Sys.thread_finishCall_of_ne (ht : t' ≠ t) :
    (s.finishCall t id r out).thread t' = s.thread t' :=
  Function.update_of_ne ht _ _

theorem Sys.thread_move_self : (s.move K t c e th).thread t = th := Function.update_self t _ _

theorem Sys.thread_move_of_ne (ht : t' ≠ t) : (s.move K t c e th).thread t' = s.thread t' :=
  Function.update_of_ne ht _ _

/-- What a move keeps of its own thread it keeps of all. -/
theorem Sys.move_congr {β : Type} (f : Thread C α → β) (h : f th = f (s.thread t)) (t' : T) :
    f ((s.move K t c e th).thread t') = f (s.thread t') := by
  by_cases ht : t' = t
  · rw [ht, thread_move_self, h]
  · rw [thread_move_of_ne ht]

end Threads

end Step

end LibChan
