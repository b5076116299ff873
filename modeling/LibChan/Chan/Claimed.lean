import LibChan.Chan.Selects
import LibChan.Chan.Shutdown
import LibChan.Chan.Reuse

/-!
# A claimed select is woken

Claiming a stub is final: `shared_state` never goes back to `WAITER_WAITING`. Whoever has claimed a stub
settles and wakes it, except when the ring operation for it fails and the stub is put back into its
queue: nobody can claim it again. In the runs where no stub is put back, every claimed select is
signalled or in somebody's hands (`ClaimInv`). A stub that has left its queue while its select waits is
claimed in every run (`WaitInv`), so `chan_close` wakes every select that waits on the channel.
-/

set_option autoImplicit false

namespace LibChan

variable {T C α : Type}

/-- A waiter that is put back into its queue is not a stub of a select. -/
def Thread.putBackOk (m : Mem T C α) : Thread C α → Bool
  | .direct _ _ _ (.serve _ (.putBack w)) => (m.selectState w.call).isNone
  | .direct _ _ _ (.helpPutBack w) => (m.selectState w.call).isNone
  | _ => true

/-- The thread is in `chan_park_wait`. -/
def Thread.parked : Thread C α → Bool
  | .direct _ _ _ .park | .direct _ _ _ .repark | .select _ _ _ .park => true
  | _ => false

theorem Thread.select_of_parked {th : Thread C α} {id : Nat} {cases : List (Case C α)} {timeout : Int}
    (hcall : th.call? = some (id, .select cases timeout)) (h : th.parked = true) :
    th = .select id cases timeout .park := by
  obtain ⟨pc, rfl⟩ := Thread.select_of_call hcall
  cases pc with
  | park => rfl
  | _ => cases h

/-- Some thread has a waiter of the call in its hands. -/
def Sys.InHands (s : Sys T C α) (id : Nat) : Prop :=
  ∃ t w st, (s.thread t).hand = some (w, st) ∧ w.call = id

/-- Every claimed select is signalled or in somebody's hands. -/
def ClaimInv (s : Sys T C α) : Prop :=
  ∀ id, s.mem.selectState id = some true → s.mem.signaled id = true ∨ s.InHands id

/-- A stub that has left its queue while its select waits is claimed. -/
def WaitInv (s : Sys T C α) : Prop :=
  ∀ t c o w, (s.thread t).isSelect = true → (s.thread t).Waits c o w →
    w ∈ (s.mem.chan c).queue o ∨ s.mem.selectState w.call = some true

section Moves

variable [DecidableEq C] {K : Config T C} {m : Mem T C α} {c : C} {th₀ th : Thread C α}
  {e : Effect α} {w : Wid} {st : Stage C}

/-- The waiter in hand stays there until it is put back or woken. -/
theorem Move.hand_fate (h : Move K m c th₀ th e) (hw : th₀.hand = some (w, st)) :
    (∃ st', th.hand = some (w, st')) ∨ (∃ o, e = .putBack o w) ∨ e = .wake w := by
  have hnone : ∀ {p : Prop}, th₀.hand = none → p := fun hn => by cases hn.symm.trans hw
  cases h with
  | quiet he hholds hhand hwaits => exact Or.inl ⟨st, hhand.trans hw⟩
  | self hholds hhand => exact hnone hhand
  | lock hfree hholds hhand => exact hnone hhand
  | unlock hholds hhand hwaits =>
    rcases hhand with ⟨hn, -⟩ | ⟨v, o, hv, hv'⟩
    · exact hnone hn
    · cases hv.symm.trans hw
      exact Or.inl ⟨_, hv'⟩
  | claim hqueue hclaim hheld hholds hhand => exact hnone hhand
  | drop hqueue hclaim hheld hholds hhand hwaits => exact Or.inl ⟨st, hhand.trans hw⟩
  | enter he hheld hholds hhand | leave hheld hholds hhand | skip hsel hheld hholds hhand
  | woken hth hsig hholds hhand => exact hnone hhand
  | putBack hheld hholds hhand =>
    cases hhand.symm.trans hw
    exact Or.inr (Or.inl ⟨_, rfl⟩)
  | settle he hheld hholds hhand hhand' =>
    cases hhand.symm.trans hw
    exact Or.inl ⟨_, hhand'⟩
  | wake hholds hhand =>
    cases hhand.symm.trans hw
    exact Or.inr (Or.inr rfl)

/-- Who is in a queue stays there unless the step claims, drops or removes it. -/
theorem Move.queue_kept {o : ChanOp} (h : Move K m c th₀ th e) (hw : w ∈ (m.chan c).queue o) :
    w ∈ e.queueAfter (m.chan c).queue o ∨ e = .claim o w ∨
      (e = .drop o ∧ m.claimable w = false) ∨ e = .remove o w := by
  -- the first waiter `v` of queue `o'` leaves it
  have hpop : ∀ {o' : ChanOp} {v : Wid} {q : List Wid}, (m.chan c).queue o' = v :: q →
      w ∈ Function.update (m.chan c).queue o' ((m.chan c).queue o').tail o ∨ o = o' ∧ w = v := by
    intro o' v q hq
    by_cases ho : o = o'
    · by_cases hv : w = v
      · exact Or.inr ⟨ho, hv⟩
      · exact Or.inl ((mem_tail_update hq hv o).2 hw)
    · rw [Function.update_of_ne ho]
      exact Or.inl hw
  -- a queue that only grows
  have hgrow : ∀ {o' : ChanOp} {q : List Wid}, (m.chan c).queue o' ⊆ q →
      w ∈ Function.update (m.chan c).queue o' q o := by
    intro o' q hsub
    by_cases ho : o = o'
    · subst ho
      rw [Function.update_self]
      exact hsub hw
    · rwa [Function.update_of_ne ho]
  cases e with
  | claim o' v =>
    cases h with
    | quiet he => exact he.elim
    | enter he => rcases he with ⟨he | he, -⟩ | ⟨he, -⟩ <;> cases he
    | settle he => rcases he with ⟨r, he⟩ | ⟨a, b, x, he⟩ <;> cases he
    | claim hqueue =>
      rcases hpop hqueue with hw | ⟨rfl, rfl⟩
      · exact Or.inl hw
      · exact Or.inr (Or.inl rfl)
  | drop o' =>
    cases h with
    | quiet he => exact he.elim
    | enter he => rcases he with ⟨he | he, -⟩ | ⟨he, -⟩ <;> cases he
    | settle he => rcases he with ⟨r, he⟩ | ⟨a, b, x, he⟩ <;> cases he
    | drop hqueue hclaim =>
      rcases hpop hqueue with hw | ⟨rfl, rfl⟩
      · exact Or.inl hw
      · exact Or.inr (Or.inr (Or.inl ⟨rfl, hclaim⟩))
  | remove o' v =>
    by_cases ho : o = o'
    · subst ho
      by_cases hv : w = v
      · subst hv
        exact Or.inr (Or.inr (Or.inr rfl))
      · refine Or.inl ?_
        rw [Effect.queueAfter, Function.update_self]
        exact (List.mem_erase_of_ne hv).2 hw
    · refine Or.inl ?_
      rwa [Effect.queueAfter, Function.update_of_ne ho]
  | enroll o' v | stub o' v | requeue o' v => exact Or.inl (hgrow (List.subset_append_left _ _))
  | putBack o' v => exact Or.inl (hgrow (List.subset_cons_self _ _))
  | _ => exact Or.inl hw

end Moves

/-! ## Claimed selects -/

section Claim

variable [DecidableEq T] [DecidableEq C] {K : Config T C} {s s' : Sys T C α} {l : Label T C α}
  {t : T} {alt : Bool} {c : C} {e : Effect α} {th : Thread C α} {o : ChanOp} {w : Wid}

omit [DecidableEq T] in
/-- What is put back is not a stub. -/
theorem Sys.Acts.state_of_putBack (hacts : s.Acts K t alt c (.putBack o w) th)
    (hok : (s.thread t).putBackOk s.mem = true) : s.mem.selectState w.call = none := by
  cases hacts with
  | direct hth hact =>
    rw [hth] at hok
    cases Pc.flow_of_act hact with
    | servePutBack | servePutBackBlock hblock | helpPutBack => exact Option.isNone_iff_eq_none.1 hok
  | select hth hact =>
    cases SelPc.flow_of_act hact with
    | pick _ _ he => rcases he with he | ⟨v, he⟩ <;> cases he
    | execGo hk hexec => cases hexec
    | execDone hk hexec => cases hexec

/-- What is in somebody's hands stays there until it is put back or signalled. -/
theorem Sys.inHands_move {id : Nat} (h : s.InHands id) (hnext : (s.thread t).Next K s.mem c th e) :
    (s.move K t c e th).InHands id ∨ ∃ w st, (s.thread t).hand = some (w, st) ∧ w.call = id ∧
      ((∃ o, e = .putBack o w) ∨ e = .wake w) := by
  obtain ⟨u, w, st, hhand, hid⟩ := h
  by_cases hu : u = t
  · subst hu
    rcases hnext.move.hand_fate hhand with ⟨st', hst'⟩ | hrest
    · exact .inl ⟨u, w, st', by rwa [Sys.thread_move_self], hid⟩
    · exact .inr ⟨w, st, hhand, hid, hrest⟩
  · exact .inl ⟨u, w, st, by rwa [Sys.thread_move_of_ne hu], hid⟩

theorem Sys.inHands_startCall {id : Nat} {k : Call C α} (h : s.InHands id)
    (hidle : s.thread t = .idle) : (s.startCall K t k).InHands id := by
  obtain ⟨u, w, st, hhand, hid⟩ := h
  have hut : u ≠ t := by
    rintro rfl
    rw [hidle] at hhand
    cases hhand
  exact ⟨u, w, st, by rwa [Sys.thread_startCall_of_ne hut], hid⟩

omit [DecidableEq C] in
theorem Sys.inHands_finishCall {id id' : Nat} {r : Ret} {out : List (Option α)} (h : s.InHands id)
    (hhand : (s.thread t).hand = none) : (s.finishCall t id' r out).InHands id := by
  obtain ⟨u, w, st, hhand', hid⟩ := h
  have hut : u ≠ t := by
    rintro rfl
    cases hhand.symm.trans hhand'
  exact ⟨u, w, st, by rwa [Sys.thread_finishCall_of_ne hut], hid⟩

/-- A signal stays. -/
theorem Sys.signaled_move {id : Nat} (h : s.mem.signaled id = true) :
    (s.move K t c e th).mem.signaled id = true :=
  (Mem.signaled_apply K s.mem t c e id).trans (Effect.signalAfter_of_true h)

theorem Sys.signaled_wake {id : Nat} (h : w.call = id) :
    (s.move K t c (.wake w) th).mem.signaled id = true := by
  refine (Mem.signaled_apply K s.mem t c _ id).trans ?_
  rw [Effect.signalAfter, if_pos h.symm]

theorem ClaimInv.move (h : ClaimInv s) (hnext : (s.thread t).Next K s.mem c th e)
    (hacts : s.Acts K t alt c e th) (hok : (s.thread t).putBackOk s.mem = true) :
    ClaimInv (s.move K t c e th) := by
  intro id hstate
  have hst : (s.move K t c e th).mem.selectState id = e.stateAfter id (s.mem.selectState id) :=
    Mem.selectState_apply K s.mem t c e id
  by_cases hold : s.mem.selectState id = some true
  · rcases h id hold with hsig | hhands
    · exact Or.inl (Sys.signaled_move hsig)
    · rcases Sys.inHands_move hhands hnext with hhands | ⟨w, st, -, rfl, ⟨o, rfl⟩ | rfl⟩
      · exact Or.inr hhands
      · -- a put-back of a stub
        cases hold.symm.trans (hacts.state_of_putBack hok)
      · exact Or.inl (Sys.signaled_wake rfl)
  · -- the step claims the select
    rw [hst] at hstate
    cases e with
    | claim o w =>
      rw [Effect.stateAfter] at hstate
      split at hstate
      · next hid =>
        refine Or.inr ⟨t, w, .claimed c o, ?_, hid.symm⟩
        rw [Sys.thread_move_self]
        exact hnext.move.claim_cases.2.2
      · exact absurd hstate hold
    | _ => exact absurd hstate hold

theorem ClaimInv.step (h : ClaimInv s) (hok : Sys.When Thread.putBackOk s l)
    (hstep : s.Stepped K l s') : ClaimInv s' := by
  cases hstep with
  | @call t k hidle =>
    intro id hstate
    have hold : s.mem.selectState id = some true := by
      cases k with
      | direct d op => exact hstate
      | select cases timeout =>
        by_cases hid : id = s.next
        · subst hid
          rw [show (s.startCall K t (.select cases timeout)).mem.selectState s.next = some false from
            Function.update_self ..] at hstate
          cases hstate
        · rwa [show (s.startCall K t (.select cases timeout)).mem.selectState id =
            s.mem.selectState id from Function.update_of_ne hid ..] at hstate
    exact (h id hold).imp_right fun hhands => Sys.inHands_startCall hhands hidle
  | @ret t alt id r out hdone hret =>
    exact fun id' hstate => (h id' hstate).imp_right fun hhands =>
      Sys.inHands_finishCall hhands hdone.hand
  | move hnext hacts => exact h.move hnext hacts hok

/-! ## Waiting stubs -/

/-- A claimed stub stays claimed. -/
theorem Sys.state_move (h : s.mem.selectState w.call = some true) :
    (s.move K t c e th).mem.selectState w.call = some true := by
  rw [show (s.move K t c e th).mem.selectState w.call = e.stateAfter w.call (s.mem.selectState w.call)
    from Mem.selectState_apply K s.mem t c e w.call]
  cases e with
  | claim o v =>
    rw [Effect.stateAfter, h]
    split <;> rfl
  | _ => exact h

theorem WaitInv.move (h : WaitInv s) (hs : Sound K s) (hnext : (s.thread t).Next K s.mem c th e) :
    WaitInv (s.move K t c e th) := by
  intro u d o w hsel hwaits
  -- the stub waited before, or has just entered the queue
  have hbefore : ((s.thread u).isSelect = true ∧ (s.thread u).Waits d o w) ∨
      w ∈ ((s.move K t c e th).mem.chan d).queue o := by
    by_cases hu : u = t
    · subst hu
      rw [Sys.thread_move_self] at hsel hwaits
      rcases hnext.move.waits_source hwaits with hold | ⟨rfl, he, -⟩
      · exact Or.inl ⟨hnext.select.symm.trans hsel, hold⟩
      · refine Or.inr (Sys.mem_queue_move.2 (Or.inl ⟨rfl, ?_⟩))
        rcases he with rfl | rfl | rfl <;>
          rw [Effect.queueAfter, Function.update_self] <;>
          exact List.mem_append_right _ (List.mem_singleton.2 rfl)
    · rw [Sys.thread_move_of_ne hu] at hsel hwaits
      exact Or.inl ⟨hsel, hwaits⟩
  rcases hbefore with ⟨hsel₀, hwaits₀⟩ | hin
  · have hid := Thread.id_of_waits hwaits₀
    have hstate := hs.calls.state u w.call hid
    rw [hsel₀] at hstate
    rcases h u d o w hsel₀ hwaits₀ with hw | hclaimed
    · by_cases hd : d = c
      · subst hd
        rcases hnext.move.queue_kept hw with hw | rfl | ⟨rfl, hclaim⟩ | rfl
        · exact Or.inl (Sys.mem_queue_move.2 (Or.inl ⟨rfl, hw⟩))
        · refine Or.inr ?_
          rw [show (s.move K t d (.claim o w) th).mem.selectState w.call =
            Effect.stateAfter (α := α) w.call (s.mem.selectState w.call) (.claim o w)
            from Mem.selectState_apply K s.mem t d _ w.call, Effect.stateAfter, if_pos rfl]
          obtain ⟨b, hb⟩ := Option.isSome_iff_exists.1 hstate
          rw [hb]
          rfl
        · refine Or.inr (Sys.state_move ?_)
          simpa [Mem.claimable] using hclaim
        · -- its own select has removed it
          cases hnext.move with
          | quiet he => exact he.elim
          | enter he => rcases he with ⟨he | he, -⟩ | ⟨he, -⟩ <;> cases he
          | settle he => rcases he with ⟨r, he⟩ | ⟨a, b, x, he⟩ <;> cases he
          | leave _ _ _ _ hwait hafter =>
            obtain rfl := hs.calls.id_inj u t _ hid (Thread.id_of_waits hwait)
            rw [Sys.thread_move_self] at hwaits
            exact absurd ⟨rfl, rfl, rfl⟩ ((hafter d o w).1 hwaits).2
      · exact Or.inl (Sys.mem_queue_move.2 (Or.inr ⟨hd, hw⟩))
    · exact Or.inr (Sys.state_move hclaimed)
  · exact Or.inl hin

omit [DecidableEq T] [DecidableEq C] in
theorem WaitInv.init (slots : C → U32 → α) : WaitInv (Sys.init slots : Sys T C α) := by
  intro t c o w h
  cases h

theorem WaitInv.step (h : WaitInv s) (hs : Sound K s) (hstep : s.Stepped K l s') : WaitInv s' := by
  cases hstep with
  | @call t k hidle =>
    intro u d o w hsel hwaits
    by_cases hu : u = t
    · subst hu
      rw [Sys.thread_startCall_self] at hwaits
      exact absurd hwaits ((Sys.begun_startThread K s.next k).waits d o w)
    · rw [Sys.thread_startCall_of_ne hu] at hsel hwaits
      refine (h u d o w hsel hwaits).imp_right fun hclaimed => ?_
      cases k with
      | direct d' op => exact hclaimed
      | select cases timeout =>
        have hne : w.call ≠ s.next := Nat.ne_of_lt (hs.calls.id_lt u _ (Thread.id_of_waits hwaits))
        exact (Function.update_of_ne hne ..).trans hclaimed
  | @ret t alt id r out hdone hret =>
    intro u d o w hsel hwaits
    by_cases hu : u = t
    · subst hu
      rw [Sys.thread_finishCall_self] at hwaits
      exact hwaits.elim
    · rw [Sys.thread_finishCall_of_ne hu] at hsel hwaits
      exact h u d o w hsel hwaits
  | move hnext hacts => exact h.move hs hnext

/-! ## Waiting direct calls -/

/-- A direct waiter that has left its queue while its call waits is in somebody's hands or signalled. -/
def DirectWaitInv (s : Sys T C α) : Prop :=
  ∀ t c o w, (s.thread t).isSelect = false → (s.thread t).Waits c o w →
    w ∈ (s.mem.chan c).queue o ∨ s.InHands w.call ∨ s.mem.signaled w.call = true

theorem DirectWaitInv.move (h : DirectWaitInv s) (hs : Sound K s)
    (hnext : (s.thread t).Next K s.mem c th e) : DirectWaitInv (s.move K t c e th) := by
  intro u d o w hdirect hwaits
  -- the waiter waited before, or has just entered the queue
  have hbefore : ((s.thread u).isSelect = false ∧ (s.thread u).Waits d o w) ∨
      w ∈ ((s.move K t c e th).mem.chan d).queue o := by
    by_cases hu : u = t
    · subst hu
      rw [Sys.thread_move_self] at hdirect hwaits
      rcases hnext.move.waits_source hwaits with hold | ⟨rfl, he, -⟩
      · exact .inl ⟨hnext.select.symm.trans hdirect, hold⟩
      · refine .inr (Sys.mem_queue_move.2 (.inl ⟨rfl, ?_⟩))
        rcases he with rfl | rfl | rfl <;>
          rw [Effect.queueAfter, Function.update_self] <;>
          exact List.mem_append_right _ (List.mem_singleton.2 rfl)
    · rw [Sys.thread_move_of_ne hu] at hdirect hwaits
      exact .inl ⟨hdirect, hwaits⟩
  rcases hbefore with ⟨hdirect₀, hwaits₀⟩ | hin
  swap
  · exact .inl hin
  have hid := Thread.id_of_waits hwaits₀
  have hstate : s.mem.selectState w.call = none := by
    have hkind := hs.calls.state u w.call hid
    rw [hdirect₀] at hkind
    exact Option.isNone_iff_eq_none.1 (Option.isSome_eq_false_iff.1 hkind)
  rcases h u d o w hdirect₀ hwaits₀ with hw | hhands | hsig
  · by_cases hd : d = c
    swap
    · exact .inl (Sys.mem_queue_move.2 (.inr ⟨hd, hw⟩))
    subst hd
    rcases hnext.move.queue_kept hw with hw | rfl | ⟨rfl, hclaim⟩ | rfl
    · exact .inl (Sys.mem_queue_move.2 (.inl ⟨rfl, hw⟩))
    · -- whoever claims it has it in hand
      refine .inr (.inl ⟨t, w, .claimed d o, ?_, rfl⟩)
      rw [Sys.thread_move_self]
      exact hnext.move.claim_cases.2.2
    · rw [Mem.claimable, hstate] at hclaim
      cases hclaim
    · -- its own call has removed it
      obtain ⟨hwait, hafter⟩ := hnext.move.remove_cases
      obtain rfl := hs.calls.id_inj u t _ hid (Thread.id_of_waits hwait)
      rw [Sys.thread_move_self] at hwaits
      exact absurd hwaits hafter
  · rcases Sys.inHands_move hhands hnext with hhands | ⟨v, st, hhand, hcall, ⟨o', rfl⟩ | rfl⟩
    · exact .inr (.inl hhands)
    · -- a waiter that is put back is the waiter of the call
      have hclaimed := hnext.move.hand_of_putBack
      have hidx : v.idx = 0 := (hs.queues.hand t v st hhand).idx (by rwa [hcall])
      obtain rfl : v = w := Wid.ext hcall (hidx.trans (Thread.idx_of_waits hdirect₀ hwaits₀).symm)
      obtain ⟨rfl, rfl⟩ := Sys.owned_unique hs.calls (hs.queues.claimed t v c o' hclaimed).1 ⟨u, hwaits₀⟩
      refine .inl (Sys.mem_queue_move.2 (.inl ⟨rfl, ?_⟩))
      rw [Effect.queueAfter, Function.update_self]
      exact List.mem_cons_self
    · exact .inr (.inr (Sys.signaled_wake hcall))
  · exact .inr (.inr (Sys.signaled_move hsig))

theorem DirectWaitInv.step (h : DirectWaitInv s) (hs : Sound K s) (hstep : s.Stepped K l s') :
    DirectWaitInv s' := by
  cases hstep with
  | @call t k hidle =>
    intro u d o w hdirect hwaits
    by_cases hu : u = t
    · subst hu
      rw [Sys.thread_startCall_self] at hwaits
      exact absurd hwaits ((Sys.begun_startThread K s.next k).waits d o w)
    · rw [Sys.thread_startCall_of_ne hu] at hdirect hwaits
      exact (h u d o w hdirect hwaits).imp_right
        (.imp_left fun hhands => Sys.inHands_startCall hhands hidle)
  | @ret t alt id r out hdone hret =>
    intro u d o w hdirect hwaits
    by_cases hu : u = t
    · subst hu
      rw [Sys.thread_finishCall_self] at hwaits
      exact hwaits.elim
    · rw [Sys.thread_finishCall_of_ne hu] at hdirect hwaits
      exact (h u d o w hdirect hwaits).imp_right
        (.imp_left fun hhands => Sys.inHands_finishCall hhands hdone.hand)
  | move hnext hacts => exact h.move hs hnext

omit [DecidableEq T] [DecidableEq C] in
theorem DirectWaitInv.init (slots : C → U32 → α) : DirectWaitInv (Sys.init slots : Sys T C α) :=
  fun _ _ _ _ _ hwaits => hwaits.elim

/-! ## The stubs a close finds -/

/-- What holds of stub `w` of queue `o` of channel `c` after it has been queued there: it does not come
back, and while it is queued on the closed channel somebody empties the queue. -/
structure TrackInv (c : C) (o : ChanOp) (w : Wid) (s : Sys T C α) : Prop where
  state : s.mem.selectState w.call ≠ none
  kept : ∀ t, (s.thread t).id? = some w.call → (s.thread t).Hidden → (s.thread t).Waits c o w
  drained : (s.mem.chan c).closed = true → w ∈ (s.mem.chan c).queue o →
    ∃ t id op pc, s.thread t = .direct id c op pc ∧ pc.drains o = true

omit [DecidableEq T] in
/-- A registered stub stays registered while its select may still register others. -/
theorem SelPc.waits_of_hidden {m : Mem T C α} {id : Nat} {cases : List (Case C α)} {timeout : Int}
    {pc pc' : SelPc C α} {i : Nat} (hflow : SelPc.Flow K m t id cases timeout alt pc c e pc')
    (hpc : pc.hidden = true) (hwaits : pc.waits i = true) (hpc' : pc'.hidden = true) :
    pc'.waits i = true := by
  cases pc with
  | stub j =>
    cases hflow with
    | stub hk =>
      have hij : i < j := of_decide_eq_true hwaits
      exact decide_eq_true (Nat.lt_succ_of_lt hij)
    | stubbed hk => cases hpc'
  | lockAll cs k =>
    cases k with
    | ready => cases hwaits
    | clean woken => cases hpc
  | _ => first | (cases hwaits; done) | cases hpc

omit [DecidableEq T] in
theorem TrackInv.kept_move (h : TrackInv c o w s) (hs : Sound K s) {d : C}
    (hnext : (s.thread t).Next K s.mem d th e) (hacts : s.Acts K t alt d e th)
    (hid : th.id? = some w.call) (hhidden : th.Hidden) : th.Waits c o w := by
  have hid₀ : (s.thread t).id? = some w.call := hnext.id.symm.trans hid
  have hsel : (s.thread t).isSelect = true := by
    rw [← hs.calls.state t _ hid₀]
    exact Option.isSome_iff_ne_none.2 h.state
  cases hacts with
  | direct hth hact =>
    rw [hth] at hsel
    cases hsel
  | @select id cases timeout pc pc' k d e hth hact =>
    rcases hnext.hidden hhidden with hold | ⟨_, _, -, -, -, hdirect⟩
    · have hwaits := h.kept t hid₀ hold
      rw [hth] at hwaits hold
      exact ⟨hwaits.1, SelPc.waits_of_hidden (SelPc.flow_of_act hact) hold hwaits.2.1 hhidden,
        hwaits.2.2⟩
    · cases hsel.symm.trans hdirect

omit [DecidableEq T] in
/-- A stub that was queued once does not enter a queue again. -/
theorem TrackInv.not_enters (h : TrackInv c o w s) (hs : Sound K s)
    (hnext : (s.thread t).Next K s.mem c th e) (hacts : s.Acts K t alt c e th)
    (hok : (s.thread t).putBackOk s.mem = true) : ¬ e.enters o w := by
  intro he
  have hstate : ∀ u, (s.thread u).id? = some w.call → (s.thread u).isSelect = true := by
    intro u hu
    rw [← hs.calls.state u _ hu]
    exact Option.isSome_iff_ne_none.2 h.state
  cases hnext.move with
  | enter he' _ _ _ _ hown hhidden hnew =>
    rcases he' with ⟨rfl | rfl, hdirect⟩ | ⟨rfl, -⟩
    · obtain ⟨rfl, rfl⟩ := he
      cases (hstate t hown).symm.trans hdirect
    · obtain ⟨rfl, rfl⟩ := he
      cases (hstate t hown).symm.trans hdirect
    · obtain ⟨rfl, rfl⟩ := he
      exact hnew (h.kept t hown hhidden)
  | putBack =>
    obtain ⟨rfl, rfl⟩ := he
    exact h.state (hacts.state_of_putBack hok)
  | quiet he' =>
    cases e with
    | enroll | stub | requeue | putBack => exact he'.elim
    | _ => exact he.elim
  | settle he' => rcases he' with ⟨r, rfl⟩ | ⟨a, b, x, rfl⟩ <;> exact he.elim
  | _ => exact he.elim

theorem TrackInv.move (h : TrackInv c o w s) (hs : Sound K s) {d : C}
    (hnext : (s.thread t).Next K s.mem d th e) (hacts : s.Acts K t alt d e th)
    (hok : (s.thread t).putBackOk s.mem = true) : TrackInv c o w (s.move K t d e th) where
  state := by
    rw [show (s.move K t d e th).mem.selectState w.call =
      e.stateAfter w.call (s.mem.selectState w.call) from Mem.selectState_apply K s.mem t d e w.call]
    rw [← Option.isSome_iff_ne_none, Effect.isSome_stateAfter]
    exact Option.isSome_iff_ne_none.2 h.state
  kept u hid hhidden := by
    by_cases hu : u = t
    · subst hu
      rw [Sys.thread_move_self] at hid hhidden ⊢
      exact h.kept_move hs hnext hacts hid hhidden
    · rw [Sys.thread_move_of_ne hu] at hid hhidden ⊢
      exact h.kept u hid hhidden
  drained hclosed hw := by
    rcases Sys.mem_queue_cases hw with hw | ⟨rfl, he⟩
    · exact Sys.drains_move hacts (fun hold => h.drained hold hw) (List.ne_nil_of_mem hw) hclosed
    · exact absurd he (h.not_enters hs hnext hacts hok)

theorem TrackInv.step (h : TrackInv c o w s) (hs : Sound K s) (hok : Sys.When Thread.putBackOk s l)
    (hstep : s.Stepped K l s') : TrackInv c o w s' := by
  cases hstep with
  | @call t k hidle =>
    have hlt : w.call ≠ s.next := by
      intro heq
      exact h.state (hs.calls.fresh _ (Nat.le_of_eq heq.symm))
    have hother : ∀ {u}, (∃ id d op pc, s.thread u = .direct id d op pc) →
        (s.startCall K t k).thread u = s.thread u := by
      rintro u ⟨id, d, op, pc, hu⟩
      refine Sys.thread_startCall_of_ne ?_
      rintro rfl
      cases hidle.symm.trans hu
    refine ⟨?_, fun u hid hhidden => ?_, fun hclosed hw => ?_⟩
    · cases k with
      | direct d op => exact h.state
      | select cases timeout =>
        rw [show (s.startCall K t (.select cases timeout)).mem.selectState w.call =
          s.mem.selectState w.call from Function.update_of_ne hlt ..]
        exact h.state
    · by_cases hu : u = t
      · subst hu
        rw [Sys.thread_startCall_self, (Sys.begun_startThread K s.next k).id] at hid
        exact absurd (Option.some.inj hid).symm hlt
      · rw [Sys.thread_startCall_of_ne hu] at hid hhidden ⊢
        exact h.kept u hid hhidden
    · obtain ⟨u, id, op, pc, hu, hpc⟩ := h.drained hclosed hw
      exact ⟨u, id, op, pc, (hother ⟨id, c, op, pc, hu⟩).trans hu, hpc⟩
  | @ret t alt id r out hdone hret =>
    refine ⟨h.state, fun u hid hhidden => ?_, fun hclosed hw => ?_⟩
    · by_cases hu : u = t
      · subst hu
        rw [Sys.thread_finishCall_self] at hid
        cases hid
      · rw [Sys.thread_finishCall_of_ne hu] at hid hhidden ⊢
        exact h.kept u hid hhidden
    · obtain ⟨u, id', op, pc, hu, hpc⟩ := h.drained hclosed hw
      have hut : u ≠ t := by
        rintro rfl
        have hheld : c ∈ (s.thread u).holds K := Sys.held_of_locked hu (Pc.locked_of_drains hpc)
        rw [hdone.holds] at hheld
        cases hheld
      exact ⟨u, id', op, pc, (Sys.thread_finishCall_of_ne hut).trans hu, hpc⟩
  | move hnext hacts => exact h.move hs hnext hacts hok

omit [DecidableEq T] in
theorem TrackInv.start (hs : Sound K s) (hw : w ∈ (s.mem.chan c).queue o)
    (hclosed : (s.mem.chan c).closed = false) (hstate : s.mem.selectState w.call ≠ none) :
    TrackInv c o w s where
  state := hstate
  kept _ hid _ := Sys.waits_of_owned hs.calls (hs.queues.queue c o w hw).owned hid
  drained hopen := by cases hclosed.symm.trans hopen

/-! ## Quiet states -/

omit [DecidableEq T] [DecidableEq C] in
/-- A signalled select that waits has exactly one stub with a result. -/
theorem Sys.Stubs.existsUnique {id n : Nat} (h : s.Stubs id n) (hsig : s.mem.signaled id = true) :
    ∃! i, i < n ∧ (s.mem.waiter ⟨id, i⟩).result ≠ .wouldblock := by
  obtain ⟨i₀, hone⟩ := h.one
  obtain ⟨i, hi, hresult⟩ := h.signal hsig
  have hall : ∀ j, (s.mem.waiter ⟨id, j⟩).result ≠ .wouldblock → j = i₀ := by
    intro j hj
    by_contra hne
    exact hj (hone j hne).1.result
  refine ⟨i, ⟨hi, hresult⟩, ?_⟩
  rintro j ⟨-, hj⟩
  rw [hall j hj, hall i hresult]

omit [DecidableEq T] [DecidableEq C] in
theorem ClaimInv.init (slots : C → U32 → α) : ClaimInv (Sys.init slots : Sys T C α) := by
  intro id h
  cases h

/-- A select that is waiting for its case `i` when the channel is open is still waiting for it at its
park later on. -/
theorem Sys.waits_at_park {ok : Sys T C α → Label T C α → Prop} {s₁ : Sys T C α}
    (hs₁ : Valid K s₁) (hrun : Reaches (Sys.step K) ok s₁ s) {id i : Nat}
    {cases : List (Case C α)} {timeout : Int} (hpark : s.thread t = .select id cases timeout .park)
    (howned : s₁.Owned c o ⟨id, i⟩) :
    s₁.mem.selectState id ≠ none ∧ (s.thread t).Waits c o ⟨id, i⟩ := by
  obtain ⟨u, hwaits⟩ := howned
  have hid : (s₁.thread u).id? = some id := Thread.id_of_waits hwaits
  obtain ⟨k, hcall⟩ := Thread.call_of_id hid
  -- the call that waits in the earlier state is the select that is parked now
  obtain ⟨hs, hevent⟩ := Sys.valid_from (P := fun s => .call id u k ∈ s.events) hrun hs₁
    (hs₁.hist.running u id k hcall) fun _ _ _ _ h _ hstep => hstep.mem_events h
  obtain ⟨-, rfl⟩ := hs.hist.call_inj id u t k (.select cases timeout) hevent
    (hs.hist.running t id _ (by rw [hpark]; rfl))
  obtain ⟨pc, hu⟩ := Thread.select_of_call hcall
  constructor
  · have hstate := hs₁.calls.state u id hid
    rw [hu] at hstate
    exact Option.isSome_iff_ne_none.1 hstate
  · rw [hu] at hwaits
    rw [hpark]
    exact ⟨rfl, rfl, hwaits.2.2⟩

/-- A claimed select in runs of `Sys` in which no stub is put back into its queue. -/
theorem Sys.claimed_completed (K : Config T C) (slots : C → U32 → α) (s₁ s : Sys T C α)
    (hrun₁ : Reaches (Sys.step K) (Sys.When Thread.putBackOk) (Sys.init slots) s₁)
    (hrun : Reaches (Sys.step K) (Sys.When Thread.putBackOk) s₁ s)
    (hfree : ∀ c, (s.mem.chan c).lock = none) (hhands : ∀ u, (s.thread u).hand = none)
    (t : T) (id : Nat) (cases : List (Case C α)) (timeout : Int)
    (hpark : s.thread t = .select id cases timeout .park) :
    (s.mem.selectState id = some true →
      (∃! i, i < cases.length ∧ (s.mem.waiter ⟨id, i⟩).result ≠ .wouldblock) ∧
        s.mem.signaled id = true) ∧
    ∀ c o i, ⟨id, i⟩ ∈ (s₁.mem.chan c).queue o → (s₁.mem.chan c).closed = false →
      ∀ id₀ e out, s.Answered id₀ (.direct c .close) (.err e) out → s.mem.signaled id = true := by
  have hinv : ∀ (a : Sys T C α) l b, Valid K a → ClaimInv a ∧ WaitInv a → Sys.When Thread.putBackOk a l →
      a.Stepped K l b → ClaimInv b ∧ WaitInv b := fun _ _ _ hv h hok hstep =>
    ⟨h.1.step hok hstep, h.2.step hv.toSound hstep⟩
  obtain ⟨hv₁, h₁⟩ := Sys.valid hrun₁ ⟨ClaimInv.init slots, WaitInv.init slots⟩ hinv
  obtain ⟨hv, hclaim, hwait⟩ := Sys.valid_from hrun hv₁ h₁ hinv
  have hsignal : s.mem.selectState id = some true → s.mem.signaled id = true := by
    intro hstate
    rcases hclaim id hstate with hsig | ⟨u, w, st, hhand, -⟩
    · exact hsig
    · cases (hhands u).symm.trans hhand
  refine ⟨fun hstate => ⟨?_, hsignal hstate⟩, fun c o i hw hopen id₀ e out hclose => ?_⟩
  · exact (hv.selects.running t id cases timeout _ hpark).existsUnique (hsignal hstate)
  · obtain ⟨hstate, hwaits⟩ := Sys.waits_at_park hv₁ hrun hpark (hv₁.queues.queue c o _ hw).owned
    have htrack := (Sys.valid_from hrun hv₁ (TrackInv.start hv₁.toSound hw hopen hstate)
      fun _ _ _ hv h hok hstep => h.step hv.toSound hok hstep).2
    have hclosed : (s.mem.chan c).closed = true := by
      apply hv.shut.returned id₀ _ _ out hclose
      simp [Ret.shut, Op.isClose]
    -- the stub has left the queue, since whoever empties it would hold the lock
    rcases hwait t c o _ (by rw [hpark]; rfl) hwaits with hqueued | hclaimed
    · obtain ⟨u, id', op, pc, hu, hpc⟩ := htrack.drained hclosed hqueued
      have hheld : c ∈ (s.thread u).holds K := Sys.held_of_locked hu (Pc.locked_of_drains hpc)
      cases (hfree c).symm.trans ((hv.locks.lock c u).2 hheld)
    · exact hsignal hclaimed

omit [DecidableEq C] [DecidableEq T] in
/-- Which calls are selects is the same for those who look at the frames. -/
theorem StackSys.putBackOk_iff {r : StackSys T C α} {l : Label T C α} :
    Sys.When Thread.putBackOk r.seen l ↔ Sys.When Thread.putBackOk r.sys l := by
  have hview : ∀ th : Thread C α, th.putBackOk r.view = th.putBackOk r.sys.mem := by
    intro th
    unfold Thread.putBackOk
    split <;> first | exact Option.isNone_map | rfl
  cases l with
  | call t k => exact Iff.rfl
  | go t alt =>
    show (r.sys.thread t).putBackOk r.view = true ↔ _
    rw [hview]
    rfl

/-- Runs in which no stub of a select is put back into its queue and no call sets up its waiters in a frame
that somebody is still about to signal: in a state in which no channel is locked and nobody has a waiter
in hand, a parked select that has been claimed has exactly one stub with a result and has been signalled;
and when `chan_close` has returned, every parked select that had a stub in a queue of the channel before
it was closed has been signalled. -/
theorem claimed_select_completed (K : Config T C) (slots : C → U32 → α) (r₁ r : StackSys T C α)
    (hrun₁ : Reaches (StackSys.step K) (fun r l => Sys.When Thread.putBackOk r.seen l.label ∧ r.ReuseOk l)
      (StackSys.init slots) r₁)
    (hrun : Reaches (StackSys.step K) (fun r l => Sys.When Thread.putBackOk r.seen l.label ∧ r.ReuseOk l)
      r₁ r)
    (hfree : ∀ c, (r.seen.mem.chan c).lock = none) (hhands : ∀ u, (r.seen.thread u).hand = none)
    (t : T) (id : Nat) (cases : List (Case C α)) (timeout : Int)
    (hpark : r.seen.thread t = .select id cases timeout .park) :
    (r.seen.mem.selectState id = some true →
      (∃! i, i < cases.length ∧ (r.seen.mem.waiter ⟨id, i⟩).result ≠ .wouldblock) ∧
        r.seen.mem.signaled id = true) ∧
    ∀ c o i, ⟨id, i⟩ ∈ (r₁.seen.mem.chan c).queue o → (r₁.seen.mem.chan c).closed = false →
      ∀ id₀ e out, r.seen.Answered id₀ (.direct c .close) (.err e) out →
        r.seen.mem.signaled id = true := by
  have hok : ∀ (r : StackSys T C α) l, StackInv K r →
      (Sys.When Thread.putBackOk r.seen l.label ∧ r.ReuseOk l) →
      r.ReuseOk l ∧ Sys.When Thread.putBackOk r.sys l.label :=
    fun _ _ _ h => ⟨h.2, StackSys.putBackOk_iff.1 h.1⟩
  obtain ⟨hsys₁, hinv₁⟩ := StackSys.reaches_sys _ (.init slots) hok hrun₁
  obtain ⟨hsys, hinv⟩ := StackSys.reaches_sys _ hinv₁ hok hrun
  obtain ⟨hwaiter, hsignal, hstate⟩ := hinv.view_parked hpark
  obtain ⟨hfirst, hsecond⟩ := Sys.claimed_completed K slots r₁.sys r.sys hsys₁ hsys hfree hhands t id cases
    timeout hpark
  constructor
  · intro hclaimed
    obtain ⟨⟨i, ⟨hi, hres⟩, huniq⟩, hsig⟩ := hfirst (hstate ▸ hclaimed)
    refine ⟨⟨i, ⟨hi, ?_⟩, ?_⟩, hsignal.trans hsig⟩
    · show (r.view.waiter ⟨id, i⟩).result ≠ .wouldblock
      rwa [hwaiter i hi]
    · rintro j ⟨hj, hres'⟩
      refine huniq j ⟨hj, ?_⟩
      rwa [← hwaiter j hj]
  · intro c o i hw hopen id₀ e out hclose
    refine hsignal.trans (hsecond c o i ?_ hopen id₀ e out hclose)
    rwa [← hinv₁.queue_eq]

end Claim

/-- A select that waits to receive is woken by `chan_close`. An earlier one of the thread has had the same
frame and has expired. -/
theorem claimed_select_completed_close :
    ∃ r₁ r : StackSys (Fin 3) Unit Nat,
      Reaches (StackSys.step bufferedOne) (fun r l => Sys.When Thread.putBackOk r.seen l.label ∧
        r.ReuseOk l) (StackSys.init fun _ _ => 0) r₁ ∧
      Reaches (StackSys.step bufferedOne) (fun r l => Sys.When Thread.putBackOk r.seen l.label ∧
        r.ReuseOk l) r₁ r ∧
      (r₁.home 1 = r₁.home 0 ∧ ⟨1, 0⟩ ∈ (r₁.seen.mem.chan ()).queue .recv) ∧
      (∃! i, i < 1 ∧ (r.seen.mem.waiter ⟨1, i⟩).result ≠ .wouldblock) ∧
      r.seen.mem.signaled 1 = true := by
  obtain ⟨r₁, hr₁, ⟨hhome, hw, hopen⟩, hexec⟩ := StackSys.exists_reaches bufferedOne
    (fun _ _ => (0 : Nat)) (fun r l => Sys.When Thread.putBackOk r.seen l.label ∧ r.ReuseOk l)
    (List.flatten [
      [.call 0 (.select [⟨(), none⟩] 5) 0], List.replicate 15 (.go 0 false),
      [.go 0 true], List.replicate 7 (.go 0 false),
      [.call 0 (.select [⟨(), none⟩] (-1)) 0], List.replicate 15 (.go 0 false)])
    (fun r₁ => (r₁.home 1 = r₁.home 0 ∧ (⟨1, 0⟩ : Wid) ∈ (r₁.seen.mem.chan ()).queue .recv ∧
        (r₁.seen.mem.chan ()).closed = false) ∧
      (exec (StackSys.step bufferedOne)
        (fun r l => Sys.When Thread.putBackOk r.seen l.label ∧ r.ReuseOk l) r₁
        (.call 1 (.direct () .close) 1 :: List.replicate 12 (.go 1 false))).any
        (fun r => decide (((∀ c, (r.seen.mem.chan c).lock = none) ∧
            ∀ u, (r.seen.thread u).hand.isNone = true) ∧
          ((r.seen.thread 0).call? = some (1, .select [⟨(), none⟩] (-1)) ∧
            (r.seen.thread 0).parked = true) ∧
          r.seen.mem.selectState 1 = some true ∧ Event.call 2 1 (.direct () .close) ∈ r.seen.events ∧
          Event.ret 2 1 (.err .ok) [] ∈ r.seen.events)) = true)
    (by decide +kernel)
  obtain ⟨r, hr, ⟨hfree, hhands⟩, ⟨hcall₀, hpark⟩, hstate, hcall, hret⟩ :=
    exists_reaches_of_exec _ _ hexec
  have hall := claimed_select_completed bufferedOne _ r₁ r hr₁ hr hfree
    (fun u => Option.isNone_iff_eq_none.1 (hhands u)) 0 1 _ _ (Thread.select_of_parked hcall₀ hpark)
  exact ⟨r₁, r, hr₁, hr, ⟨hhome, hw⟩, (hall.1 hstate).1,
    hall.2 () .recv 0 hw hopen 2 .ok [] ⟨1, hcall, hret⟩⟩

/-- A sender claims the stub of a select for the element in the ring, but another receiver takes the
element first. The stub is put back, claimed, and `chan_close` drops it without waking the select. -/
theorem claimed_select_stranded :
    ∃ s₁ s : Sys (Fin 3) Unit Nat,
      Reaches (Sys.step bufferedOne) Always (Sys.init fun _ _ => 0) s₁ ∧
      Reaches (Sys.step bufferedOne) Always s₁ s ∧
      (⟨0, 0⟩ ∈ (s₁.mem.chan ()).queue .recv ∧ (s₁.mem.chan ()).closed = false) ∧
      ((∀ c, (s.mem.chan c).lock = none) ∧ ∀ u, (s.thread u).hand = none) ∧
      s.thread 0 = .select 0 [⟨(), none⟩] (-1) .park ∧ s.mem.selectState 0 = some true ∧
      (s.mem.waiter ⟨0, 0⟩).result = .wouldblock ∧ s.mem.signaled 0 = false ∧
      s.Answered 4 (.direct () .close) (.err .ok) [] := by
  obtain ⟨s₁, hs₁, hw, hexec⟩ := Sys.exists_reaches bufferedOne (fun _ _ => (0 : Nat)) Always
    (.call 0 (.select [⟨(), none⟩] (-1)) :: List.replicate 15 (.go 0 false))
    (fun s₁ => ((⟨0, 0⟩ : Wid) ∈ (s₁.mem.chan ()).queue .recv ∧ (s₁.mem.chan ()).closed = false) ∧
      (exec (Sys.step bufferedOne) Always s₁ (List.flatten
        -- the stub is not counted, so a send passes it; the next one finds the ring full
        [[.call 1 (.direct () (.send 7 (-1)))], List.replicate 11 (.go 1 false),
         [.call 2 (.direct () (.send 8 0))], List.replicate 12 (.go 2 false),
         [.call 1 (.direct () (.recv (-1)))], List.replicate 10 (.go 1 false),
         List.replicate 5 (.go 2 false),
         [.call 1 (.direct () .close)], List.replicate 8 (.go 1 false)])).any
        (fun s => decide (((∀ c, (s.mem.chan c).lock = none) ∧
            ∀ u, (s.thread u).hand.isNone = true) ∧
          ((s.thread 0).call? = some (0, .select [⟨(), none⟩] (-1)) ∧ (s.thread 0).parked = true) ∧
          (s.mem.selectState 0 = some true ∧ (s.mem.waiter ⟨0, 0⟩).result = .wouldblock ∧
            s.mem.signaled 0 = false) ∧
          Event.call 4 1 (.direct () .close) ∈ s.events ∧
          Event.ret 4 1 (.err .ok) [] ∈ s.events)) = true)
    (by decide +kernel)
  obtain ⟨s, hs, ⟨hfree, hhands⟩, ⟨hcall₀, hpark⟩, ⟨hstate, hresult, hsig⟩, hcall, hret⟩ :=
    exists_reaches_of_exec _ _ hexec
  exact ⟨s₁, s, hs₁, hs, hw,
    ⟨hfree, fun u => Option.isNone_iff_eq_none.1 (hhands u)⟩,
    Thread.select_of_parked hcall₀ hpark, hstate, hresult, hsig, 1, hcall, hret⟩

end LibChan
