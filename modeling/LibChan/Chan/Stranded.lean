import LibChan.Chan.Attended
import LibChan.Chan.Claimed
import LibChan.Chan.ExactlyOnce

/-!
# Stranded waiters

A state is at rest if every thread is idle or parked with no wake under way. On a buffered channel a
parked receiver should then mean an empty ring and a parked sender a full one. Both fail after a sender has
registered beside a queued receiver, which takes a slot that is reserved and not yet committed: the ring
was full for the sender and empty for the receiver. Who then hands the element over to the receiver does
not look at the senders. A select that commits in its lock-free path strands a direct waiter that has
registered after the select has read the waiter counts.

The positive results are read off `AttendValid`, which holds in every run without these steps.
-/

set_option autoImplicit false

namespace LibChan

variable {T C α : Type}

/-- The thread is idle, or parked with no wake signalled. -/
def Thread.resting (m : Mem T C α) (th : Thread C α) : Bool :=
  match th with
  | .idle => true
  | .direct id _ _ _ | .select id _ _ _ => th.parked && !m.signaled id

/-- No thread is in the middle of an operation. -/
def Sys.AtRest (s : Sys T C α) : Prop := ∀ t, (s.thread t).resting s.mem = true

instance [Fintype T] (s : Sys T C α) : Decidable s.AtRest :=
  inferInstanceAs (Decidable (∀ t, (s.thread t).resting s.mem = true))

/-- The thread is parked in a direct receive on `c`, and its waiter is in the queue. -/
def Sys.ParkedRecv (s : Sys T C α) (c : C) (t : T) : Prop :=
  ∃ id time, s.thread t = .direct id c (.recv time) .park ∧ ⟨id, 0⟩ ∈ (s.mem.chan c).queue .recv

/-- The thread is parked in a direct send on `c`, and its waiter is in the queue. -/
def Sys.ParkedSend (s : Sys T C α) (c : C) (t : T) : Prop :=
  ∃ id x time, s.thread t = .direct id c (.send x time) .park ∧ ⟨id, 0⟩ ∈ (s.mem.chan c).queue .send

/-- The label is a call of `chan_close` on `c`. -/
def Label.closes [DecidableEq C] (c : C) : Label T C α → Bool
  | .call _ (.direct d .close) => decide (d = c)
  | _ => false

/-- Nobody has called `chan_close` on `c`. -/
structure OpenInv (c : C) (s : Sys T C α) : Prop where
  closed : (s.mem.chan c).closed = false
  call : ∀ t id pc, s.thread t ≠ .direct id c .close pc

section Rest

variable [DecidableEq T] [DecidableEq C] {K : Config T C} {s s' : Sys T C α} {l : Label T C α}
  {t : T} {c : C} {o : ChanOp}

omit [DecidableEq T] [DecidableEq C] in
theorem Sys.ParkedRecv.asleep (h : s.ParkedRecv c t) : s.Asleep c .recv := by
  obtain ⟨id, time, hth, hmem⟩ := h
  exact ⟨t, id, .recv time, .park, hth, rfl, rfl, Or.inl hmem⟩

omit [DecidableEq T] [DecidableEq C] in
theorem Sys.ParkedSend.asleep (h : s.ParkedSend c t) : s.Asleep c .send := by
  obtain ⟨id, x, time, hth, hmem⟩ := h
  exact ⟨t, id, .send x time, .park, hth, rfl, rfl, Or.inl hmem⟩

omit [DecidableEq T] [DecidableEq C] in
/-- At rest, nobody looks after a queue. -/
theorem Sys.AtRest.not_owes (h : s.AtRest) : ¬ (s.thread t).Owes c o := by
  have ht := h t
  cases hth : s.thread t with
  | idle => rintro (hnot | hnot | ⟨-, hnot⟩) <;> exact hnot.elim
  | direct id d op pc =>
    rw [hth] at ht
    cases pc with
    | park | repark => rintro (hnot | hnot | ⟨-, hnot⟩) <;> exact hnot.elim
    | _ => cases ht
  | select id cases timeout pc =>
    rw [hth] at ht
    cases pc with
    | park => rintro (hnot | hnot | ⟨-, hnot⟩) <;> exact hnot.elim
    | _ => cases ht

omit [DecidableEq T] [DecidableEq C] in
/-- At rest, nobody is in a ring operation. -/
theorem Sys.AtRest.ring_eq_none (h : s.AtRest) (t : T) : (s.thread t).ring? = none := by
  have ht := h t
  cases hth : s.thread t with
  | idle => rfl
  | direct id d op pc =>
    rw [hth] at ht
    cases pc with
    | park | repark => rfl
    | _ => cases ht
  | select id cases timeout pc =>
    rw [hth] at ht
    cases pc with
    | park => rfl
    | _ => cases ht

omit [DecidableEq T] in
/-- At rest, every reservation is committed. -/
theorem Sys.AtRest.committed_eq (h : s.AtRest) (hring : s.RingSound K c) (o : ChanOp) :
    (s.mem.chan c).hist.committed o = (s.mem.chan c).hist.reserved o := by
  apply Nat.le_antisymm (hring.ordered.window o).2.1
  by_contra hlt
  obtain ⟨t, p, k, hp, -⟩ := hring.covers o _ (Nat.le_refl _) (Nat.lt_of_not_le hlt)
  cases (Thread.ringOn_of_none (h.ring_eq_none t)).symm.trans hp

omit [DecidableEq T] in
/-- At rest, a sleeper has nothing to do. -/
theorem AttendValid.room_eq_zero (h : AttendValid K c s) (hrest : s.AtRest) (hasleep : s.Asleep c o) :
    s.room K c o = 0 := by
  rcases h.attend.owed o hasleep with ⟨t, ht⟩ | hzero
  · exact absurd ht hrest.not_owes
  · exact hzero

omit [DecidableEq T] in
/-- At rest, a parked receiver waits at an empty ring. -/
theorem AttendValid.empty (h : AttendValid K c s) (hrest : s.AtRest) (hparked : s.ParkedRecv c t) :
    ((s.mem.chan c).ring.cur .send).tail = ((s.mem.chan c).ring.cur .recv).head ∧
      (s.mem.chan c).inRing = [] := by
  have hzero := h.room_eq_zero hrest hparked.asleep
  rw [Sys.room, RingGhost.room] at hzero
  have hle := h.ring.ordered.cons_le_prod
  have hsame := hrest.committed_eq h.ring .send
  have heq : (s.mem.chan c).hist.committed .send = (s.mem.chan c).hist.reserved .recv := by omega
  refine ⟨by rw [h.ring.tail_eq, h.ring.head_eq, heq], List.drop_of_length_le ?_⟩
  exact (hsame.symm.trans heq).le

omit [DecidableEq T] in
/-- Nobody waits beside a direct waiter of the other side. -/
theorem AttendValid.queue_eq_nil (h : AttendValid K c s) (hparked : s.ParkedRecv c t) :
    (s.mem.chan c).queue .send = [] := by
  obtain ⟨id, time, hth, hmem⟩ := hparked
  rw [List.eq_nil_iff_forall_not_mem]
  intro w hw
  exact h.apart.lone t id (.recv time) .park hth (Or.inl hmem) w (Or.inl hw)

theorem OpenInv.step (h : OpenInv c s) (hs : Sound K s) (hl : l.closes c = false)
    (hstep : s.Stepped K l s') : OpenInv c s' := by
  cases hstep with
  | @call u k hidle =>
    refine ⟨h.closed, fun t id pc hth => ?_⟩
    by_cases ht : t = u
    · subst ht
      rw [Sys.thread_startCall_self] at hth
      cases k with
      | select cases timeout => cases hth
      | direct d op =>
        cases hth
        exact of_decide_eq_false hl rfl
    · rw [Sys.thread_startCall_of_ne ht] at hth
      exact h.call t id pc hth
  | @ret u alt id r out hdone hret =>
    refine ⟨h.closed, fun t id pc hth => ?_⟩
    by_cases ht : t = u
    · subst ht
      rw [Sys.thread_finishCall_self] at hth
      cases hth
    · rw [Sys.thread_finishCall_of_ne ht] at hth
      exact h.call t id pc hth
  | @move u alt d e th hnext hacts =>
    refine ⟨Bool.eq_false_iff.2 fun hclosed => ?_, fun t id pc hth => ?_⟩
    · rcases Sys.closed_move.1 hclosed with hold | ⟨rfl, rfl⟩
      · cases h.closed.symm.trans hold
      · -- only `chan_close` closes
        cases hacts with
        | direct hth hact =>
          generalize he : (Effect.setClosed : Effect α) = e at hact
          cases Pc.flow_of_act hact with
          | closeStore =>
            obtain rfl := hs.direct_ok hth
            exact h.call u _ _ hth
          | _ => cases he
        | select hth hact =>
          cases SelPc.flow_of_act hact with
          | pick _ _ he => rcases he with he | ⟨v, he⟩ <;> cases he
          | execGo hk hexec => cases hexec
          | execDone hk hexec => cases hexec
    · obtain ⟨pc₀, hth₀⟩ := hacts.direct_before hth
      exact h.call t id pc₀ hth₀

end Rest

/-! ## Direct calls -/

end LibChan
