import LibChan.Chan.RingUse
import LibChan.Chan.Wakes

/-!
# What a select does

A select has an effect on one case at most, whatever the other threads do (`select_one_case`).
-/

set_option autoImplicit false

namespace LibChan

variable {T C α : Type}

/-- Case `i` of the select `id` has moved an element, or its stub has got a result. -/
def Sys.TookEffect (s : Sys T C α) (id i : Nat) : Prop :=
  s.mem.Took ⟨id, i⟩ ∨ (s.mem.waiter ⟨id, i⟩).result ≠ .wouldblock

section Run

variable [DecidableEq T] [DecidableEq C] {K : Config T C} {s s' : Sys T C α} {l : Label T C α}

omit [DecidableEq T] [DecidableEq C] in
theorem Sys.not_tookEffect {id i : Nat} (h : s.Untouched ⟨id, i⟩) : ¬ s.TookEffect id i := by
  rintro (htook | hres)
  · exact h.took htook
  · exact hres h.result

theorem Sys.Stepped.mem_events (hstep : s.Stepped K l s') {ev : Event T C α} (h : ev ∈ s.events) :
    ev ∈ s'.events := by
  cases hstep with
  | call hidle => exact Sys.mem_events_startCall.2 (Or.inl h)
  | ret hdone hret => exact Sys.mem_events_finishCall.2 (Or.inl h)
  | move hnext hacts => exact h

omit [DecidableEq T] [DecidableEq C] in
/-- At each place a select has moved elements for one case at most. -/
theorem SelPc.exists_got {id : Nat} {cases : List (Case C α)} {pc : SelPc C α}
    (hok : pc.Ok K id cases) : ∃ i₀, ∀ i, ⟨id, i⟩ ∈ pc.got id → i = i₀ := by
  have hret : ∀ r, ∃ i₀, ∀ i, ⟨id, i⟩ ∈ gotOf id r → i = i₀ := by
    intro r
    cases r with
    | sel winner e =>
      cases winner with
      | none => exact ⟨0, fun i hi => by cases hi⟩
      | some j => exact ⟨j, fun i hi => congrArg Wid.idx (eq_of_gotOf hi)⟩
    | _ => exact ⟨0, fun i hi => by cases hi⟩
  cases pc with
  | fast2 start j st =>
    cases st with
    | ring p =>
      obtain ⟨k, -, -, hruns⟩ := hok
      refine ⟨index2 cases start j, fun i hi => ?_⟩
      have hmem := RingPc.mem_wids_of_got hi
      rw [(hruns p rfl).1] at hmem
      exact congrArg Wid.idx (Case.call_of_ringOp hmem)
    | _ => exact ⟨0, fun i hi => by cases hi⟩
  | exec i st =>
    obtain ⟨k, -, hok⟩ := hok
    exact ⟨i, fun j hj => congrArg Wid.idx (ExecPc.eq_of_got hok hj)⟩
  | unlockAll cs next =>
    cases next with
    | ret r => exact hret r
    | park => exact ⟨0, fun i hi => by cases hi⟩
  | ret r => exact hret r
  | _ => exact ⟨0, fun i hi => by cases hi⟩

omit [DecidableEq T] [DecidableEq C] in
theorem Sys.Decided.exists_case {id : Nat} {r : Ret} (h : s.Decided id r) :
    ∃ i₀, ∀ i, i ≠ i₀ → s.Untouched ⟨id, i⟩ := by
  unfold Sys.Decided at h
  split at h
  · exact ⟨_, h⟩
  · exact h

omit [DecidableEq T] [DecidableEq C] in
theorem Sys.Stubs.exists_case {id n : Nat} (h : s.Stubs id n) :
    ∃ i₀, ∀ i, i ≠ i₀ → s.Untouched ⟨id, i⟩ := by
  obtain ⟨i₀, h₀⟩ := h.one
  exact ⟨i₀, fun i hi => (h₀ i hi).1⟩

omit [DecidableEq T] [DecidableEq C] in
/-- At each place a select leaves all cases but one untouched. -/
theorem SelPc.Inv.exists_case {id : Nat} {cases : List (Case C α)} {pc : SelPc C α}
    (h : pc.Inv s id cases.length) (hok : pc.Ok K id cases) :
    ∃ i₀, ∀ i, i ≠ i₀ → s.Untouched ⟨id, i⟩ := by
  have hun : s.Unregistered id (pc.got id) → ∃ i₀, ∀ i, i ≠ i₀ → s.Untouched ⟨id, i⟩ := by
    intro hw
    obtain ⟨i₀, h₀⟩ := SelPc.exists_got hok
    exact ⟨i₀, fun i hi => ⟨fun htook => hi (h₀ i ((hw i).2 htook)), (hw i).1⟩⟩
  cases pc with
  | unlockAll cs k =>
    cases k with
    | ret r => exact Sys.Decided.exists_case h
    | park => exact Sys.Stubs.exists_case h
  | ret r => exact Sys.Decided.exists_case h
  | park => exact Sys.Stubs.exists_case h
  | lockAll cs k =>
    cases k with
    | ready => exact hun h
    | clean woken => exact h.1.exists_case
  | clean i woken winner => exact h.1.exists_case
  | _ => exact hun h

omit [DecidableEq T] in
/-- The one case of a select that may have an effect. -/
theorem SelectInv.exists_case (h : SelectInv s) (hs : Sound K s) {id : Nat} {t : T}
    {cases : List (Case C α)} {timeout : Int}
    (hcall : .call id t (.select cases timeout) ∈ s.events) :
    ∃ i₀, ∀ i, s.TookEffect id i → i = i₀ := by
  have hone : ∃ i₀, ∀ i, i ≠ i₀ → s.Untouched ⟨id, i⟩ := by
    rcases hs.hist.pending id t _ hcall with hrun | ⟨r, out, hret⟩
    · obtain ⟨pc, hth⟩ := Thread.select_of_call hrun
      have hok := hs.ok t
      rw [hth] at hok
      exact (h.running t id cases timeout pc hth).exists_case hok
    · exact (h.returned id cases timeout r out ⟨t, hcall, hret⟩).exists_case
  obtain ⟨i₀, h₀⟩ := hone
  refine ⟨i₀, fun i hi => ?_⟩
  by_contra hne
  exact Sys.not_tookEffect (h₀ i hne) hi

end Run

/-- No element has been moved for the cases of a select. -/
def Sys.Unmoved (s : Sys T C α) (id n : Nat) : Prop := ∀ i < n, ¬ s.mem.Took ⟨id, i⟩

/-- The return of `-1`. -/
def Ret.isNone : Ret → Bool
  | .sel none _ => true
  | _ => false

/-- The places at which a select is going to report nothing. -/
def SelPc.reportsNone : SelPc C α → Bool
  | unlockAll _ (.ret r) => r.isNone
  | ret r => r.isNone
  | clean _ false _ => true
  | _ => false

/-- A thread that is going to report nothing has moved nothing. -/
def Thread.Unmoved (s : Sys T C α) : Thread C α → Prop
  | .select id cases _ pc => pc.reportsNone = true → s.Unmoved id cases.length
  | _ => True

/-- A call that has reported nothing has moved nothing. -/
def Call.Unmoved (s : Sys T C α) (id : Nat) (k : Call C α) (r : Ret) : Prop :=
  match k with
  | .select cases _ => r.isNone = true → s.Unmoved id cases.length
  | .direct _ _ => True

section Run

variable [DecidableEq T] [DecidableEq C] {K : Config T C} {s s' : Sys T C α} {l : Label T C α}

omit [DecidableEq T] in
/-- A select that holds the locks of all its cases shares no stub with other hands. -/
theorem Sound.not_claimed_of_held (hs : Sound K s) {u u' : T} {id : Nat} {cases : List (Case C α)}
    {timeout : Int} {pc : SelPc C α} (hth : s.thread u = .select id cases timeout pc)
    (hheld : pc.held K cases = SelPc.locks K cases) (hnone : pc.hand cases = none) {w : Wid} {d : C}
    {o : ChanOp} (hhand : (s.thread u').hand = some (w, .claimed d o)) : w.call ≠ id := by
  rintro rfl
  have hwaits := Sys.waits_of_owned hs.calls (hs.queues.claimed u' w d o hhand).1 (t := u)
    (by rw [hth]; rfl)
  rw [hth] at hwaits
  obtain ⟨-, -, k, hk, rfl, -⟩ := hwaits
  have hu : k.chan ∈ (s.thread u).holds K := by
    rw [hth, Thread.holds, hheld]
    exact SelPc.mem_locks hk
  obtain rfl := hs.locks.holds_inj hu (Thread.mem_holds_of_hand hhand (Or.inl rfl))
  rw [hth, Thread.hand, hnone] at hhand
  cases hhand

/-- Nothing is moved for a call that is neither running here nor in someone's hands. -/
theorem Sys.Unmoved.move {id n : Nat} (h : s.Unmoved id n) (hs : Sound K s) {t : T} {alt : Bool}
    {c : C} {e : Effect α} {th : Thread C α} (hacts : s.Acts K t alt c e th)
    (hid : (s.thread t).id? ≠ some id)
    (hhand : ∀ w o, (s.thread t).hand = some (w, .claimed c o) → w.call ≠ id) :
    (s.move K t c e th).Unmoved id n := by
  intro i hi htook
  rcases Sys.took_move.1 htook with hold | hgrant
  · exact h i hi hold
  · rcases hacts.grants (hs.ok t) hgrant with ⟨hown, -⟩ | ⟨o, ho, -⟩
    · exact hid hown
    · exact hhand _ o ho rfl

end Run

end LibChan
