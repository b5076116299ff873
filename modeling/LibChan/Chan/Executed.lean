import LibChan.Chan.Transfer
import LibChan.Chan.Truth
import LibChan.Chan.Claimed

/-!
# What `execute_case_locked` reports

A select that runs a ready case under the locks of its channels, while lock-free operations go on. When
the ring operations of the locked code do not fail and it wakes no receiver after a push, a case that
is reported with `CHAN_OK` has moved exactly one element, and so has every waiter it wakes
(`executed_truly`). The code does not look at the results of its ring operations: a receive that loses
the race for the only element still reports `CHAN_OK` (`executed_untruly`).
-/

set_option autoImplicit false

namespace LibChan

variable {T C α : Type}

/-- The waiter that `execute_case_locked` is about to wake. -/
def Thread.waking? : Thread C α → Option Wid
  | .select _ _ _ (.exec _ (.wake w)) => some w
  | _ => none

/-- Every waiter about to be woken by `execute_case_locked` has moved an element. -/
def Sys.WakesServed (s : Sys T C α) : Prop := ∀ t, ∀ w ∈ (s.thread t).waking?, s.mem.Took w

section Step

variable [DecidableEq T] [DecidableEq C] {K : Config T C} {s s' : Sys T C α} {l : Label T C α}
  {t : T} {c : C} {w : Wid}

omit [DecidableEq T] in
/-- The steps that lead to a wake: the hand-over itself, or the settling of a waiter that was served. -/
theorem Sys.Acts.waking {alt : Bool} {e : Effect α} {th : Thread C α} (hacts : s.Acts K t alt c e th)
    (hw : w ∈ th.waking?) : w ∈ (s.thread t).handGot ∨ w ∈ (s.mem.chan c).grants e := by
  cases hacts with
  | direct hth hact => cases hw
  | select hth hact =>
    rw [hth]
    cases SelPc.flow_of_act hact with
    | execGo hk hexec =>
      cases hexec with
      | copySend hx =>
        cases hw
        exact Or.inr (List.mem_cons_of_mem _ (List.mem_singleton_self w))
      | copyRecv hnone hx =>
        cases hw
        exact Or.inr List.mem_cons_self
      | settle =>
        cases hw
        exact Or.inl (List.mem_singleton_self w)
      | _ => cases hw
    | pick hk hmem he hst =>
      subst hst
      rcases SelPc.execFrom_cases (K := K) s.mem ⟨_, _⟩ _ with hst | hst | hst
      · rw [hst] at hw
        cases hw
      · rw [hst] at hw
        cases hw
      · rw [hst] at hw
        cases hw
    | fast1Skip hk hstep | fast2Start hstep | fast2Skip hk hcnt hstep
    | fast2Miss hk hp hres hstep => cases hstep <;> cases hw
    | pass hpass | readyNot hk hpass | readySend hk hop hopen hpass
    | readyShut hk hop hclosed hpass | readyYes hk hst hpass => cases hpass <;> cases hw
    | _ => cases hw

theorem Sys.WakesServed.step (h : s.WakesServed) (hmust : MustInv s) (hstep : s.Stepped K l s') :
    s'.WakesServed := by
  intro u w hw
  cases hstep with
  | @call t k hidle =>
    by_cases hu : u = t
    · subst hu
      rw [Sys.thread_startCall_self] at hw
      cases k with
      | direct c op => cases hw
      | select cases timeout =>
        have hbegin := SelPc.begins_entry cases
        revert hw hbegin
        show w ∈ (Thread.select s.next cases timeout (SelPc.entry cases)).waking? → _
        generalize SelPc.entry cases = pc
        rintro hw (- | ⟨⟨⟩⟩) <;> cases hw
    · rw [Sys.thread_startCall_of_ne hu] at hw
      exact h u w hw
  | @ret t alt id r out hdone hret =>
    by_cases hu : u = t
    · subst hu
      rw [Sys.thread_finishCall_self] at hw
      cases hw
    · rw [Sys.thread_finishCall_of_ne hu] at hw
      exact h u w hw
  | @move t alt c e th hnext hacts =>
    apply (Mem.took_apply K s.mem t c e w).2
    by_cases hu : u = t
    · subst hu
      rw [Sys.thread_move_self] at hw
      exact (hacts.waking hw).imp_left ((hmust.calls.running u).hand w)
    · rw [Sys.thread_move_of_ne hu] at hw
      exact Or.inl (h u w hw)

omit [DecidableEq T] in
/-- A sender that has moved its element has moved it once. -/
theorem Valid.sent_once (hv : Valid K s) {x : α} (hoff : s.Offered c w x) (htook : s.mem.Took w) :
    entriesOf w (s.mem.chan c).sent = [x] :=
  entriesOf_of_mem (hv.ledger.sent_nodup c) (hv.sent_of_took hoff htook)

omit [DecidableEq T] in
/-- A receiver that has moved an element has moved one, and has it in its buffer when nobody is copying
for it any more. -/
theorem RingValid.recvd_once (hv : RingValid K s) (hc : (K.chan c).spsc = false)
    (hacc : s.Accepting c w) (htook : s.mem.Took w)
    (hown : ∀ u, (s.thread u).id? = some w.call → (s.thread u).ring? = none)
    (hhand : ∀ u, (s.thread u).hand ≠ some (w, .claimed c .recv)) :
    ∃ v, entriesOf w (s.mem.chan c).recvd = [v] ∧ (s.mem.waiter w).data = some v := by
  obtain ⟨v, hmem⟩ := hv.recvd_of_took hc hacc htook
  exact ⟨v, entriesOf_of_mem (hv.ledger.recvd_nodup c) hmem, hv.data_of_recvd hc hmem hown hhand⟩

end Step

end LibChan
