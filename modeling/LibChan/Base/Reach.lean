import Mathlib.Logic.Relation

/-!
# Runs of a labelled machine

A machine is a partial function `step : σ → ι → Option σ`; the label `ι` says who moves and how the
open choices are resolved. `Reaches step ok` relates two states joined by a run all of whose steps
meet the condition `ok`, which reads the state before the step and the label. With `ok` always true
(`Always`) it is plain reachability.

`Reaches.invariant` is the induction principle for safety properties. `exec` runs a list of labels,
and `exists_reaches_of_exec` turns a computed run into a reachable state.
-/

set_option autoImplicit false

namespace LibChan

universe u v

variable {σ : Type u} {ι : Type v}

/-- One step of the machine from a state in which the label meets `ok`. -/
def StepOk (step : σ → ι → Option σ) (ok : σ → ι → Prop) (s s' : σ) : Prop :=
  ∃ l, ok s l ∧ step s l = some s'

/-- Runs all of whose steps meet `ok`. -/
abbrev Reaches (step : σ → ι → Option σ) (ok : σ → ι → Prop) : σ → σ → Prop :=
  Relation.ReflTransGen (StepOk step ok)

/-- The condition every step meets. -/
def Always : σ → ι → Prop := fun _ _ => True

instance (s : σ) : DecidablePred (Always (ι := ι) s) := fun _ => .isTrue trivial

/-- An invariant of the initial state that every admitted step keeps holds along every run. -/
theorem Reaches.invariant {step : σ → ι → Option σ} {ok : σ → ι → Prop} {P : σ → Prop} {s₀ s : σ}
    (hrun : Reaches step ok s₀ s) (hinit : P s₀)
    (hstep : ∀ s l s', P s → ok s l → step s l = some s' → P s') : P s := by
  induction hrun with
  | refl => exact hinit
  | tail _ h ih =>
    obtain ⟨l, hok, hs⟩ := h
    exact hstep _ l _ ih hok hs

/-- A stronger condition on the steps admits fewer runs. -/
theorem Reaches.mono {step : σ → ι → Option σ} {ok ok' : σ → ι → Prop} {s₀ s : σ}
    (hrun : Reaches step ok s₀ s) (h : ∀ s l, ok s l → ok' s l) : Reaches step ok' s₀ s :=
  Relation.ReflTransGen.mono (fun _ _ ⟨l, hok, hs⟩ => ⟨l, h _ l hok, hs⟩) _ _ hrun

/-- Run a list of labels; `none` if some step is not enabled or does not meet `ok`. -/
def exec (step : σ → ι → Option σ) (ok : σ → ι → Prop) [∀ s, DecidablePred (ok s)] :
    σ → List ι → Option σ
  | s, [] => some s
  | s, l :: ls => if ok s l then (step s l).bind fun s' => exec step ok s' ls else none

theorem reaches_of_exec {step : σ → ι → Option σ} {ok : σ → ι → Prop}
    [∀ s, DecidablePred (ok s)] :
    ∀ {ls : List ι} {s s' : σ}, exec step ok s ls = some s' → Reaches step ok s s'
  | [], s, s', h => by
    simp only [exec, Option.some.injEq] at h
    subst h
    exact Relation.ReflTransGen.refl
  | l :: ls, s, s', h => by
    rw [exec, Option.ite_none_right_eq_some, Option.bind_eq_some_iff] at h
    obtain ⟨hok, m, hm, hrest⟩ := h
    exact Relation.ReflTransGen.head ⟨l, hok, hm⟩ (reaches_of_exec hrest)

/-- A computed run whose last state passes a test gives a reachable state that passes it. -/
theorem exists_reaches_of_exec {step : σ → ι → Option σ} {ok : σ → ι → Prop}
    [∀ s, DecidablePred (ok s)] {s : σ} (ls : List ι) (p : σ → Prop) [DecidablePred p]
    (h : (exec step ok s ls).any (fun s' => decide (p s')) = true) :
    ∃ s', Reaches step ok s s' ∧ p s' := by
  cases hs : exec step ok s ls with
  | none => rw [hs] at h; cases h
  | some s' =>
    rw [hs, Option.any_some, decide_eq_true_eq] at h
    exact ⟨s', reaches_of_exec hs, h⟩

/-- Two states of one computed run. -/
theorem exists_reaches_pair_of_exec {step : σ → ι → Option σ} {ok : σ → ι → Prop}
    [∀ s, DecidablePred (ok s)] {s : σ} (ls ls' : List ι) (p : σ → σ → Prop)
    [∀ s₁, DecidablePred (p s₁)]
    (h : (exec step ok s ls).any (fun s₁ => (exec step ok s₁ ls').any fun s' => decide (p s₁ s')) =
      true) :
    ∃ s₁ s', Reaches step ok s s₁ ∧ Reaches step ok s₁ s' ∧ p s₁ s' := by
  cases hs : exec step ok s ls with
  | none => rw [hs] at h; cases h
  | some s₁ =>
    rw [hs, Option.any_some] at h
    obtain ⟨s', hs', hp⟩ := exists_reaches_of_exec ls' (p s₁) h
    exact ⟨s₁, s', reaches_of_exec hs, hs', hp⟩

end LibChan
