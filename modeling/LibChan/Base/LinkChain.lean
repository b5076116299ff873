import Mathlib.Data.List.Basic
import Mathlib.Logic.Function.Basic

/-!
# Chains of links

A heap of nodes is read through one link field, `next : ν → Option ν`, in which `none` is the null
link. `Seg next p xs q` says that following the links from `p` through exactly the nodes `xs` arrives at
`q`; a `Chain` is a segment that arrives at null. Links are functional, so a chain is determined by
where it starts (`Chain.unique`) and visits no node twice (`Chain.nodup`): a finite chain needs no
separate hypothesis of acyclicity.

`Seg.update` is the frame rule: a write to a node outside a segment leaves the segment alone.
-/

set_option autoImplicit false

namespace LibChan

universe u

variable {ν : Type u}

/-- Following `next` from `p` through the nodes `xs` arrives at `q`. -/
def Seg (next : ν → Option ν) : Option ν → List ν → Option ν → Prop
  | p, [], q => p = q
  | p, x :: xs, q => p = some x ∧ Seg next (next x) xs q

/-- A segment that arrives at the null link. -/
def Chain (next : ν → Option ν) (p : Option ν) (xs : List ν) : Prop := Seg next p xs none

/-- The nodes met when following `next` from `p`, at most `n` of them. -/
def walk (next : ν → Option ν) : Nat → Option ν → List ν
  | 0, _ => []
  | _ + 1, none => []
  | n + 1, some x => x :: walk next n (next x)

section Links

variable {next next' : ν → Option ν} {p q r : Option ν} {x y : ν} {xs ys : List ν}

@[simp] theorem seg_nil : Seg next p [] q ↔ p = q := Iff.rfl

@[simp] theorem seg_cons : Seg next p (x :: xs) q ↔ p = some x ∧ Seg next (next x) xs q := Iff.rfl

@[simp] theorem chain_nil : Chain next p [] ↔ p = none := Iff.rfl

@[simp] theorem chain_cons : Chain next p (x :: xs) ↔ p = some x ∧ Chain next (next x) xs := Iff.rfl

/-- Segments compose. -/
theorem seg_append : Seg next p (xs ++ ys) q ↔ ∃ r, Seg next p xs r ∧ Seg next r ys q := by
  induction xs generalizing p with
  | nil => simp
  | cons x xs ih =>
    rw [List.cons_append, seg_cons, ih]
    constructor
    · rintro ⟨hp, r, hxs, hys⟩
      exact ⟨r, ⟨hp, hxs⟩, hys⟩
    · rintro ⟨r, ⟨hp, hxs⟩, hys⟩
      exact ⟨hp, r, hxs, hys⟩

/-- A chain runs through a node exactly if a segment arrives there and a chain goes on from it. -/
theorem chain_append_cons : Chain next p (xs ++ x :: ys) ↔
    Seg next p xs (some x) ∧ Chain next (next x) ys := by
  rw [Chain, seg_append]
  constructor
  · rintro ⟨r, hxs, rfl, hys⟩
    exact ⟨hxs, hys⟩
  · rintro ⟨hxs, hys⟩
    exact ⟨_, hxs, rfl, hys⟩

/-- A segment depends on the links of its own nodes only. -/
theorem Seg.congr (h : Seg next p xs q) (hsame : ∀ x ∈ xs, next' x = next x) : Seg next' p xs q := by
  induction xs generalizing p with
  | nil => exact h
  | cons x xs ih =>
    refine ⟨h.1, ?_⟩
    rw [hsame x List.mem_cons_self]
    exact ih h.2 fun y hy => hsame y (List.mem_cons_of_mem _ hy)

/-- A write to a node outside a segment leaves the segment alone. -/
theorem Seg.update [DecidableEq ν] (h : Seg next p xs q) (hx : x ∉ xs) (r : Option ν) :
    Seg (Function.update next x r) p xs q := by
  apply h.congr
  intro y hy
  have hne : y ≠ x := by
    rintro rfl
    exact hx hy
  exact Function.update_of_ne hne _ _

theorem Chain.update [DecidableEq ν] (h : Chain next p xs) (hx : x ∉ xs) (r : Option ν) :
    Chain (Function.update next x r) p xs := Seg.update h hx r

/-- Two chains from one link are the same. -/
theorem Chain.unique (hx : Chain next p xs) (hy : Chain next p ys) : xs = ys := by
  induction xs generalizing p ys with
  | nil =>
    cases ys with
    | nil => rfl
    | cons y ys => cases (chain_nil.1 hx).symm.trans (chain_cons.1 hy).1
  | cons x xs ih =>
    cases ys with
    | nil => cases (chain_nil.1 hy).symm.trans (chain_cons.1 hx).1
    | cons y ys =>
      obtain ⟨rfl, hrest⟩ := chain_cons.1 hx
      obtain ⟨heq, hrest'⟩ := chain_cons.1 hy
      cases heq
      rw [ih hrest hrest']

/-- What is reached by following the links from the start of a chain lies on the chain. -/
theorem Chain.mem_of_seg (hy : Chain next p ys) (hx : Seg next p xs (some x)) : x ∈ ys := by
  induction xs generalizing p ys with
  | nil =>
    cases ys with
    | nil => cases (chain_nil.1 hy).symm.trans hx
    | cons y ys =>
      cases (chain_cons.1 hy).1.symm.trans hx
      exact List.mem_cons_self
  | cons z xs ih =>
    obtain ⟨rfl, hrest⟩ := hx
    cases ys with
    | nil => cases chain_nil.1 hy
    | cons y ys =>
      obtain ⟨heq, hys⟩ := chain_cons.1 hy
      cases heq
      exact List.mem_cons_of_mem _ (ih hys hrest)

/-- A chain visits no node twice: from the second visit on it would have to be as long as from the
first. -/
theorem Chain.nodup (h : Chain next p xs) : xs.Nodup := by
  induction xs generalizing p with
  | nil => exact List.nodup_nil
  | cons x xs ih =>
    have hrest := (chain_cons.1 h).2
    refine List.nodup_cons.2 ⟨fun hx => ?_, ih hrest⟩
    obtain ⟨as, bs, rfl⟩ := List.append_of_mem hx
    have hlen := congrArg List.length (hrest.unique (chain_append_cons.1 hrest).2)
    rw [List.length_append, List.length_cons] at hlen
    omega

/-- The last node of a chain has the null link. -/
theorem Chain.next_getLast (h : Chain next p xs) (hx : x ∈ xs.getLast?) : next x = none := by
  obtain ⟨as, rfl⟩ := List.getLast?_eq_some_iff.1 (Option.mem_def.1 hx)
  exact chain_nil.1 (chain_append_cons.1 h).2

/-- A chain starts at its first node. -/
theorem Chain.eq_head (h : Chain next p xs) : p = xs.head? := by
  cases xs with
  | nil => exact h
  | cons x xs => exact (chain_cons.1 h).1

/-- A walk that is long enough meets the nodes of the chain. -/
theorem Chain.walk_eq (h : Chain next p xs) {n : Nat} (hn : xs.length ≤ n) : walk next n p = xs := by
  induction xs generalizing p n with
  | nil =>
    rw [chain_nil.1 h]
    cases n <;> rfl
  | cons x xs ih =>
    obtain ⟨rfl, hrest⟩ := chain_cons.1 h
    cases n with
    | zero => cases hn
    | succ n => rw [walk, ih hrest (Nat.le_of_succ_le_succ hn)]

end Links

end LibChan
