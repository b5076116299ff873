import Mathlib.Data.List.Basic

/-!
# A bounded first-in first-out queue

The queue is the list of its elements, oldest first, and holds at most `cap` of them. A burst moves as
many elements as fit, or as are there, and has the outcome of that many single operations
(`pushEach_pushMany`, `popEach_popMany`).
-/

set_option autoImplicit false

namespace LibChan.BoundedQueue

variable {E : Type}

/-- Append an element if there is room; tells whether there was. -/
def push (cap : Nat) (q : List E) (x : E) : Bool × List E :=
  if q.length < cap then (true, q ++ [x]) else (false, q)

/-- Take the oldest element, if there is one. -/
def pop : List E → Option E × List E
  | [] => (none, [])
  | x :: q => (some x, q)

/-- Append as many of the elements as there is room for; tells how many. -/
def pushMany (cap : Nat) (q xs : List E) : Nat × List E :=
  let k := min xs.length (cap - q.length)
  (k, q ++ xs.take k)

/-- Take up to `n` elements, oldest first. -/
def popMany (q : List E) (n : Nat) : List E × List E := (q.take n, q.drop n)

/-- Push the elements one by one, with the verdicts. -/
def pushEach (cap : Nat) : List E → List E → List Bool × List E
  | q, [] => ([], q)
  | q, x :: xs => ((push cap q x).1 :: (pushEach cap (push cap q x).2 xs).1,
      (pushEach cap (push cap q x).2 xs).2)

/-- Pop `n` times, with the results. -/
def popEach : Nat → List E → List (Option E) × List E
  | 0, q => ([], q)
  | n + 1, q => ((pop q).1 :: (popEach n (pop q).2).1, (popEach n (pop q).2).2)

variable {cap n : Nat} {q xs : List E}

theorem push_of_lt (h : q.length < cap) (x : E) : push cap q x = (true, q ++ [x]) := if_pos h

theorem push_of_le (h : cap ≤ q.length) (x : E) : push cap q x = (false, q) :=
  if_neg (Nat.not_lt.2 h)

/-- A push is a burst of one. -/
theorem push_eq_pushMany (x : E) :
    push cap q x = (decide ((pushMany cap q [x]).1 ≠ 0), (pushMany cap q [x]).2) := by
  rcases Nat.lt_or_ge q.length cap with hlt | hle
  · have hone : min [x].length (cap - q.length) = 1 := by
      rw [List.length_singleton]
      omega
    rw [push_of_lt hlt, pushMany, hone]
    rfl
  · have hzero : min [x].length (cap - q.length) = 0 := by omega
    rw [push_of_le hle, pushMany, hzero, List.take_zero, List.append_nil]
    rfl

/-- A pop is a burst of one. -/
theorem pop_eq_popMany : pop q = ((popMany q 1).1.head?, (popMany q 1).2) := by
  cases q with
  | nil => rfl
  | cons x q => rfl

/-- Pushes that all fit. -/
theorem pushEach_of_le (h : q.length + xs.length ≤ cap) :
    pushEach cap q xs = (List.replicate xs.length true, q ++ xs) := by
  induction xs generalizing q with
  | nil => rw [pushEach, List.append_nil, List.length_nil, List.replicate_zero]
  | cons x xs ih =>
    rw [List.length_cons] at h
    have hrest : (q ++ [x]).length + xs.length ≤ cap := by
      rw [List.length_append, List.length_singleton]
      omega
    rw [pushEach, push_of_lt (by omega), ih hrest, List.length_cons, List.replicate_succ,
      List.append_assoc, List.singleton_append]

/-- A burst push has the outcome of one push for each element it moves, all of which succeed. -/
theorem pushEach_pushMany (h : q.length ≤ cap) :
    pushEach cap q (xs.take (pushMany cap q xs).1) =
      (List.replicate (pushMany cap q xs).1 true, (pushMany cap q xs).2) := by
  have hlen : (xs.take (pushMany cap q xs).1).length = (pushMany cap q xs).1 := by
    rw [List.length_take, pushMany]
    omega
  rw [pushEach_of_le, hlen]
  · rfl
  · rw [hlen, pushMany]
    omega

/-- A burst pop has the outcome of one pop for each element it moves. -/
theorem popEach_popMany : popEach (popMany q n).1.length q =
    ((popMany q n).1.map some, (popMany q n).2) := by
  induction n generalizing q with
  | zero => rfl
  | succ n ih =>
    cases q with
    | nil => rfl
    | cons x q =>
      have hrest := ih (q := q)
      simp only [popMany] at hrest ⊢
      rw [List.take_succ_cons, List.length_cons, popEach, pop, hrest, List.map_cons,
        List.drop_succ_cons]

end LibChan.BoundedQueue
