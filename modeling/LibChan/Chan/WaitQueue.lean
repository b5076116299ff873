import LibChan.Base.LinkChain
import LibChan.Chan.Queues

/-!
# The intrusive wait queues

The channel model keeps a wait queue as a list of waiters. In `libchan_internal.h` it is a head and a
tail pointer over nodes linked by their `next` fields, and all the queues of a program share one heap
of nodes. `WaitHeap` is that heap, `waitqPush`, `waitqPushFront`, `waitqPop` and `waitqRemove` are the
operations as the source performs them, write by write.

`WaitHeap.Refines h c`: every queue `q` of the heap holds the list `c q`, and no node is in two queues.
Each operation on the heap is the operation of `WaitOp.spec` on the lists, provided that only nodes in
no queue are pushed (`WaitHeap.Refines.exec`), and so is every sequence of them (`waitq_refines_list`).

The queues of the channel model are such lists: `Effect.waitOp?` is what a step of a thread does to them,
`Mem.queues_apply` says that it is the operation on the lists, and `LibChan.Chan.Stack` carries it out on
the heap.
-/

set_option autoImplicit false

namespace LibChan

/-! ## The operations -/

/-- `chan_waitq_t`; `none` is `NULL`. -/
structure WaitQ (ν : Type) where
  head : Option ν
  tail : Option ν

/-- The `next` fields of the nodes `ν` and the queues at the addresses `κ`. -/
structure WaitHeap (κ ν : Type) where
  next : ν → Option ν
  queue : κ → WaitQ ν

/-- Calls of the queue operations. -/
inductive WaitOp (κ ν : Type)
  | push (q : κ) (w : ν)
  | pushFront (q : κ) (w : ν)
  | pop (q : κ)
  | remove (q : κ) (w : ν)

/-- What a call returns. -/
inductive WaitRes (ν : Type)
  | void
  | node (w : Option ν)
  | bool (b : Bool)
deriving DecidableEq

variable {κ ν : Type} [DecidableEq κ] [DecidableEq ν]

namespace WaitHeap

variable (h : WaitHeap κ ν)

/-- `w->next = p`. -/
def setNext (w : ν) (p : Option ν) : WaitHeap κ ν := { h with next := Function.update h.next w p }

/-- `q->head = p`. -/
def setHead (q : κ) (p : Option ν) : WaitHeap κ ν :=
  { h with queue := Function.update h.queue q { h.queue q with head := p } }

/-- `q->tail = p`. -/
def setTail (q : κ) (p : Option ν) : WaitHeap κ ν :=
  { h with queue := Function.update h.queue q { h.queue q with tail := p } }

/-- `waitq_push`. -/
def waitqPush (q : κ) (w : ν) : WaitHeap κ ν :=
  let h := h.setNext w none
  let h := match (h.queue q).tail with
    | some t => h.setNext t (some w)
    | none => h.setHead q (some w)
  h.setTail q (some w)

/-- `waitq_push_front`. -/
def waitqPushFront (q : κ) (w : ν) : WaitHeap κ ν :=
  let h := h.setNext w (h.queue q).head
  let h := if (h.queue q).head = none then h.setTail q (some w) else h
  h.setHead q (some w)

/-- `waitq_pop`. -/
def waitqPop (q : κ) : WaitHeap κ ν × Option ν :=
  match (h.queue q).head with
  | none => (h, none)
  | some w =>
    let h := h.setHead q (h.next w)
    let h := if (h.queue q).head = none then h.setTail q none else h
    (h.setNext w none, some w)

/-- The unlinking of `cur`, which follows `prev`, in `waitq_remove`. -/
def unlink (q : κ) (prev : Option ν) (cur : ν) : WaitHeap κ ν :=
  let h := match prev with
    | some p => h.setNext p (h.next cur)
    | none => h.setHead q (h.next cur)
  let h := if (h.queue q).tail = some cur then h.setTail q prev else h
  h.setNext cur none

/-- The loop of `waitq_remove` at `prev` and `cur`; `none` if it takes `fuel` tests or more. -/
def removeFrom (q : κ) (target : ν) : Nat → Option ν → Option ν → Option (WaitHeap κ ν × Bool)
  | 0, _, _ => none
  | _ + 1, _, none => some (h, false)
  | fuel + 1, prev, some cur =>
    if cur = target then some (h.unlink q prev cur, true)
    else removeFrom q target fuel (some cur) (h.next cur)

/-- `waitq_remove`. -/
def waitqRemove (fuel : Nat) (q : κ) (target : ν) : Option (WaitHeap κ ν × Bool) :=
  h.removeFrom q target fuel none (h.queue q).head

/-- One call. -/
def exec (fuel : Nat) : WaitOp κ ν → Option (WaitHeap κ ν × WaitRes ν)
  | .push q w => some (h.waitqPush q w, .void)
  | .pushFront q w => some (h.waitqPushFront q w, .void)
  | .pop q => some ((h.waitqPop q).1, .node (h.waitqPop q).2)
  | .remove q w => (h.waitqRemove fuel q w).map fun r => (r.1, .bool r.2)

/-- Some queue leads to the node. -/
def Queued (w : ν) : Prop := ∃ q xs, Seg h.next (h.queue q).head xs (some w)

end WaitHeap

/-- The node a call pushes. -/
def WaitOp.pushed? : WaitOp κ ν → Option ν
  | .push _ w => some w
  | .pushFront _ w => some w
  | .pop _ => none
  | .remove _ _ => none

/-- What a call does to the lists of queued nodes, and what it returns. -/
def WaitOp.spec (c : κ → List ν) : WaitOp κ ν → (κ → List ν) × WaitRes ν
  | .push q w => (Function.update c q (c q ++ [w]), .void)
  | .pushFront q w => (Function.update c q (w :: c q), .void)
  | .pop q => (Function.update c q (c q).tail, .node (c q).head?)
  | .remove q w => (Function.update c q ((c q).erase w), .bool (decide (w ∈ c q)))

/-- How many nodes a call looks at, at most, and one more for the end of the list. -/
def WaitOp.tests (c : κ → List ν) : WaitOp κ ν → Nat
  | .remove q _ => (c q).length + 1
  | _ => 0

/-- A call on other names of the nodes. -/
def WaitOp.map {μ : Type} (f : ν → μ) : WaitOp κ ν → WaitOp κ μ
  | .push q w => .push q (f w)
  | .pushFront q w => .pushFront q (f w)
  | .pop q => .pop q
  | .remove q w => .remove q (f w)

/-- A call adds at most one node to a list. -/
theorem WaitOp.length_spec_le (c : κ → List ν) (op : WaitOp κ ν) (q : κ) :
    ((op.spec c).1 q).length ≤ (c q).length + 1 := by
  have hupdate : ∀ q₀ (xs : List ν), xs.length ≤ (c q₀).length + 1 →
      (Function.update c q₀ xs q).length ≤ (c q).length + 1 := by
    intro q₀ xs hxs
    by_cases hq : q = q₀
    · subst hq
      rwa [Function.update_self]
    · rw [Function.update_of_ne hq]
      exact Nat.le_succ _
  cases op with
  | push q₀ w => exact hupdate q₀ _ (by rw [List.length_append]; rfl)
  | pushFront q₀ w => exact hupdate q₀ _ le_rfl
  | pop q₀ => exact hupdate q₀ _ (by rw [List.length_tail]; omega)
  | remove q₀ w => exact hupdate q₀ _ (List.length_erase_le.trans (Nat.le_succ _))

theorem map_erase_of_inj {μ : Type} [DecidableEq μ] {f : ν → μ} {w : ν} {xs : List ν}
    (hinj : ∀ x ∈ xs, f x = f w → x = w) : (xs.map f).erase (f w) = (xs.erase w).map f := by
  induction xs with
  | nil => rfl
  | cons x xs ih =>
    rw [List.map_cons]
    by_cases hx : x = w
    · subst hx
      rw [List.erase_cons_head, List.erase_cons_head]
    · rw [List.erase_cons_tail (by simpa using fun h => hx (hinj x List.mem_cons_self h)),
        List.erase_cons_tail (by simpa using hx), List.map_cons,
        ih fun y hy => hinj y (List.mem_cons_of_mem _ hy)]

/-- A call does to the renamed lists what it does to the lists, as long as a removed node keeps a name
of its own. -/
theorem WaitOp.spec_map {μ : Type} [DecidableEq μ] {f : ν → μ} (op : WaitOp κ ν) {c : κ → List ν}
    (hinj : ∀ q w, op = .remove q w → ∀ x ∈ c q, f x = f w → x = w) :
    ((op.map f).spec fun q => (c q).map f).1 = fun q => ((op.spec c).1 q).map f := by
  have hupdate : ∀ (q : κ) (xs : List ν), Function.update (fun q => (c q).map f) q (xs.map f) =
      fun q' => (Function.update c q xs q').map f := by
    intro q xs
    funext q'
    by_cases hq : q' = q
    · subst hq
      rw [Function.update_self, Function.update_self]
    · rw [Function.update_of_ne hq, Function.update_of_ne hq]
  cases op with
  | push q w => rw [WaitOp.spec, ← hupdate, List.map_append]; rfl
  | pushFront q w => rw [WaitOp.spec, ← hupdate]; rfl
  | pop q => rw [WaitOp.spec, ← hupdate, List.map_tail]; rfl
  | remove q w => rw [WaitOp.spec, ← hupdate, ← map_erase_of_inj (hinj q w rfl)]; rfl

/-! ## One call -/

/-- The queue at `q` holds the nodes `xs`. -/
structure WaitHeap.Holds (h : WaitHeap κ ν) (q : κ) (xs : List ν) : Prop where
  chain : Chain h.next (h.queue q).head xs
  tail : (h.queue q).tail = xs.getLast?

/-- Every queue holds its list, and no node is in two queues. -/
structure WaitHeap.Refines (h : WaitHeap κ ν) (c : κ → List ν) : Prop where
  holds : ∀ q, h.Holds q (c q)
  apart : ∀ q q' w, w ∈ c q → w ∈ c q' → q = q'

namespace WaitHeap

variable {h h' : WaitHeap κ ν} {c : κ → List ν} {q : κ} {w x : ν} {xs ys : List ν}

omit [DecidableEq κ] [DecidableEq ν] in
/-- A queue is not affected by writes to nodes it does not hold and to other queues. -/
theorem Holds.frame (hx : h.Holds q xs) (hnext : ∀ x ∈ xs, h'.next x = h.next x)
    (hqueue : h'.queue q = h.queue q) : h'.Holds q xs where
  chain := by
    rw [hqueue]
    exact Seg.congr hx.chain hnext
  tail := by rw [hqueue, hx.tail]

omit [DecidableEq ν] in
/-- What a call that writes the queue `q` and some links has to establish: a chain from the new head to
the new tail, and no write to a node of another queue. -/
theorem Refines.write (hr : h.Refines c) {next : ν → Option ν} {head tail : Option ν}
    (hchain : Chain next head xs) (htail : tail = xs.getLast?)
    (hnext : ∀ q' ≠ q, ∀ x ∈ c q', next x = h.next x) (hapart : ∀ q' ≠ q, ∀ x ∈ xs, x ∉ c q') :
    Refines { next := next, queue := Function.update h.queue q ⟨head, tail⟩ }
      (Function.update c q xs) where
  holds q' := by
    by_cases hne : q' = q
    · subst hne
      rw [Function.update_self]
      constructor
      · simpa only [Function.update_self] using hchain
      · simpa only [Function.update_self] using htail
    · rw [Function.update_of_ne hne]
      exact (hr.holds q').frame (hnext q' hne) (Function.update_of_ne hne _ _)
  apart q₁ q₂ x h₁ h₂ := by
    by_cases e₁ : q₁ = q <;> by_cases e₂ : q₂ = q
    · rw [e₁, e₂]
    · subst e₁
      rw [Function.update_self] at h₁
      rw [Function.update_of_ne e₂] at h₂
      exact absurd h₂ (hapart q₂ e₂ x h₁)
    · subst e₂
      rw [Function.update_self] at h₂
      rw [Function.update_of_ne e₁] at h₁
      exact absurd h₁ (hapart q₁ e₁ x h₂)
    · rw [Function.update_of_ne e₁] at h₁
      rw [Function.update_of_ne e₂] at h₂
      exact hr.apart q₁ q₂ x h₁ h₂

omit [DecidableEq κ] [DecidableEq ν] in
/-- The nodes to which the queues lead are the ones in the lists. -/
theorem Refines.queued_iff (hr : h.Refines c) : h.Queued w ↔ ∃ q, w ∈ c q := by
  constructor
  · rintro ⟨q, xs, hseg⟩
    exact ⟨q, (hr.holds q).chain.mem_of_seg hseg⟩
  · rintro ⟨q, hw⟩
    obtain ⟨xs, ys, heq⟩ := List.append_of_mem hw
    have hchain := (hr.holds q).chain
    rw [heq] at hchain
    exact ⟨q, xs, (chain_append_cons.1 hchain).1⟩

omit [DecidableEq κ] [DecidableEq ν] in
/-- A node of one queue is in no other. -/
theorem Refines.not_mem (hr : h.Refines c) (hx : x ∈ c q) {q' : κ} (hne : q' ≠ q) : x ∉ c q' :=
  fun hx' => hne (hr.apart q' q x hx' hx)

/-! ### `waitq_push` -/

theorem waitqPush_of_tail_none (htail : (h.queue q).tail = none) :
    h.waitqPush q w = { next := Function.update h.next w none
                        queue := Function.update h.queue q ⟨some w, some w⟩ } := by
  simp only [waitqPush, setNext, htail, setHead, setTail, Function.update_self, Function.update_idem]

theorem waitqPush_of_tail_some {t : ν} (htail : (h.queue q).tail = some t) :
    h.waitqPush q w = { next := Function.update (Function.update h.next w none) t (some w)
                        queue := Function.update h.queue q ⟨(h.queue q).head, some w⟩ } := by
  simp only [waitqPush, setNext, htail, setTail]

theorem Refines.push (hr : h.Refines c) (hw : ∀ q', w ∉ c q') :
    (h.waitqPush q w).Refines (Function.update c q (c q ++ [w])) := by
  have hq := hr.holds q
  have hapart : ∀ q' ≠ q, ∀ x ∈ c q ++ [w], x ∉ c q' := by
    intro q' hne x hx
    rcases List.mem_append.1 hx with hx | hx
    · exact hr.not_mem hx hne
    · rw [List.mem_singleton.1 hx]
      exact hw q'
  have hnotw : ∀ q', ∀ x ∈ c q', x ≠ w := by
    rintro q' x hx rfl
    exact hw q' hx
  cases htail : (h.queue q).tail with
  | none =>
    -- the queue is empty: the new node becomes head and tail
    have hnil : c q = [] := List.getLast?_eq_none_iff.1 (hq.tail.symm.trans htail)
    rw [waitqPush_of_tail_none htail]
    refine hr.write ?_ ?_ ?_ hapart
    · rw [hnil]
      exact ⟨rfl, Function.update_self _ _ _⟩
    · rw [hnil]
      rfl
    · intro q' _ x hx
      exact Function.update_of_ne (hnotw q' x hx) _ _
  | some t =>
    -- the old tail is the last node; it gets the new node as its successor
    obtain ⟨xs, hlast⟩ := List.getLast?_eq_some_iff.1 (hq.tail.symm.trans htail)
    have hnodup := hq.chain.nodup
    have hchain := hq.chain
    rw [hlast] at hnodup hchain
    have ht : t ∈ c q := by simp [hlast]
    have htxs : t ∉ xs := by
      intro hmem
      exact (List.nodup_append.1 hnodup).2.2 t hmem t (List.mem_singleton_self t) rfl
    have hwxs : w ∉ xs := by
      intro hmem
      exact hw q (by rw [hlast]; exact List.mem_append_left _ hmem)
    have htw : w ≠ t := (hnotw q t ht).symm
    rw [waitqPush_of_tail_some htail]
    refine hr.write ?_ ?_ ?_ hapart
    · rw [hlast, List.append_assoc]
      refine chain_append_cons.2 ⟨?_, ?_⟩
      · exact ((chain_append_cons.1 hchain).1.update hwxs _).update htxs _
      · rw [Function.update_self]
        refine ⟨rfl, ?_⟩
        rw [Function.update_of_ne htw, Function.update_self]
        rfl
    · rw [List.getLast?_concat]
    · intro q' hne x hx
      have hxt : x ≠ t := by
        rintro rfl
        exact hr.not_mem ht hne hx
      rw [Function.update_of_ne hxt, Function.update_of_ne (hnotw q' x hx)]

/-! ### `waitq_push_front` -/

theorem waitqPushFront_eq : h.waitqPushFront q w =
    { next := Function.update h.next w (h.queue q).head
      queue := Function.update h.queue q
        ⟨some w, if (h.queue q).head = none then some w else (h.queue q).tail⟩ } := by
  unfold waitqPushFront
  by_cases hhead : (h.queue q).head = none
  · simp only [setNext, hhead, if_true, setHead, setTail, Function.update_self, Function.update_idem]
  · simp only [setNext, hhead, if_false, setHead]

theorem Refines.pushFront (hr : h.Refines c) (hw : ∀ q', w ∉ c q') :
    (h.waitqPushFront q w).Refines (Function.update c q (w :: c q)) := by
  have hq := hr.holds q
  rw [waitqPushFront_eq]
  refine hr.write ?_ ?_ ?_ ?_
  · refine chain_cons.2 ⟨rfl, ?_⟩
    rw [Function.update_self]
    exact hq.chain.update (hw q) _
  · rw [hq.chain.eq_head, hq.tail]
    cases hlist : c q with
    | nil => rfl
    | cons x xs => simp [List.getLast?_cons_cons]
  · rintro q' - x hx
    refine Function.update_of_ne ?_ _ _
    rintro rfl
    exact hw q' hx
  · intro q' hne x hx
    rcases List.mem_cons.1 hx with rfl | hx
    · exact hw q'
    · exact hr.not_mem hx hne

/-! ### `waitq_pop` -/

theorem waitqPop_of_head_some (hhead : (h.queue q).head = some w) :
    h.waitqPop q = ({ next := Function.update h.next w none
                      queue := Function.update h.queue q
                        ⟨h.next w, if h.next w = none then none else (h.queue q).tail⟩ }, some w) := by
  unfold waitqPop
  by_cases hnext : h.next w = none
  · simp only [hhead, setHead, hnext, Function.update_self, if_true, setTail, Function.update_idem,
      setNext]
  · simp only [hhead, setHead, hnext, Function.update_self, if_false, setNext]

theorem Refines.pop (hr : h.Refines c) :
    (h.waitqPop q).1.Refines (Function.update c q (c q).tail) ∧ (h.waitqPop q).2 = (c q).head? := by
  have hq := hr.holds q
  have hchain := hq.chain
  cases hlist : c q with
  | nil =>
    rw [hlist] at hchain
    have hpop : h.waitqPop q = (h, none) := by
      simp only [waitqPop, chain_nil.1 hchain]
    rw [hpop, List.tail_nil, ← hlist, Function.update_eq_self, hlist]
    exact ⟨hr, rfl⟩
  | cons w xs =>
    rw [hlist] at hchain
    obtain ⟨hhead, hrest⟩ := chain_cons.1 hchain
    have hwxs : w ∉ xs := (List.nodup_cons.1 hchain.nodup).1
    rw [waitqPop_of_head_some hhead]
    refine ⟨hr.write ?_ ?_ ?_ ?_, rfl⟩
    · exact hrest.update hwxs _
    · rw [hrest.eq_head, hq.tail, hlist, List.tail_cons]
      cases xs with
      | nil => rfl
      | cons y ys => simp [List.getLast?_cons_cons]
    · intro q' hne x hx
      refine Function.update_of_ne ?_ _ _
      rintro rfl
      exact hr.not_mem (by rw [hlist]; exact List.mem_cons_self) hne hx
    · intro q' hne x hx
      exact hr.not_mem (by rw [hlist]; exact List.mem_cons_of_mem _ hx) hne

/-! ### `waitq_remove` -/

theorem unlink_none : h.unlink q none w =
    { next := Function.update h.next w none
      queue := Function.update h.queue q
        ⟨h.next w, if (h.queue q).tail = some w then none else (h.queue q).tail⟩ } := by
  by_cases htail : (h.queue q).tail = some w
  · simp [WaitHeap.unlink, setHead, setTail, setNext, htail]
  · simp [WaitHeap.unlink, setHead, setNext, htail]

theorem unlink_some (p : ν) : h.unlink q (some p) w =
    { next := Function.update (Function.update h.next p (h.next w)) w none
      queue := Function.update h.queue q
        ⟨(h.queue q).head, if (h.queue q).tail = some w then some p else (h.queue q).tail⟩ } := by
  by_cases htail : (h.queue q).tail = some w
  · simp [WaitHeap.unlink, setTail, setNext, htail]
  · simp [WaitHeap.unlink, setNext, htail]

omit [DecidableEq κ] in
/-- The new tail after the node `w` between `xs` and `ys` has gone. -/
theorem Holds.tail_unlink (hq : h.Holds q (xs ++ w :: ys)) :
    (if (h.queue q).tail = some w then xs.getLast? else (h.queue q).tail) = (xs ++ ys).getLast? := by
  have hw := (List.nodup_cons.1 (List.nodup_middle.1 hq.chain.nodup)).1
  rw [hq.tail]
  cases ys with
  | nil => simp
  | cons y ys =>
    have hlast : (xs ++ w :: y :: ys).getLast? = (xs ++ y :: ys).getLast? := by
      simp [List.getLast?_append, List.getLast?_cons_cons]
    rw [hlast, if_neg]
    intro heq
    exact hw (List.mem_of_getLast? heq)

theorem Refines.unlink (hr : h.Refines c) (hlist : c q = xs ++ w :: ys) :
    (h.unlink q xs.getLast? w).Refines (Function.update c q (xs ++ ys)) := by
  have hq := hr.holds q
  rw [hlist] at hq
  have htail := hq.tail_unlink
  obtain ⟨hseg, hrest⟩ := chain_append_cons.1 hq.chain
  obtain ⟨hw, hnodup⟩ := List.nodup_cons.1 (List.nodup_middle.1 hq.chain.nodup)
  have hwys : w ∉ ys := fun hx => hw (List.mem_append_right _ hx)
  have hin : ∀ x ∈ w :: (xs ++ ys), x ∈ c q := by
    intro x hx
    rw [hlist]
    exact List.perm_middle.mem_iff.2 hx
  have hapart : ∀ q' ≠ q, ∀ x ∈ xs ++ ys, x ∉ c q' := fun q' hne x hx =>
    hr.not_mem (hin x (List.mem_cons_of_mem _ hx)) hne
  have hother : ∀ q' ≠ q, ∀ x ∈ c q', x ∉ w :: (xs ++ ys) := fun q' hne x hx hx' =>
    hr.not_mem (hin x hx') hne hx
  cases hprev : xs.getLast? with
  | none =>
    -- the first node: the head takes over its link
    obtain rfl := List.getLast?_eq_none_iff.1 hprev
    rw [unlink_none]
    refine hr.write (hrest.update hwys _) htail ?_ hapart
    intro q' hne x hx
    refine Function.update_of_ne ?_ _ _
    rintro rfl
    exact hother q' hne x hx List.mem_cons_self
  | some p =>
    -- the predecessor takes over its link
    obtain ⟨zs, rfl⟩ := List.getLast?_eq_some_iff.1 hprev
    rw [hprev] at htail
    rw [List.append_assoc] at hw hnodup
    obtain ⟨hp, -⟩ := List.nodup_cons.1 (List.nodup_middle.1 hnodup)
    have hpzs : p ∉ zs := fun hx => hp (List.mem_append_left _ hx)
    have hpys : p ∉ ys := fun hx => hp (List.mem_append_right _ hx)
    have hwzs : w ∉ zs := fun hx => hw (List.mem_append_left _ hx)
    have hpw : p ≠ w := by
      rintro rfl
      exact hw (List.mem_append_right _ List.mem_cons_self)
    obtain ⟨r, hzs, rfl, -⟩ := seg_append.1 hseg
    rw [unlink_some]
    refine hr.write ?_ htail ?_ hapart
    · rw [List.append_assoc]
      refine chain_append_cons.2 ⟨(hzs.update hpzs _).update hwzs _, ?_⟩
      rw [Function.update_of_ne hpw, Function.update_self]
      exact (hrest.update hpys _).update hwys _
    · intro q' hne x hx
      have hxw : x ≠ w := by
        rintro rfl
        exact hother q' hne x hx List.mem_cons_self
      have hxp : x ≠ p := by
        rintro rfl
        exact hother q' hne x hx (by simp)
      rw [Function.update_of_ne hxw, Function.update_of_ne hxp]

/-- The loop of `waitq_remove` from the node after `xs` on, when the nodes `ys` are still to be looked
at: it makes as many tests as there are nodes up to the target, and one more if the target is not
there. -/
theorem Refines.removeFrom (hr : h.Refines c) {target : ν} (hlist : c q = xs ++ ys)
    (hnot : target ∉ xs) {p : Option ν} (hp : Chain h.next p ys) :
    ∃ h' : WaitHeap κ ν, h'.Refines (Function.update c q ((xs ++ ys).erase target)) ∧
      ∀ fuel, h.removeFrom q target fuel xs.getLast? p =
        if ys.idxOf target < fuel then some (h', decide (target ∈ ys)) else none := by
  induction ys generalizing xs p with
  | nil =>
    obtain rfl := chain_nil.1 hp
    refine ⟨h, ?_, fun fuel => ?_⟩
    · rw [← hlist, List.erase_of_not_mem (by rw [hlist, List.append_nil]; exact hnot),
        Function.update_eq_self]
      exact hr
    · cases fuel <;> rfl
  | cons y ys ih =>
    obtain ⟨rfl, hrest⟩ := chain_cons.1 hp
    by_cases hy : y = target
    · subst hy
      refine ⟨h.unlink q xs.getLast? y, ?_, fun fuel => ?_⟩
      · rw [List.erase_append_right _ hnot, List.erase_cons_head]
        exact hr.unlink hlist
      · cases fuel with
        | zero => rfl
        | succ fuel => simp [WaitHeap.removeFrom]
    · have hstep : (xs ++ [y]).getLast? = some y := List.getLast?_concat
      have hsplit : xs ++ y :: ys = (xs ++ [y]) ++ ys := (List.append_assoc xs [y] ys).symm
      have hnot' : target ∉ xs ++ [y] := by
        intro hmem
        rcases List.mem_append.1 hmem with hmem | hmem
        · exact hnot hmem
        · exact hy (List.mem_singleton.1 hmem).symm
      obtain ⟨h', href, hloop⟩ := ih (hlist.trans hsplit) hnot' hrest
      refine ⟨h', ?_, fun fuel => ?_⟩
      · rw [hsplit]
        exact href
      · cases fuel with
        | zero => rfl
        | succ fuel =>
          rw [WaitHeap.removeFrom, if_neg hy, ← hstep, hloop fuel, List.idxOf_cons_ne _ hy]
          simp [Ne.symm hy]

/-- Every call is the list operation, and returns: it needs no fuel but for the loop of
`waitq_remove`, which looks at each node at most once. -/
theorem Refines.exec (hr : h.Refines c) (op : WaitOp κ ν) (hfresh : ∀ w ∈ op.pushed?, ∀ q, w ∉ c q) :
    ∃ (h' : WaitHeap κ ν) (n : Nat), h'.Refines (op.spec c).1 ∧ n ≤ op.tests c ∧
      ∀ fuel, h.exec fuel op = if n ≤ fuel then some (h', (op.spec c).2) else none := by
  cases op with
  | push q w =>
    exact ⟨_, 0, hr.push (hfresh w rfl), le_rfl, fun fuel => (if_pos (Nat.zero_le fuel)).symm⟩
  | pushFront q w =>
    exact ⟨_, 0, hr.pushFront (hfresh w rfl), le_rfl, fun fuel => (if_pos (Nat.zero_le fuel)).symm⟩
  | pop q =>
    obtain ⟨href, hres⟩ := hr.pop (q := q)
    refine ⟨_, 0, href, le_rfl, fun fuel => ?_⟩
    rw [if_pos (Nat.zero_le fuel), WaitHeap.exec, hres]
    rfl
  | remove q w =>
    obtain ⟨h', href, hloop⟩ := hr.removeFrom (q := q) (List.nil_append _).symm List.not_mem_nil
      (hr.holds q).chain
    refine ⟨h', (c q).idxOf w + 1, href, Nat.succ_le_succ List.idxOf_le_length, fun fuel => ?_⟩
    have hrun : h.waitqRemove fuel q w = _ := hloop fuel
    rw [WaitHeap.exec, hrun]
    by_cases hlt : (c q).idxOf w < fuel
    · rw [if_pos hlt, if_pos (Nat.succ_le_of_lt hlt)]
      rfl
    · rw [if_neg hlt, if_neg (by omega)]
      rfl

end WaitHeap

/-! ## Sequences of calls -/

/-- The heap and the calls made so far with what they returned. -/
structure WaitRun (κ ν : Type) where
  heap : WaitHeap κ ν
  done : List (WaitOp κ ν × WaitRes ν)

namespace WaitRun

/-- Empty queues over a heap with any links. -/
def init (next : ν → Option ν) : WaitRun κ ν where
  heap := { next := next, queue := fun _ => ⟨none, none⟩ }
  done := []

/-- One more call, with a bound on the tests of its loop. -/
def step (s : WaitRun κ ν) (l : WaitOp κ ν × Nat) : Option (WaitRun κ ν) :=
  (s.heap.exec l.2 l.1).map fun r => ⟨r.1, s.done ++ [(l.1, r.2)]⟩

/-- The pushed node is in no queue. -/
def Fresh (s : WaitRun κ ν) (l : WaitOp κ ν × Nat) : Prop := ∀ w ∈ l.1.pushed?, ¬ s.heap.Queued w

end WaitRun

/-- The lists after the calls, if every call returned what the list operation returns. -/
def WaitOp.replay (c : κ → List ν) (done : List (WaitOp κ ν × WaitRes ν)) : Option (κ → List ν) :=
  done.foldlM (fun c e => if (e.1.spec c).2 = e.2 then some (e.1.spec c).1 else none) c

section Runs

variable {s s' : WaitRun κ ν} {c : κ → List ν} {op : WaitOp κ ν}

omit [DecidableEq κ] [DecidableEq ν] in
theorem WaitHeap.Refines.init (next : ν → Option ν) :
    (WaitRun.init next : WaitRun κ ν).heap.Refines fun _ => [] where
  holds _ := ⟨rfl, rfl⟩
  apart _ _ _ hw := absurd hw List.not_mem_nil

/-- A call that pushes no queued node can be made; the lists and the result are those of the list
operation. -/
theorem WaitRun.exists_step (hr : s.heap.Refines c) (hfresh : ∀ w ∈ op.pushed?, ∀ q, w ∉ c q) :
    ∃ n, ∀ fuel ≥ n, ∃ s', s.step (op, fuel) = some s' ∧ s'.heap.Refines (op.spec c).1 ∧
      s'.done = s.done ++ [(op, (op.spec c).2)] := by
  obtain ⟨h', n, href, -, hexec⟩ := hr.exec op hfresh
  refine ⟨n, fun fuel hfuel => ⟨⟨h', s.done ++ [(op, (op.spec c).2)]⟩, ?_, href, rfl⟩⟩
  rw [WaitRun.step, hexec, if_pos hfuel]
  rfl

/-- What a call that was made has done. -/
theorem WaitRun.step_cases {fuel : Nat} (hr : s.heap.Refines c) (hfresh : s.Fresh (op, fuel))
    (hstep : s.step (op, fuel) = some s') :
    s'.heap.Refines (op.spec c).1 ∧ s'.done = s.done ++ [(op, (op.spec c).2)] := by
  have hnot : ∀ w ∈ op.pushed?, ∀ q, w ∉ c q := by
    intro w hw q hmem
    exact hfresh w hw (hr.queued_iff.2 ⟨q, hmem⟩)
  obtain ⟨h', n, href, -, hexec⟩ := hr.exec op hnot
  rw [WaitRun.step, hexec] at hstep
  by_cases hn : n ≤ fuel
  · rw [if_pos hn] at hstep
    cases hstep
    exact ⟨href, rfl⟩
  · rw [if_neg hn] at hstep
    cases hstep

/-- Along every sequence of calls the heap refines the lists that the calls leave. -/
theorem WaitRun.refines {next : ν → Option ν}
    (hrun : Reaches WaitRun.step WaitRun.Fresh (WaitRun.init next) s) :
    ∃ c : κ → List ν, WaitOp.replay (fun _ => []) s.done = some c ∧ s.heap.Refines c := by
  apply hrun.invariant (P := fun s => ∃ c, WaitOp.replay (fun _ => []) s.done = some c ∧ s.heap.Refines c)
  · exact ⟨_, rfl, .init next⟩
  rintro s ⟨op, fuel⟩ s' ⟨c, hreplay, hr⟩ hfresh hstep
  obtain ⟨href, hdone⟩ := WaitRun.step_cases hr hfresh hstep
  refine ⟨_, ?_, href⟩
  rw [WaitOp.replay] at hreplay
  rw [WaitOp.replay, hdone, List.foldlM_append, hreplay]
  show (if (op.spec c).2 = (op.spec c).2 then some (op.spec c).1 else none) >>= pure = _
  rw [if_pos rfl]
  rfl

/-- Any sequence of calls, from empty queues over a heap with any links, in which no queued node is
pushed: the links from a head are a finite chain without repetition that ends at the tail with a null
link, the nodes on it are what the calls leave when performed on lists (append, prepend, take the first,
delete the node), every call returned what the list operation returns, and every further call returns
that too, after a bounded number of tests. -/
theorem waitq_refines_list (next : ν → Option ν) (s : WaitRun κ ν)
    (hrun : Reaches WaitRun.step WaitRun.Fresh (WaitRun.init next) s) :
    ∃ c : κ → List ν, WaitOp.replay (fun _ => []) s.done = some c ∧
      (∀ q, Chain s.heap.next (s.heap.queue q).head (c q) ∧ (c q).Nodup ∧
        (s.heap.queue q).head = (c q).head? ∧ (s.heap.queue q).tail = (c q).getLast? ∧
        ∀ w ∈ (c q).getLast?, s.heap.next w = none) ∧
      ∀ op : WaitOp κ ν, (∀ w ∈ op.pushed?, ¬ s.heap.Queued w) → ∃ n, ∀ fuel ≥ n, ∃ s',
        s.step (op, fuel) = some s' ∧ s'.done = s.done ++ [(op, (op.spec c).2)] := by
  obtain ⟨c, hreplay, hr⟩ := WaitRun.refines hrun
  refine ⟨c, hreplay, fun q => ?_, fun op hfresh => ?_⟩
  · have hq := hr.holds q
    exact ⟨hq.chain, hq.chain.nodup, hq.chain.eq_head, hq.tail, fun w hw => hq.chain.next_getLast hw⟩
  · have hnot : ∀ w ∈ op.pushed?, ∀ q, w ∉ c q := fun w hw q hmem =>
      hfresh w hw (hr.queued_iff.2 ⟨q, hmem⟩)
    obtain ⟨n, hn⟩ := WaitRun.exists_step hr hnot
    refine ⟨n, fun fuel hfuel => ?_⟩
    obtain ⟨s', hstep, -, hdone⟩ := hn fuel hfuel
    exact ⟨s', hstep, hdone⟩

/-- A call that pushes no queued node can be made in a run. -/
theorem WaitRun.exists_stepOk (op : WaitOp κ ν) (hr : s.heap.Refines c) (hfresh : ∀ w ∈ op.pushed?, ∀ q, w ∉ c q) :
    ∃ s', StepOk WaitRun.step WaitRun.Fresh s s' ∧ s'.heap.Refines (op.spec c).1 ∧
      s'.done = s.done ++ [(op, (op.spec c).2)] := by
  obtain ⟨n, hn⟩ := WaitRun.exists_step hr hfresh
  obtain ⟨s', hstep, href, hdone⟩ := hn n le_rfl
  refine ⟨s', ⟨(op, n), ?_, hstep⟩, href, hdone⟩
  intro w hw hqueued
  obtain ⟨q, hmem⟩ := hr.queued_iff.1 hqueued
  exact hfresh w hw q hmem

end Runs

/-- Two nodes are pushed, the first is removed and pushed again, and a node that is not there is
removed. -/
theorem waitq_refines_list_requeued : ∃ (s : WaitRun Unit (Fin 3)) (c : Unit → List (Fin 3)),
    Reaches WaitRun.step WaitRun.Fresh (WaitRun.init fun _ => some 0) s ∧
    s.done = [(.push () 0, .void), (.push () 1, .void), (.remove () 0, .bool true),
      (.push () 0, .void), (.remove () 2, .bool false)] ∧
    c () = [1, 0] ∧ Chain s.heap.next (s.heap.queue ()).head (c ()) ∧
    (s.heap.queue ()).tail = (c ()).getLast? := by
  have hr₀ : (WaitRun.init fun _ => some 0 : WaitRun Unit (Fin 3)).heap.Refines fun _ => [] := .init _
  obtain ⟨s₁, h₁, hr₁, hd₁⟩ := WaitRun.exists_stepOk (.push () 0) hr₀ (by decide)
  obtain ⟨s₂, h₂, hr₂, hd₂⟩ := WaitRun.exists_stepOk (.push () 1) hr₁ (by decide)
  obtain ⟨s₃, h₃, hr₃, hd₃⟩ := WaitRun.exists_stepOk (.remove () 0) hr₂ (by decide)
  obtain ⟨s₄, h₄, hr₄, hd₄⟩ := WaitRun.exists_stepOk (.push () 0) hr₃ (by decide)
  obtain ⟨s, h₅, -, hd₅⟩ := WaitRun.exists_stepOk (.remove () 2) hr₄ (by decide)
  have hrun := ((((Relation.ReflTransGen.single h₁).tail h₂).tail h₃).tail h₄).tail h₅
  rw [hd₄, hd₃, hd₂, hd₁] at hd₅
  obtain ⟨c, hreplay, hq, -⟩ := waitq_refines_list _ s hrun
  rw [hd₅] at hreplay
  have hc : some (c ()) = some [1, 0] := congrArg (Option.map fun c : Unit → List (Fin 3) => c ()) hreplay.symm
  exact ⟨s, c, hrun, hd₅, Option.some.inj hc, (hq ()).1, (hq ()).2.2.2.1⟩

/-! ## The queues of the channels -/

section Channels

variable {T C α : Type} [DecidableEq C] [DecidableEq T] {K : Config T C} {s s' : Sys T C α}
  {l : Label T C α}

/-- The queue operation of a step on the channel `c`, where it has one. -/
def Effect.waitOp? (c : C) : Effect α → Option (WaitOp (C × ChanOp) Wid)
  | .claim o _ => some (.pop (c, o))
  | .drop o => some (.pop (c, o))
  | .enroll o w => some (.push (c, o) w)
  | .stub o w => some (.push (c, o) w)
  | .requeue o w => some (.push (c, o) w)
  | .remove o w => some (.remove (c, o) w)
  | .putBack o w => some (.pushFront (c, o) w)
  | _ => Option.none

/-- The wait queues of all channels, by their addresses. -/
def Mem.queues (m : Mem T C α) : C × ChanOp → List Wid := fun p => (m.chan p.1).queue p.2

/-- A step performs its queue operation on the lists of the channel model. -/
theorem Mem.queues_apply (m : Mem T C α) (t : T) (c : C) (e : Effect α) :
    (m.apply K t c e).queues = (e.waitOp? c).elim m.queues fun op => (op.spec m.queues).1 := by
  have hupdate : ∀ (o : ChanOp) (q : List Wid), e.queueAfter (m.chan c).queue =
      Function.update (m.chan c).queue o q →
      (m.apply K t c e).queues = Function.update m.queues (c, o) q := by
    intro o q he
    funext ⟨d, o'⟩
    rw [Mem.queues, Mem.queue_apply]
    by_cases hd : d = c
    · subst hd
      rw [if_pos rfl, he]
      by_cases ho : o' = o
      · subst ho
        rw [Function.update_self, Function.update_self]
      · rw [Function.update_of_ne ho, Function.update_of_ne (fun h => ho (congrArg Prod.snd h))]
        rfl
    · rw [if_neg hd, Function.update_of_ne (fun h => hd (congrArg Prod.fst h))]
      rfl
  have hsame : e.queueAfter (m.chan c).queue = (m.chan c).queue →
      (m.apply K t c e).queues = m.queues := by
    intro he
    funext ⟨d, o'⟩
    rw [Mem.queues, Mem.queue_apply]
    by_cases hd : d = c
    · subst hd
      rw [if_pos rfl, he]
      rfl
    · rw [if_neg hd]
      rfl
  cases e with
  | claim o w | drop o | enroll o w | stub o w | requeue o w | remove o w | putBack o w =>
    exact hupdate o _ rfl
  | _ => exact hsame rfl

omit [DecidableEq T] in
/-- No waiter is in two queues. -/
theorem SysInv.queues_apart (h : SysInv K s) (p p' : C × ChanOp) (w : Wid) (hw : w ∈ s.mem.queues p)
    (hw' : w ∈ s.mem.queues p') : p = p' := by
  obtain ⟨hc, ho⟩ := Sys.owned_unique h.calls (h.queues.queue p.1 p.2 w hw).owned
    (h.queues.queue p'.1 p'.2 w hw').owned
  exact Prod.ext hc ho

/-- If no node is queued twice after a call, the node it pushed was not queued before. -/
theorem WaitOp.not_mem_of_pushed {c : κ → List ν} {op : WaitOp κ ν}
    (hnodup : ∀ q, ((op.spec c).1 q).Nodup)
    (hapart : ∀ q q' w, w ∈ (op.spec c).1 q → w ∈ (op.spec c).1 q' → q = q') (w : ν)
    (hw : w ∈ op.pushed?) (q : κ) : w ∉ c q := by
  intro hmem
  have hmain : ∀ q₀ xs, (op.spec c).1 = Function.update c q₀ xs → w ∈ xs →
      (xs.Nodup → w ∉ c q₀) → False := by
    intro q₀ xs heq hxs hfirst
    have hnew : (op.spec c).1 q₀ = xs := by rw [heq, Function.update_self]
    by_cases hq : q = q₀
    · subst hq
      exact hfirst (hnew ▸ hnodup q) hmem
    · have hold : (op.spec c).1 q = c q := by rw [heq, Function.update_of_ne hq]
      exact hq (hapart q q₀ w (by rw [hold]; exact hmem) (by rw [hnew]; exact hxs))
  cases op with
  | push q₀ v =>
    cases hw
    refine hmain q₀ _ rfl (List.mem_append_right _ (List.mem_singleton_self w)) fun hxs hin => ?_
    exact (List.nodup_append.1 hxs).2.2 w hin w (List.mem_singleton_self w) rfl
  | pushFront q₀ v =>
    cases hw
    exact hmain q₀ _ rfl List.mem_cons_self fun hxs => (List.nodup_cons.1 hxs).1
  | pop q₀ => cases hw
  | remove q₀ v => cases hw

end Channels

end LibChan
