import LibChan.Ring.Capacity
import LibChan.Base.Reach

/-!
# The lock-free ring as a machine of atomic steps

The four ring operations `ring_lf_push`, `ring_lf_pop`, `ring_lf_enqueue_burst` and
`ring_lf_dequeue_burst` run the same three phases on the producer or the consumer cursors: load
the own head and the opposite tail, reserve a run of positions with a CAS on the head, copy the
slots, wait for the own tail to reach the run, and store the tail past it. `RingPc` is the place of
one thread in such an operation, and `Ring.step` performs its next atomic access.

`RingGhost` is bookkeeping that no step of the code reads: the values in producer reservation order,
the takers in consumer reservation order, the committed counts as unbounded numbers, and for each
thread the unbounded count of its head cursor when it last loaded or reserved.

`RingSys` is a ring shared by a set of threads, each running any sequence of the four operations.
-/

set_option autoImplicit false

namespace LibChan

/-- `chan_op_t`. It also names the two halves of a ring (`send` is `prod`, `recv` is `cons`) and the
two wait queues of a channel. -/
inductive ChanOp
  | send
  | recv
  deriving DecidableEq, Repr

namespace ChanOp

/-- The opposite direction. -/
def other : ChanOp → ChanOp
  | send => recv
  | recv => send

@[simp] theorem other_send : other send = recv := rfl

@[simp] theorem other_recv : other recv = send := rfl

@[simp] theorem other_other (o : ChanOp) : o.other.other = o := by
  cases o <;> rfl

@[simp] theorem other_ne (o : ChanOp) : o.other ≠ o := by
  cases o <;> exact fun h => ChanOp.noConfusion h

@[simp] theorem ne_other (o : ChanOp) : o ≠ o.other := (other_ne o).symm

end ChanOp

/-- The cursors of one half of the ring; `cached` is the private copy of the opposite tail that the
single-producer single-consumer variants keep. -/
structure Cursors where
  head : U32
  tail : U32
  cached : U32

/-- The mutable part of `chan_ring_lf_t` over cells of type `β`. -/
structure Ring (β : Type) where
  cur : ChanOp → Cursors
  slots : U32 → β

/-- A ring as `ring_lf_init` leaves it: all cursors zero, the slots with any content. -/
def Ring.init {β : Type} (slots : U32 → β) : Ring β := ⟨fun _ => ⟨0, 0, 0⟩, slots⟩

/-- A ring operation with its payload. Each element carries a tag `ω` for the bookkeeping. -/
inductive RingOp (ω β : Type)
  | push (w : ω) (x : β)
  | pop (w : ω)
  | enqueueBurst (xs : List (ω × β))
  | dequeueBurst (ws : List ω)
  deriving DecidableEq

namespace RingOp

variable {ω β : Type}

/-- The half of the ring whose head the operation advances. -/
def side : RingOp ω β → ChanOp
  | push _ _ => .send
  | pop _ => .recv
  | enqueueBurst _ => .send
  | dequeueBurst _ => .recv

/-- The elements a producer operation offers. -/
def data : RingOp ω β → List (ω × β)
  | push w x => [(w, x)]
  | enqueueBurst xs => xs
  | _ => []

/-- The takers a consumer operation has room for. -/
def tags : RingOp ω β → List ω
  | pop w => [w]
  | dequeueBurst ws => ws
  | _ => []

/-- The number of elements asked for. -/
def want : RingOp ω β → Nat
  | push _ _ => 1
  | pop _ => 1
  | enqueueBurst xs => xs.length
  | dequeueBurst ws => ws.length

/-- Operations that reach Phase 1: the count is a nonzero `uint32_t`. -/
def Valid (op : RingOp ω β) : Prop := 0 < op.want ∧ op.want < 2 ^ 32

/-- Phase 1 check on the loaded head `h` and the loaded opposite tail `o`: the number of positions
to reserve, or `none` when the operation returns without moving anything. -/
def reserve (cap : RingCap) (h o : U32) : RingOp ω β → Option U32
  | push _ _ => if h - o ≥ cap.val then none else some 1
  | pop _ => if o = h then none else some 1
  | enqueueBurst xs =>
    let n : U32 := BitVec.ofNat 32 xs.length
    let freeEntries := cap.val - (h - o)
    if freeEntries = 0 then none else some (if n < freeEntries then n else freeEntries)
  | dequeueBurst ws =>
    let n : U32 := BitVec.ofNat 32 ws.length
    let avail := o - h
    if avail = 0 then none else some (if n < avail then n else avail)

end RingOp

/-- The slot that the burst copies visit at index `i` of a run of `k` positions from `h`: from
`h & mask` up to the end of the array, and then from slot zero. -/
def burstSlot (cap : RingCap) (h k : U32) (i : Nat) : U32 :=
  let idx := h &&& cap.mask
  let first := cap.val - idx
  if first ≥ k then idx + BitVec.ofNat 32 i
  else if i < first.toNat then idx + BitVec.ofNat 32 i
  else BitVec.ofNat 32 i - first

/-- The slot of element `i` of the reserved run. -/
def RingOp.slot {ω β : Type} (cap : RingCap) (h k : U32) (i : Nat) : RingOp ω β → U32
  | .push _ _ => h &&& cap.mask
  | .pop _ => h &&& cap.mask
  | .enqueueBurst _ => burstSlot cap h k i
  | .dequeueBurst _ => burstSlot cap h k i

/-- The place of a thread inside a ring operation. `h` is the head it loaded, `k` the number of
positions it asks for, `i` the next element to copy, `acc` the cells a consumer has copied out. -/
inductive RingPc (ω β : Type)
  | loadHead (op : RingOp ω β)
  | loadOpp (op : RingOp ω β) (h : U32)
  | cas (op : RingOp ω β) (h k : U32)
  | copy (op : RingOp ω β) (h k : U32) (i : Nat) (acc : List β)
  | wait (op : RingOp ω β) (h k : U32) (acc : List β)
  | store (op : RingOp ω β) (h k : U32) (acc : List β)
  deriving DecidableEq

/-- The operation a thread is in. -/
def RingPc.op {ω β : Type} : RingPc ω β → RingOp ω β
  | loadHead op => op
  | loadOpp op _ => op
  | cas op _ _ => op
  | copy op _ _ _ _ => op
  | wait op _ _ _ => op
  | store op _ _ _ => op

/-- What a ring operation returns: the number of elements moved and, for consumers, the cells. -/
structure RingRes (β : Type) where
  moved : Nat
  vals : List β

/-- Full or empty: nothing moved. -/
def RingRes.fail {β : Type} : RingRes β := ⟨0, []⟩

namespace Ring

variable {ω β : Type}

/-- Overwrite the head of one half. -/
def setHead (r : Ring β) (o : ChanOp) (v : U32) : Ring β :=
  { r with cur := Function.update r.cur o { r.cur o with head := v } }

/-- Overwrite the tail of one half. -/
def setTail (r : Ring β) (o : ChanOp) (v : U32) : Ring β :=
  { r with cur := Function.update r.cur o { r.cur o with tail := v } }

/-- Overwrite one slot. -/
def setSlot (r : Ring β) (i : U32) (x : β) : Ring β :=
  { r with slots := Function.update r.slots i x }

/-- Copy element `i` of the run: into the slot for a producer, out of it for a consumer. -/
def copyElem (cap : RingCap) (r : Ring β) (op : RingOp ω β) (h k : U32) (i : Nat) (acc : List β) :
    Ring β × List β :=
  match op.side with
  | .send =>
    match op.data[i]? with
    | some x => (r.setSlot (op.slot cap h k i) x.2, acc)
    | none => (r, acc)
  | .recv => (r, acc ++ [r.slots (op.slot cap h k i)])

theorem copyElem_cur (cap : RingCap) (r : Ring β) (op : RingOp ω β) (h k : U32) (i : Nat)
    (acc : List β) : (r.copyElem cap op h k i acc).1.cur = r.cur := by
  rw [Ring.copyElem]
  split
  · split <;> rfl
  · rfl

/-- The next atomic access of a thread inside a ring operation. `weak` is a spurious failure of the
weak CAS. -/
def step (cap : RingCap) (r : Ring β) (weak : Bool) :
    RingPc ω β → Ring β × (RingPc ω β ⊕ RingRes β)
  | .loadHead op => (r, .inl (.loadOpp op (r.cur op.side).head))
  | .loadOpp op h =>
    match op.reserve cap h (r.cur op.side.other).tail with
    | none => (r, .inr .fail)
    | some k => (r, .inl (.cas op h k))
  | .cas op h k =>
    if weak = false ∧ (r.cur op.side).head = h then
      (r.setHead op.side (h + k), .inl (.copy op h k 0 []))
    else (r, .inl (.loadHead op))
  | .copy op h k i acc =>
    let (r', acc') := r.copyElem cap op h k i acc
    if i + 1 < k.toNat then (r', .inl (.copy op h k (i + 1) acc'))
    else (r', .inl (.wait op h k acc'))
  | .wait op h k acc =>
    if (r.cur op.side).tail = h then (r, .inl (.store op h k acc))
    else (r, .inl (.wait op h k acc))
  | .store op h k acc => (r.setTail op.side (h + k), .inr ⟨k.toNat, acc⟩)

end Ring

/-! ## Bookkeeping -/

/-- Unbounded history of a ring. `mark t` is the head count thread `t` saw at its last head load, and
after its reservation the first position of its run. -/
structure RingGhost (T ω β : Type) where
  log : List (ω × β)
  takers : List ω
  committed : ChanOp → Nat
  mark : T → Nat
  copied : Nat → Option β

namespace RingGhost

variable {T ω β : Type} [DecidableEq T]

/-- The history of a new ring. -/
def init : RingGhost T ω β := ⟨[], [], fun _ => 0, fun _ => 0, fun _ => none⟩

/-- The number of positions ever reserved on one half. -/
def reserved (g : RingGhost T ω β) : ChanOp → Nat
  | .send => g.log.length
  | .recv => g.takers.length

/-- Record the head count a thread saw. -/
def setMark (g : RingGhost T ω β) (t : T) (m : Nat) : RingGhost T ω β :=
  { g with mark := Function.update g.mark t m }

/-- Record the cell copied out at a consumer position. -/
def setCopied (g : RingGhost T ω β) (n : Nat) (x : β) : RingGhost T ω β :=
  { g with copied := Function.update g.copied n (some x) }

/-- Count `k` more committed positions. -/
def commit (g : RingGhost T ω β) (o : ChanOp) (k : Nat) : RingGhost T ω β :=
  { g with committed := Function.update g.committed o (g.committed o + k) }

theorem mark_setMark_self (g : RingGhost T ω β) (t : T) (m : Nat) : (g.setMark t m).mark t = m :=
  Function.update_self ..

theorem mark_setMark_of_ne (g : RingGhost T ω β) {t u : T} (h : u ≠ t) (m : Nat) :
    (g.setMark t m).mark u = g.mark u := Function.update_of_ne h ..

omit [DecidableEq T] in
theorem copied_setCopied_self (g : RingGhost T ω β) (n : Nat) (x : β) :
    (g.setCopied n x).copied n = some x := Function.update_self ..

omit [DecidableEq T] in
theorem copied_setCopied_of_ne (g : RingGhost T ω β) {m n : Nat} (h : m ≠ n) (x : β) :
    (g.setCopied n x).copied m = g.copied m := Function.update_of_ne h ..

omit [DecidableEq T] in
theorem committed_commit_self (g : RingGhost T ω β) (o : ChanOp) (k : Nat) :
    (g.commit o k).committed o = g.committed o + k := Function.update_self ..

omit [DecidableEq T] in
theorem committed_commit_of_ne (g : RingGhost T ω β) {o o' : ChanOp} (h : o' ≠ o) (k : Nat) :
    (g.commit o k).committed o' = g.committed o' := Function.update_of_ne h ..

/-- Append the reserved elements or takers. -/
def reserve (g : RingGhost T ω β) (t : T) (op : RingOp ω β) (k : Nat) : RingGhost T ω β :=
  match op.side with
  | .send => { g with log := g.log ++ op.data.take k,
                      mark := Function.update g.mark t g.log.length }
  | .recv => { g with takers := g.takers ++ op.tags.take k,
                      mark := Function.update g.mark t g.takers.length }

/-- The history after the next access of thread `t`. -/
def step (g : RingGhost T ω β) (cap : RingCap) (r : Ring β) (t : T) (weak : Bool) :
    RingPc ω β → RingGhost T ω β
  | .loadHead op => g.setMark t (g.reserved op.side)
  | .loadOpp _ _ => g
  | .cas op h k =>
    if weak = false ∧ (r.cur op.side).head = h then g.reserve t op k.toNat else g
  | .copy op h k i _ =>
    match op.side with
    | .send => g
    | .recv => g.setCopied (g.mark t + i) (r.slots (op.slot cap h k i))
  | .wait _ _ _ _ => g
  | .store op _ k _ => g.commit op.side k.toNat

/-- Fewer than `2 ^ 32` positions have been reserved since thread `t` loaded its head cursor. -/
def Fresh (g : RingGhost T ω β) (t : T) (o : ChanOp) : Prop := g.reserved o - g.mark t < 2 ^ 32

/-- A thread about to perform its CAS loaded the head fewer than `2 ^ 32` reservations ago. -/
def CasFresh (g : RingGhost T ω β) (t : T) : RingPc ω β → Prop
  | .cas op _ _ => g.Fresh t op.side
  | _ => True

instance (g : RingGhost T ω β) (t : T) : DecidablePred (g.CasFresh t)
  | .cas op _ _ => inferInstanceAs (Decidable (g.reserved op.side - g.mark t < 2 ^ 32))
  | .loadHead _ => .isTrue trivial
  | .loadOpp _ _ => .isTrue trivial
  | .copy _ _ _ _ _ => .isTrue trivial
  | .wait _ _ _ _ => .isTrue trivial
  | .store _ _ _ _ => .isTrue trivial

end RingGhost

/-! ## A ring shared by threads -/

/-- A ring, its history, and the place of every thread; `none` outside the ring operations. -/
structure RingSys (T ω β : Type) where
  ring : Ring β
  hist : RingGhost T ω β
  pc : T → Option (RingPc ω β)

/-- Who moves: a thread starts an operation, or performs the next access of its operation. -/
inductive RingLabel (T ω β : Type)
  | start (t : T) (op : RingOp ω β)
  | access (t : T) (weak : Bool)

namespace RingSys

variable {T ω β : Type} [DecidableEq T]

/-- A new ring with no thread inside. -/
def init (slots : U32 → β) : RingSys T ω β := ⟨Ring.init slots, RingGhost.init, fun _ => none⟩

/-- One step of the shared ring. A call with count zero returns at once and is not a step. -/
def step (cap : RingCap) (s : RingSys T ω β) : RingLabel T ω β → Option (RingSys T ω β)
  | .start t op =>
    match s.pc t with
    | some _ => none
    | none =>
      if 0 < op.want ∧ op.want < 2 ^ 32 then
        some { s with pc := Function.update s.pc t (some (.loadHead op)) }
      else none
  | .access t weak =>
    match s.pc t with
    | none => none
    | some p =>
      some { ring := (s.ring.step cap weak p).1
             hist := s.hist.step cap s.ring t weak p
             pc := Function.update s.pc t (s.ring.step cap weak p).2.getLeft? }

/-- The assumption on a step: a CAS is performed before `2 ^ 32` positions have been reserved since
the load of the head it compares with. -/
def CasFresh (s : RingSys T ω β) : RingLabel T ω β → Prop
  | .start _ _ => True
  | .access t _ => ∀ p ∈ s.pc t, s.hist.CasFresh t p

instance (s : RingSys T ω β) : DecidablePred s.CasFresh
  | .start _ _ => .isTrue trivial
  | .access t _ => inferInstanceAs (Decidable (∀ p ∈ s.pc t, s.hist.CasFresh t p))

end RingSys

end LibChan
