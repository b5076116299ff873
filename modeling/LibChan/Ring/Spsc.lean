import LibChan.Ring.Machine

/-!
# The cursor-cached ring operations

`ring_spsc_push` and `ring_spsc_pop` compare the own head with a private copy of the opposite tail
and load the real tail only when the copy says the ring may be full or empty. `SpscPc` is the place
of a thread inside one of them, and `Ring.spscStep` performs its next access.
-/

set_option autoImplicit false

namespace LibChan

variable {T ω β : Type}

/-- The place of a thread inside `ring_spsc_push` or `ring_spsc_pop`; `op` is a single push or pop. -/
inductive SpscPc (ω β : Type)
  | loadHead (op : RingOp ω β)
  | refresh (op : RingOp ω β) (h : U32)
  | copy (op : RingOp ω β) (h : U32)
  | storeTail (op : RingOp ω β) (h : U32) (acc : List β)
  | storeHead (op : RingOp ω β) (h : U32) (acc : List β)
  deriving DecidableEq

/-- The operation of a cached place. -/
def SpscPc.op : SpscPc ω β → RingOp ω β
  | loadHead op => op
  | refresh op _ => op
  | copy op _ => op
  | storeTail op _ _ => op
  | storeHead op _ _ => op

/-- The full or empty check of the cached operations, against any value `o` of the opposite tail. The
consumer compares as `int32_t`. -/
def spscBlocked (cap : RingCap) (h o : U32) : ChanOp → Bool
  | .send => cap.val ≤ h - o
  | .recv => 0 ≤ (h - o).toInt

namespace Ring

/-- Overwrite the private copy of the opposite tail. -/
def setCached (r : Ring β) (o : ChanOp) (v : U32) : Ring β :=
  { r with cur := Function.update r.cur o { r.cur o with cached := v } }

/-- The next access of a thread inside a cached operation. The private copy is only touched by its
owner and goes with the load next to it. -/
def spscStep (cap : RingCap) (r : Ring β) : SpscPc ω β → Ring β × (SpscPc ω β ⊕ RingRes β)
  | .loadHead op =>
    let h := (r.cur op.side).head
    if spscBlocked cap h (r.cur op.side).cached op.side then (r, .inl (.refresh op h))
    else (r, .inl (.copy op h))
  | .refresh op h =>
    let o := (r.cur op.side.other).tail
    if spscBlocked cap h o op.side then (r.setCached op.side o, .inr .fail)
    else (r.setCached op.side o, .inl (.copy op h))
  | .copy op h =>
    let (r', acc) := r.copyElem cap op h 1 0 []
    (r', .inl (.storeTail op h acc))
  | .storeTail op h acc => (r.setTail op.side (h + 1), .inl (.storeHead op h acc))
  | .storeHead op h acc => (r.setHead op.side (h + 1), .inr ⟨1, acc⟩)

end Ring

/-- The history after the next access of a cached operation: the position counts as reserved and
committed when the tail is stored. -/
def RingGhost.spscStep [DecidableEq T] (g : RingGhost T ω β) (cap : RingCap) (r : Ring β) (t : T) :
    SpscPc ω β → RingGhost T ω β
  | .loadHead op => g.setMark t (g.reserved op.side)
  | .refresh _ _ => g
  | .copy op h =>
    match op.side with
    | .send => g
    | .recv => g.setCopied (g.mark t) (r.slots (op.slot cap h 1 0))
  | .storeTail op _ _ => (g.reserve t op 1).commit op.side 1
  | .storeHead _ _ _ => g

end LibChan
