import LibChan.Ring.Layout
import LibChan.Ring.Contents
import LibChan.Base.Memory

/-!
# Ring operations on bytes

The four ring operations and `ring_lf_count` on the block of bytes, run one after another: cursor
arithmetic in 32 bits, offsets and lengths in `size_t`, one or two `memcpy` for a burst. A call that
leaves the block, or that would wait for another thread, has no result. `weak` is the number of
spurious failures of the weak CAS.

`RingLf.cells` forgets the bytes and gives the ring of the machine in `Ring.Machine` with whole elements
in its slots; on a ring that is laid out safely each operation is the one of that machine
(`Sized.push_cells` and its siblings). `ring_refines_queue` combines this with the contents of that ring: any
sequence of calls on a new ring has the results of a bounded queue.
-/

set_option autoImplicit false

namespace LibChan

theorem Ring.eq_of {β : Type} {r r' : Ring β} (hcur : r.cur = r'.cur) (hslots : r.slots = r'.slots) :
    r = r' := by
  cases r
  cases r'
  cases hcur
  cases hslots
  rfl

namespace RingLf

/-! ## The operations -/

/-- Overwrite the head of one half. -/
def setHead (r : RingLf) (o : ChanOp) (v : U32) : RingLf :=
  { r with cur := Function.update r.cur o { r.cur o with head := v } }

/-- Overwrite the tail of one half. -/
def setTail (r : RingLf) (o : ChanOp) (v : U32) : RingLf :=
  { r with cur := Function.update r.cur o { r.cur o with tail := v } }

/-- `(size_t)n * r->elem_size`. -/
def bytes (r : RingLf) (n : U32) : Nat := (n.setWidth 64 * r.elemSize).toNat

/-- Phase 1: load the own head and the opposite tail, and advance the head unless the check fails. A
spurious failure of the CAS starts over. -/
def reserve (r : RingLf) (o : ChanOp) (check : U32 → U32 → Option U32) :
    Nat → Option (U32 × U32 × RingLf)
  | 0 =>
    let h := (r.cur o).head
    (check h (r.cur o.other).tail).map fun k => (h, k, r.setHead o (h + k))
  | weak + 1 =>
    match check (r.cur o).head (r.cur o.other).tail with
    | none => none
    | some _ => reserve r o check weak

/-- Phase 3: store the tail once it has reached the run. -/
def commit (r : RingLf) (o : ChanOp) (h k : U32) : Option RingLf :=
  if (r.cur o).tail = h then some (r.setTail o (h + k)) else none

/-- Phase 2 of `ring_lf_enqueue_burst`. -/
def copyIn (r : RingLf) (h k : U32) (data : List Byte) : Option (List Byte) :=
  let idx := h &&& r.mask
  let first := r.cap.val - idx
  if first ≥ k then Memory.copy r.slots (r.bytes idx) data 0 (r.bytes k)
  else do
    let slots ← Memory.copy r.slots (r.bytes idx) data 0 (r.bytes first)
    Memory.copy slots 0 data (r.bytes first) (r.bytes (k - first))

/-- Phase 2 of `ring_lf_dequeue_burst`; gives the bytes written to `out`. -/
def copyOut (r : RingLf) (h k : U32) : Option (List Byte) :=
  let idx := h &&& r.mask
  let first := r.cap.val - idx
  if first ≥ k then Memory.read r.slots (r.bytes idx) (r.bytes k)
  else do
    let front ← Memory.read r.slots (r.bytes idx) (r.bytes first)
    let back ← Memory.read r.slots 0 (r.bytes (k - first))
    return front ++ back

/-- `ring_lf_push`. -/
def push (r : RingLf) (weak : Nat) (data : List Byte) : Option (RingLf × Bool) :=
  match r.reserve .send (fun ph ct => if ph - ct ≥ r.cap.val then none else some 1) weak with
  | none => some (r, false)
  | some (ph, k, r₁) => do
    let slots ← Memory.copy r.slots (r.bytes (ph &&& r.mask)) data 0 r.elemSize.toNat
    let r₂ ← { r₁ with slots := slots }.commit .send ph k
    return (r₂, true)

/-- `ring_lf_pop`; gives the bytes written to `out`. -/
def pop (r : RingLf) (weak : Nat) : Option (RingLf × Option (List Byte)) :=
  match r.reserve .recv (fun ch pt => if pt = ch then none else some 1) weak with
  | none => some (r, none)
  | some (ch, k, r₁) => do
    let out ← Memory.read r.slots (r.bytes (ch &&& r.mask)) r.elemSize.toNat
    let r₂ ← r₁.commit .recv ch k
    return (r₂, some out)

/-- `ring_lf_enqueue_burst`. -/
def enqueueBurst (r : RingLf) (weak : Nat) (data : List Byte) (n : U32) : Option (RingLf × U32) :=
  if n = 0 then some (r, 0)
  else
    let check := fun ph ct =>
      let freeEntries := r.cap.val - (ph - ct)
      if freeEntries = 0 then none else some (if n < freeEntries then n else freeEntries)
    match r.reserve .send check weak with
    | none => some (r, 0)
    | some (ph, k, r₁) => do
      let slots ← r.copyIn ph k data
      let r₂ ← { r₁ with slots := slots }.commit .send ph k
      return (r₂, k)

/-- `ring_lf_dequeue_burst`. -/
def dequeueBurst (r : RingLf) (weak : Nat) (n : U32) : Option (RingLf × U32 × List Byte) :=
  if n = 0 then some (r, 0, [])
  else
    let check := fun ch pt =>
      let avail := pt - ch
      if avail = 0 then none else some (if n < avail then n else avail)
    match r.reserve .recv check weak with
    | none => some (r, 0, [])
    | some (ch, k, r₁) => do
      let out ← r.copyOut ch k
      let r₂ ← r₁.commit .recv ch k
      return (r₂, k, out)

/-- `ring_lf_count`. -/
def count (r : RingLf) : U32 := (r.cur .send).tail - (r.cur .recv).head

/-! ## Whole elements -/

/-- The ring with the elements of its slots instead of their bytes. -/
def cells (r : RingLf) : Ring (List Byte) :=
  ⟨r.cur, fun s => Memory.chunk r.elemSize.toNat r.slots s.toNat⟩

/-- The layout `ring_lf_init` establishes for a request that is not too large. -/
structure Sized (r : RingLf) : Prop where
  mask : r.mask = r.cap.mask
  pos : 0 < r.cap.size
  fits : r.cap.size * r.elemSize.toNat < 2 ^ 64
  block : r.slots.length = r.cap.size * r.elemSize.toNat

variable {r : RingLf}

theorem reserve_eq (o : ChanOp) (check : U32 → U32 → Option U32) (weak : Nat) :
    r.reserve o check weak = (check (r.cur o).head (r.cur o.other).tail).map fun k =>
      ((r.cur o).head, k, r.setHead o ((r.cur o).head + k)) := by
  induction weak with
  | zero => rfl
  | succ weak ih =>
    rw [reserve]
    cases hcheck : check (r.cur o).head (r.cur o.other).tail with
    | none => rfl
    | some k =>
      rw [hcheck] at ih
      exact ih

/-- Sizes of at most one array do not wrap. -/
theorem Sized.bytes_eq (hs : r.Sized) {n : U32} (hn : n.toNat ≤ r.cap.size) :
    r.bytes n = n.toNat * r.elemSize.toNat := by
  have hlt : n.toNat * r.elemSize.toNat < 2 ^ 64 :=
    lt_of_le_of_lt (Nat.mul_le_mul_right _ hn) hs.fits
  have hword : (n.setWidth 64).toNat = n.toNat := by
    rw [BitVec.toNat_setWidth, Nat.mod_eq_of_lt (lt_trans n.isLt (by decide))]
  rw [bytes, BitVec.toNat_mul, hword, Nat.mod_eq_of_lt hlt]

/-- The masked head is the slot of its position. -/
theorem Sized.slot_toNat (hs : r.Sized) (h : U32) : (h &&& r.mask).toNat = h.toNat % r.cap.size := by
  rw [hs.mask, r.cap.toNat_and_mask hs.pos]

/-- The number of slots from a slot to the end of the array. -/
theorem Sized.first_toNat (hs : r.Sized) (h : U32) :
    (r.cap.val - (h &&& r.mask)).toNat = r.cap.size - h.toNat % r.cap.size := by
  have hslot := hs.slot_toNat h
  have hlt := Nat.mod_lt h.toNat hs.pos
  have hle : h &&& r.mask ≤ r.cap.val := by
    rw [BitVec.le_def, hslot]
    exact hlt.le
  rw [BitVec.toNat_sub_of_le hle, hslot]
  rfl

theorem Sized.bytes_slot (hs : r.Sized) (h : U32) :
    r.bytes (h &&& r.mask) = h.toNat % r.cap.size * r.elemSize.toNat := by
  have hslot := hs.slot_toNat h
  have hlt := Nat.mod_lt h.toNat hs.pos
  rw [hs.bytes_eq (by omega), hslot]

theorem Sized.bytes_first (hs : r.Sized) (h : U32) : r.bytes (r.cap.val - (h &&& r.mask)) =
    (r.cap.size - h.toNat % r.cap.size) * r.elemSize.toNat := by
  have hfirst := hs.first_toNat h
  rw [hs.bytes_eq (by omega), hfirst]

theorem Sized.bytes_rest (hs : r.Sized) {h k : U32} (hk : k.toNat ≤ r.cap.size)
    (hmore : ¬ k.toNat ≤ r.cap.size - h.toNat % r.cap.size) :
    r.bytes (k - (r.cap.val - (h &&& r.mask))) =
      (k.toNat - (r.cap.size - h.toNat % r.cap.size)) * r.elemSize.toNat := by
  have hfirst := hs.first_toNat h
  have hrest : (k - (r.cap.val - (h &&& r.mask))).toNat =
      k.toNat - (r.cap.size - h.toNat % r.cap.size) := by
    rw [BitVec.toNat_sub_of_le (BitVec.le_def.2 (by omega)), hfirst]
  rw [hs.bytes_eq (by omega), hrest]

/-- The one or two `memcpy` of a burst push copy a run of the circular array. -/
theorem Sized.copyIn_eq (hs : r.Sized) {h k : U32} (hk : k.toNat ≤ r.cap.size) (data : List Byte) :
    r.copyIn h k data = Memory.copyRound r.elemSize.toNat r.cap.size r.slots
      (h.toNat % r.cap.size) k.toNat data := by
  rw [copyIn, Memory.copyRound]
  simp only [ge_iff_le, BitVec.le_def, hs.first_toNat, hs.bytes_eq hk, hs.bytes_slot, hs.bytes_first]
  split
  · rfl
  case isFalse hmore =>
    rw [hs.bytes_rest hk hmore]
    rfl

/-- The one or two `memcpy` of a burst pop read a run of the circular array. -/
theorem Sized.copyOut_eq (hs : r.Sized) {h k : U32} (hk : k.toNat ≤ r.cap.size) :
    r.copyOut h k = Memory.readRound r.elemSize.toNat r.cap.size r.slots
      (h.toNat % r.cap.size) k.toNat := by
  rw [copyOut, Memory.readRound]
  simp only [ge_iff_le, BitVec.le_def, hs.first_toNat, hs.bytes_eq hk, hs.bytes_slot, hs.bytes_first]
  split
  · rfl
  case isFalse hmore =>
    rw [hs.bytes_rest hk hmore]
    rfl

/-! ## One operation -/

/-- A run of `k` reserved, copied and committed. -/
def advance (r : RingLf) (o : ChanOp) (k : U32) (slots : List Byte) : RingLf :=
  { r.setHead o ((r.cur o).head + k) with slots := slots }.setTail o ((r.cur o).head + k)

/-- The same ring with other cursors and other bytes. -/
structure Like (r r' : RingLf) : Prop where
  cap : r'.cap = r.cap
  elemSize : r'.elemSize = r.elemSize
  sized : r'.Sized

variable {op : RingOp Unit (List Byte)} {k : U32}

/-- The slot of element `j` of a run as a number. -/
theorem Sized.slot_eq (hs : r.Sized) {h : U32} (hkw : k.toNat ≤ op.want)
    (hk : k.toNat ≤ r.cap.size) {j : Nat} (hj : j < k.toNat) :
    op.slot r.cap h k j = Wrap.slotOf r.cap.size (h.toNat + j) ∧
      (op.slot r.cap h k j).toNat = (h.toNat % r.cap.size + j) % r.cap.size := by
  have hslot : op.slot r.cap (BitVec.ofNat 32 h.toNat) k j = _ := RingOp.slot_eq hj hkw hk
  rw [BitVec.ofNat_toNat, BitVec.setWidth_eq] at hslot
  refine ⟨hslot, ?_⟩
  rw [hslot, r.cap.toNat_slotOf hs.pos, Nat.mod_add_mod]

/-- A producer that has written its elements to the slots of its run and committed it has done what the
machine does with whole elements. -/
theorem Sized.cells_send (hs : r.Sized) (hside : op.side = .send) (hkw : k.toNat ≤ op.want)
    (hk : k.toNat ≤ r.cap.size) {slots : List Byte}
    (hwritten : ∀ j < k.toNat, some (Memory.chunk r.elemSize.toNat slots
      (((r.cur op.side).head.toNat % r.cap.size + j) % r.cap.size)) = (op.data[j]?).map Prod.snd)
    (hkept : ∀ i, (∀ j < k.toNat,
      ((r.cur op.side).head.toNat % r.cap.size + j) % r.cap.size ≠ i) →
      Memory.chunk r.elemSize.toNat slots i = Memory.chunk r.elemSize.toNat r.slots i) :
    r.cells.done r.cap op k =
      ((r.advance op.side k slots).cells, ⟨k.toNat, []⟩) := by
  have hslot := fun j (hj : j < k.toNat) => hs.slot_eq (h := (r.cur op.side).head) hkw hk hj
  have hinj : ∀ i j, i < k.toNat → j < k.toNat → op.slot r.cap (r.cur op.side).head k i =
      op.slot r.cap (r.cur op.side).head k j → i = j := by
    intro i j hi hj heq
    rw [(hslot i hi).1, (hslot j hj).1] at heq
    have hsize := r.cap.size_le
    have := Wrap.slotOf_inj (a := (r.cur op.side).head.toNat) (by omega) (by omega) (by omega)
      (by omega) (by omega) heq
    omega
  obtain ⟨hvals, hcopied, hother⟩ := Ring.copyRun_send hside hinj
    (by rw [RingOp.data_length hside]; exact hkw) k.toNat 0
    (r.cells.setHead op.side ((r.cur op.side).head + k)) [] (Nat.zero_add _).le
  refine Prod.ext (Ring.eq_of ?_ (funext fun s => ?_)) (congrArg (RingRes.mk k.toNat) hvals)
  · refine (r.cells.done_cur op k).trans ?_
    simp only [cells, advance, setTail, setHead, Function.update_self, Function.update_idem]
  · show (Ring.copyRun r.cap op (r.cur op.side).head k k.toNat 0
      (r.cells.setHead op.side ((r.cur op.side).head + k)) []).1.slots s =
      Memory.chunk r.elemSize.toNat slots s.toNat
    by_cases hs' : ∃ j < k.toNat, op.slot r.cap (r.cur op.side).head k j = s
    · obtain ⟨j, hj, rfl⟩ := hs'
      have hnew := hwritten j hj
      rw [← (hslot j hj).2, ← hcopied j (Nat.zero_le j) (by omega)] at hnew
      exact (Option.some.inj hnew).symm
    · rw [hother s fun j _ hj heq => hs' ⟨j, by omega, heq⟩, hkept s.toNat fun j hj heq => ?_]
      · rfl
      · rw [← (hslot j hj).2] at heq
        exact hs' ⟨j, hj, BitVec.eq_of_toNat_eq heq⟩

/-- A consumer that has committed its run has done what the machine does with whole elements. -/
theorem Sized.cells_recv (hs : r.Sized) (hside : op.side = .recv) (hkw : k.toNat ≤ op.want)
    (hk : k.toNat ≤ r.cap.size) :
    r.cells.done r.cap op k =
      ((r.advance op.side k r.slots).cells,
        ⟨k.toNat, (List.range k.toNat).map fun j => Memory.chunk r.elemSize.toNat r.slots
          (((r.cur op.side).head.toNat % r.cap.size + j) % r.cap.size)⟩) := by
  have hcopy : Ring.copyRun r.cap op (r.cur op.side).head k k.toNat 0 _ [] = _ :=
    Ring.copyRun_recv hside (r.cells.setHead op.side ((r.cur op.side).head + k)) k.toNat 0 []
  refine Prod.ext (Ring.eq_of ?_ ?_) (congrArg (RingRes.mk k.toNat) ?_)
  · refine (r.cells.done_cur op k).trans ?_
    simp only [cells, advance, setTail, setHead, Function.update_self, Function.update_idem]
  · show (Ring.copyRun r.cap op _ k k.toNat 0 _ []).1.slots = _
    exact congrArg (fun x => x.1.slots) hcopy
  · show (Ring.copyRun r.cap op _ k k.toNat 0 _ []).2 = _
    refine (congrArg Prod.snd hcopy).trans ?_
    rw [List.nil_append, ← List.range_eq_range']
    apply List.map_congr_left
    intro j hj
    rw [← (hs.slot_eq hkw hk (List.mem_range.1 hj)).2]
    rfl

theorem Like.refl (hs : r.Sized) : r.Like r := ⟨rfl, rfl, hs⟩

/-- What the four operations do after Phase 1 keeps the layout. -/
theorem Sized.like_advance (hs : r.Sized) {slots : List Byte} (hlen : slots.length = r.slots.length)
    (o : ChanOp) (k : U32) : r.Like (r.advance o k slots) :=
  ⟨rfl, rfl, ⟨hs.mask, hs.pos, hs.fits, hlen.trans hs.block⟩⟩

/-- Nobody else uses the ring, so the run is committed at once. -/
theorem commit_eq {o : ChanOp} (hsame : (r.cur o).head = (r.cur o).tail) (slots : List Byte) :
    { r.setHead o ((r.cur o).head + k) with slots := slots }.commit o (r.cur o).head k =
      some (r.advance o k slots) := by
  refine if_pos ?_
  show (Function.update r.cur o _ o).tail = _
  rw [Function.update_self]
  exact hsame.symm

/-- A single element is a run of length one. -/
theorem Sized.copyOne_eq (hs : r.Sized) (h : U32) (data : List Byte) :
    Memory.copy r.slots (r.bytes (h &&& r.mask)) data 0 r.elemSize.toNat =
      Memory.copyRound r.elemSize.toNat r.cap.size r.slots (h.toNat % r.cap.size) 1 data := by
  have hlt := Nat.mod_lt h.toNat hs.pos
  rw [Memory.copyRound, if_pos (by omega), hs.bytes_slot, Nat.one_mul]

theorem Sized.readOne_eq (hs : r.Sized) (h : U32) :
    Memory.read r.slots (r.bytes (h &&& r.mask)) r.elemSize.toNat =
      Memory.readRound r.elemSize.toNat r.cap.size r.slots (h.toNat % r.cap.size) 1 := by
  have hlt := Nat.mod_lt h.toNat hs.pos
  rw [Memory.readRound, if_pos (by omega), hs.bytes_slot, Nat.one_mul]

/-- A producer operation whose check passes: the copies succeed and the result is that of the
machine. -/
theorem Sized.send_done (hs : r.Sized) (hq : Quiescent r.cap r.cells) (hv : op.Valid)
    (hside : op.side = .send)
    (hres : op.reserve r.cap (r.cur .send).head (r.cur .recv).tail = some k)
    {data : List Byte} (hdata : op.want * r.elemSize.toNat ≤ data.length)
    (hchunk : ∀ j < op.want, (op.data[j]?).map Prod.snd =
      some (Memory.chunk r.elemSize.toNat data j)) :
    ∃ slots, Memory.copyRound r.elemSize.toNat r.cap.size r.slots
        ((r.cur .send).head.toNat % r.cap.size) k.toNat data = some slots ∧
      0 < k.toNat ∧ k.toNat ≤ r.cap.size ∧ r.Like (r.advance .send k slots) ∧
      r.cells.run r.cap op = some ((r.advance .send k slots).cells, ⟨k.toNat, []⟩) := by
  have hres' : op.reserve r.cap (r.cur op.side).head (r.cur op.side.other).tail = some k := by
    rw [hside]
    exact hres
  obtain ⟨hpos, hkw, hfits⟩ := hq.fits hv hres'
  rw [hside] at hfits
  have hk : k.toNat ≤ r.cap.size := by
    simp only at hfits
    omega
  obtain ⟨slots, hcopy, hlen, hwritten, hkept⟩ := Memory.copyRound_spec hs.block
    (Nat.mod_lt (r.cur .send).head.toNat hs.pos) hk
    ((Nat.mul_le_mul_right _ hkw).trans hdata)
  refine ⟨slots, hcopy, hpos, hk, hs.like_advance hlen _ _, ?_⟩
  have hrun := Ring.run_some (by omega) (hq.same op.side) hpos hkw hres'
  rw [← hside] at hwritten hkept ⊢
  rw [hrun, hs.cells_send hside hkw hk (fun j hj => ?_) hkept]
  rw [hwritten j hj, hchunk j (by omega)]

/-- A consumer operation whose check passes. -/
theorem Sized.recv_done (hs : r.Sized) (hq : Quiescent r.cap r.cells) (hv : op.Valid)
    (hside : op.side = .recv)
    (hres : op.reserve r.cap (r.cur .recv).head (r.cur .send).tail = some k) :
    ∃ out, Memory.readRound r.elemSize.toNat r.cap.size r.slots
        ((r.cur .recv).head.toNat % r.cap.size) k.toNat = some out ∧
      0 < k.toNat ∧ k.toNat ≤ r.cap.size ∧ out.length = k.toNat * r.elemSize.toNat ∧
      r.Like (r.advance .recv k r.slots) ∧
      r.cells.run r.cap op = some ((r.advance .recv k r.slots).cells,
        ⟨k.toNat, Memory.chunks r.elemSize.toNat k.toNat out⟩) := by
  have hres' : op.reserve r.cap (r.cur op.side).head (r.cur op.side.other).tail = some k := by
    rw [hside]
    exact hres
  obtain ⟨hpos, hkw, hfits⟩ := hq.fits hv hres'
  have hle := hq.le
  rw [hside] at hfits
  have hk : k.toNat ≤ r.cap.size := hfits.trans hle
  obtain ⟨out, hread, hlen, hchunk⟩ := Memory.readRound_spec hs.block
    (Nat.mod_lt (r.cur .recv).head.toNat hs.pos) hk
  refine ⟨out, hread, hpos, hk, hlen, hs.like_advance rfl _ _, ?_⟩
  have hrun := Ring.run_some (by omega) (hq.same op.side) hpos hkw hres'
  rw [← hside] at hchunk ⊢
  rw [hrun, hs.cells_recv hside hkw hk, Memory.chunks]
  congr 3
  apply List.map_congr_left
  intro j hj
  exact (hchunk j (List.mem_range.1 hj)).symm

/-- `ring_lf_push` is the push of the machine. -/
theorem Sized.push_cells (hs : r.Sized) (hq : Quiescent r.cap r.cells) (weak : Nat)
    {data : List Byte} (hdata : data.length = r.elemSize.toNat) :
    ∃ r' res, r.push weak data = some (r', decide (res.moved ≠ 0)) ∧
      r.cells.run r.cap (.push () data : RingOp Unit (List Byte)) = some (r'.cells, res) ∧
      r.Like r' := by
  rw [push, reserve_eq, ChanOp.other_send]
  by_cases hfull : (r.cur .send).head - (r.cur .recv).tail ≥ r.cap.val
  · refine ⟨r, .fail, ?_, Ring.run_none (if_pos hfull), .refl hs⟩
    rw [if_pos hfull]
    rfl
  · have hres : (RingOp.push () data : RingOp Unit (List Byte)).reserve r.cap (r.cur .send).head
        (r.cur .recv).tail = some 1 := if_neg hfull
    have hchunk : ∀ j < 1, ([((), data)][j]?).map Prod.snd =
        some (Memory.chunk r.elemSize.toNat data j) := by
      intro j hj
      obtain rfl : j = 0 := Nat.lt_one_iff.1 hj
      rw [Memory.chunk_zero hdata]
      rfl
    have hv : (RingOp.push () data : RingOp Unit (List Byte)).Valid :=
      ⟨Nat.one_pos, Nat.one_lt_two_pow (by decide)⟩
    obtain ⟨slots, hcopy, hpos, hk, hlike, hrun⟩ := hs.send_done hq hv rfl hres
      ((Nat.one_mul _).trans hdata.symm).le hchunk
    refine ⟨_, _, ?_, hrun, hlike⟩
    have hcopy' : Memory.copyRound _ _ _ _ 1 data = some slots := hcopy
    rw [if_neg hfull, Option.map_some]
    simp only [hs.copyOne_eq, hcopy', Option.bind_eq_bind, Option.bind_some]
    rw [commit_eq (hq.same .send)]
    rfl

/-- `ring_lf_pop` is the pop of the machine. -/
theorem Sized.pop_cells (hs : r.Sized) (hq : Quiescent r.cap r.cells) (weak : Nat) :
    ∃ r' res, r.pop weak = some (r', res.vals.head?) ∧
      r.cells.run r.cap (.pop () : RingOp Unit (List Byte)) = some (r'.cells, res) ∧ r.Like r' := by
  rw [pop, reserve_eq, ChanOp.other_recv]
  by_cases hempty : (r.cur .send).tail = (r.cur .recv).head
  · refine ⟨r, .fail, ?_, Ring.run_none (if_pos hempty), .refl hs⟩
    rw [if_pos hempty]
    rfl
  · have hres : (RingOp.pop () : RingOp Unit (List Byte)).reserve r.cap (r.cur .recv).head
        (r.cur .send).tail = some 1 := if_neg hempty
    have hv : (RingOp.pop () : RingOp Unit (List Byte)).Valid :=
      ⟨Nat.one_pos, Nat.one_lt_two_pow (by decide)⟩
    obtain ⟨out, hread, hpos, hk, hlen, hlike, hrun⟩ := hs.recv_done hq hv rfl hres
    refine ⟨_, _, ?_, hrun, hlike⟩
    have hread' : Memory.readRound _ _ _ _ 1 = some out := hread
    have hout : Memory.chunk r.elemSize.toNat out 0 = out :=
      Memory.chunk_zero (hlen.trans (Nat.one_mul _))
    rw [if_neg hempty, Option.map_some]
    simp only [hs.readOne_eq, hread', Option.bind_eq_bind, Option.bind_some]
    rw [show (r.setHead .recv _).commit .recv _ 1 = _ from commit_eq (hq.same .recv) r.slots]
    show some (_, some out) = some (_, some (Memory.chunk r.elemSize.toNat out 0))
    rw [hout]

/-- `ring_lf_enqueue_burst` is the burst push of the machine. -/
theorem Sized.enqueueBurst_cells (hs : r.Sized) (hq : Quiescent r.cap r.cells) (weak : Nat)
    {data : List Byte} {n : U32} (hdata : data.length = n.toNat * r.elemSize.toNat) :
    ∃ r' k res, r.enqueueBurst weak data n = some (r', k) ∧ k.toNat = res.moved ∧
      r.cells.run r.cap (.enqueueBurst ((Memory.chunks r.elemSize.toNat n.toNat data).map
        (Prod.mk ())) : RingOp Unit (List Byte)) = some (r'.cells, res) ∧ r.Like r' := by
  generalize hop : (RingOp.enqueueBurst ((Memory.chunks r.elemSize.toNat n.toNat data).map
    (Prod.mk ())) : RingOp Unit (List Byte)) = op
  have hwant : op.want = n.toNat := by
    rw [← hop, RingOp.want, List.length_map, Memory.length_chunks]
  have hside : op.side = .send := by rw [← hop]; rfl
  have hdata' : op.data = (Memory.chunks r.elemSize.toNat n.toNat data).map (Prod.mk ()) := by
    rw [← hop]
    rfl
  have hreserve : ∀ ph ct, op.reserve r.cap ph ct =
      if r.cap.val - (ph - ct) = 0 then none
      else some (if n < r.cap.val - (ph - ct) then n else r.cap.val - (ph - ct)) := by
    intro ph ct
    have hn : BitVec.ofNat 32 ((Memory.chunks r.elemSize.toNat n.toNat data).map
        (Prod.mk ())).length = n := by
      rw [List.length_map, Memory.length_chunks, BitVec.ofNat_toNat, BitVec.setWidth_eq]
    rw [← hop, RingOp.reserve, hn]
  rw [enqueueBurst]
  by_cases hzero : n = 0
  · refine ⟨r, 0, .fail, if_pos hzero, rfl, ?_, .refl hs⟩
    rw [Ring.run, if_pos (by rw [hwant, hzero]; rfl)]
  have hpos : 0 < n.toNat := by bv_omega
  rw [if_neg hzero]
  simp only [reserve_eq, ChanOp.other_send, ← hreserve]
  cases hres : op.reserve r.cap (r.cur .send).head (r.cur .recv).tail with
  | none =>
    exact ⟨r, 0, .fail, rfl, rfl, Ring.run_none (by rw [hside]; exact hres), .refl hs⟩
  | some k =>
    have hv : op.Valid := ⟨by omega, by rw [hwant]; exact n.isLt⟩
    have hchunk : ∀ j < op.want, (op.data[j]?).map Prod.snd =
        some (Memory.chunk r.elemSize.toNat data j) := by
      intro j hj
      rw [hdata', Memory.chunks, List.getElem?_map, List.getElem?_map, List.getElem?_range (by omega)]
      rfl
    obtain ⟨slots, hcopy, -, hk, hlike, hrun⟩ := hs.send_done hq hv hside hres
      (by rw [hwant, hdata]) hchunk
    refine ⟨_, k, _, ?_, rfl, hrun, hlike⟩
    simp only [Option.map_some, hs.copyIn_eq hk, hcopy, Option.bind_eq_bind, Option.bind_some]
    rw [commit_eq (hq.same .send)]
    rfl

/-- `ring_lf_dequeue_burst` is the burst pop of the machine. -/
theorem Sized.dequeueBurst_cells (hs : r.Sized) (hq : Quiescent r.cap r.cells) (weak : Nat)
    (n : U32) :
    ∃ r' k res, r.dequeueBurst weak n = some (r', k, res.vals.flatten) ∧ k.toNat = res.moved ∧
      r.cells.run r.cap (.dequeueBurst (List.replicate n.toNat ()) : RingOp Unit (List Byte)) =
        some (r'.cells, res) ∧ r.Like r' := by
  generalize hop : (RingOp.dequeueBurst (List.replicate n.toNat ()) : RingOp Unit (List Byte)) = op
  have hwant : op.want = n.toNat := by rw [← hop, RingOp.want, List.length_replicate]
  have hside : op.side = .recv := by rw [← hop]; rfl
  have hreserve : ∀ ch pt, op.reserve r.cap ch pt =
      if pt - ch = 0 then none else some (if n < pt - ch then n else pt - ch) := by
    intro ch pt
    have hn : BitVec.ofNat 32 (List.replicate n.toNat ()).length = n := by
      rw [List.length_replicate, BitVec.ofNat_toNat, BitVec.setWidth_eq]
    rw [← hop, RingOp.reserve, hn]
  rw [dequeueBurst]
  by_cases hzero : n = 0
  · refine ⟨r, 0, .fail, if_pos hzero, rfl, ?_, .refl hs⟩
    rw [Ring.run, if_pos (by rw [hwant, hzero]; rfl)]
  have hpos : 0 < n.toNat := by bv_omega
  rw [if_neg hzero]
  simp only [reserve_eq, ChanOp.other_recv, ← hreserve]
  cases hres : op.reserve r.cap (r.cur .recv).head (r.cur .send).tail with
  | none =>
    exact ⟨r, 0, .fail, rfl, rfl, Ring.run_none (by rw [hside]; exact hres), .refl hs⟩
  | some k =>
    have hv : op.Valid := ⟨by omega, by rw [hwant]; exact n.isLt⟩
    obtain ⟨out, hread, -, hk, hlen, hlike, hrun⟩ := hs.recv_done hq hv hside hres
    refine ⟨_, k, _, ?_, rfl, hrun, hlike⟩
    simp only [Option.map_some, hs.copyOut_eq hk, hread, Option.bind_eq_bind, Option.bind_some]
    rw [show (r.setHead .recv _).commit .recv _ k = _ from commit_eq (hq.same .recv) r.slots,
      Memory.flatten_chunks hlen]
    rfl

/-! ## Contents -/

/-- The ring is laid out safely and holds the elements `q`. -/
structure Holds (r : RingLf) (q : List (List Byte)) : Prop where
  sized : r.Sized
  at_ : ∃ n, HoldsAt r.cap r.cells n q

variable {q : List (List Byte)}

theorem Holds.count (h : r.Holds q) : r.count.toNat = q.length := by
  obtain ⟨n, hat⟩ := h.at_
  exact hat.count

theorem Holds.le (h : r.Holds q) : q.length ≤ r.cap.size := by
  obtain ⟨n, hat⟩ := h.at_
  exact hat.le

/-- A producer operation of the machine, seen on the bytes. -/
theorem Holds.of_send {r' : RingLf} {res : RingRes (List Byte)} (h : r.Holds q)
    (hrun : r.cells.run r.cap op = some (r'.cells, res)) (hlike : r.Like r')
    (hside : op.side = .send) (hwant : op.want < 2 ^ 32) :
    res.moved = (BoundedQueue.pushMany r.cap.size q (op.data.map Prod.snd)).1 ∧
      r'.Holds (BoundedQueue.pushMany r.cap.size q (op.data.map Prod.snd)).2 := by
  obtain ⟨n, hat⟩ := h.at_
  obtain ⟨c, hrun', hat'⟩ := hat.run_send hside hwant
  rw [hrun] at hrun'
  cases hrun'
  refine ⟨rfl, hlike.sized, n, ?_⟩
  rw [hlike.cap]
  exact hat'

/-- A consumer operation of the machine, seen on the bytes. -/
theorem Holds.of_recv {r' : RingLf} {res : RingRes (List Byte)} (h : r.Holds q)
    (hrun : r.cells.run r.cap op = some (r'.cells, res)) (hlike : r.Like r')
    (hside : op.side = .recv) (hwant : op.want < 2 ^ 32) :
    res.vals = (BoundedQueue.popMany q op.want).1 ∧ res.moved = res.vals.length ∧
      r'.Holds (BoundedQueue.popMany q op.want).2 := by
  obtain ⟨n, hat⟩ := h.at_
  obtain ⟨c, hrun', hat'⟩ := hat.run_recv hside hwant
  rw [hrun] at hrun'
  cases hrun'
  rw [← hlike.cap] at hat'
  exact ⟨rfl, rfl, hlike.sized, _, hat'⟩

/-! ## Sequences of calls -/

end RingLf

/-- A call of a ring operation with the bytes it is given. -/
inductive RingCall where
  | push (data : List Byte)
  | pop
  | enqueueBurst (data : List Byte) (n : U32)
  | dequeueBurst (n : U32)

/-- What a call returns and the bytes it hands out. -/
inductive RingOut where
  | pushed (ok : Bool)
  | popped (out : Option (List Byte))
  | enqueued (k : Nat)
  | dequeued (k : Nat) (out : List Byte)

/-- The caller's buffer holds the elements it passes. -/
def RingCall.Fits (elemSize : Nat) : RingCall → Prop
  | push data => data.length = elemSize
  | pop => True
  | enqueueBurst data n => data.length = n.toNat * elemSize
  | dequeueBurst _ => True

namespace RingLf

/-- One call, with the number of spurious CAS failures in it. -/
def call (r : RingLf) (weak : Nat) : RingCall → Option (RingLf × RingOut)
  | .push data => (r.push weak data).map fun x => (x.1, .pushed x.2)
  | .pop => (r.pop weak).map fun x => (x.1, .popped x.2)
  | .enqueueBurst data n => (r.enqueueBurst weak data n).map fun x => (x.1, .enqueued x.2.toNat)
  | .dequeueBurst n => (r.dequeueBurst weak n).map fun x => (x.1, .dequeued x.2.1.toNat x.2.2)

/-- Calls one after another, with the result of each and `ring_lf_count` after it. -/
def calls (r : RingLf) : List (RingCall × Nat) → Option (RingLf × List (RingOut × Nat))
  | [] => some (r, [])
  | (c, weak) :: cs => do
    let (r₁, out) ← r.call weak c
    let (r₂, outs) ← r₁.calls cs
    return (r₂, (out, r₁.count.toNat) :: outs)

end RingLf

/-- What a call is for: the operation of the bounded queue on whole elements. -/
def RingCall.onQueue (C elemSize : Nat) (q : List (List Byte)) : RingCall → List (List Byte) × RingOut
  | push data => ((BoundedQueue.push C q data).2, .pushed (BoundedQueue.push C q data).1)
  | pop => ((BoundedQueue.pop q).2, .popped (BoundedQueue.pop q).1)
  | enqueueBurst data n =>
    let xs := Memory.chunks elemSize n.toNat data
    ((BoundedQueue.pushMany C q xs).2, .enqueued (BoundedQueue.pushMany C q xs).1)
  | dequeueBurst n =>
    ((BoundedQueue.popMany q n.toNat).2,
      .dequeued (BoundedQueue.popMany q n.toNat).1.length (BoundedQueue.popMany q n.toNat).1.flatten)

/-- Calls one after another on the bounded queue, with the number of elements after each. -/
def RingCall.allOnQueue (C elemSize : Nat) : List (List Byte) → List RingCall →
    List (List Byte) × List (RingOut × Nat)
  | q, [] => (q, [])
  | q, c :: cs =>
    let (q₁, out) := c.onQueue C elemSize q
    let (q₂, outs) := allOnQueue C elemSize q₁ cs
    (q₂, (out, q₁.length) :: outs)

namespace RingLf

variable {r : RingLf} {q : List (List Byte)}

/-- One call is the operation of the bounded queue. -/
theorem Holds.call (h : r.Holds q) (weak : Nat) {c : RingCall} (hc : c.Fits r.elemSize.toNat) :
    ∃ r', r.call weak c = some (r', (c.onQueue r.cap.size r.elemSize.toNat q).2) ∧ r.Like r' ∧
      r'.Holds (c.onQueue r.cap.size r.elemSize.toNat q).1 := by
  obtain ⟨n, hat⟩ := h.at_
  have hq := hat.quiescent
  have hone : 1 < 2 ^ 32 := Nat.one_lt_two_pow (by decide)
  cases c with
  | push data =>
    obtain ⟨r', res, hpush, hrun, hlike⟩ := h.sized.push_cells hq weak hc
    obtain ⟨hmoved, hholds⟩ := h.of_send hrun hlike rfl hone
    refine ⟨r', ?_, hlike, ?_⟩
    · rw [RingLf.call, hpush, hmoved, RingCall.onQueue, BoundedQueue.push_eq_pushMany]
      rfl
    · rw [RingCall.onQueue, BoundedQueue.push_eq_pushMany]
      exact hholds
  | pop =>
    obtain ⟨r', res, hpop, hrun, hlike⟩ := h.sized.pop_cells hq weak
    obtain ⟨hvals, -, hholds⟩ := h.of_recv hrun hlike rfl hone
    refine ⟨r', ?_, hlike, ?_⟩
    · rw [RingLf.call, hpop, hvals, RingCall.onQueue, BoundedQueue.pop_eq_popMany]
      rfl
    · rw [RingCall.onQueue, BoundedQueue.pop_eq_popMany]
      exact hholds
  | enqueueBurst data n =>
    obtain ⟨r', k, res, hburst, hk, hrun, hlike⟩ := h.sized.enqueueBurst_cells hq weak hc
    have hlen : ((Memory.chunks r.elemSize.toNat n.toNat data).map (Prod.mk ())).length = n.toNat := by
      rw [List.length_map, Memory.length_chunks]
    have hdata : ((Memory.chunks r.elemSize.toNat n.toNat data).map (Prod.mk ())).map Prod.snd =
        Memory.chunks r.elemSize.toNat n.toNat data := by
      rw [List.map_map]
      exact List.map_id _
    obtain ⟨hmoved, hholds⟩ := h.of_send hrun hlike rfl (hlen.trans_lt n.isLt)
    rw [show (RingOp.enqueueBurst _ : RingOp Unit (List Byte)).data.map Prod.snd = _ from hdata]
      at hmoved hholds
    refine ⟨r', ?_, hlike, hholds⟩
    rw [RingLf.call, hburst, Option.map_some, hk, hmoved]
    rfl
  | dequeueBurst n =>
    obtain ⟨r', k, res, hburst, hk, hrun, hlike⟩ := h.sized.dequeueBurst_cells hq weak n
    have hlen : (List.replicate n.toNat ()).length = n.toNat := List.length_replicate
    obtain ⟨hvals, hmoved, hholds⟩ := h.of_recv hrun hlike rfl (hlen.trans_lt n.isLt)
    rw [show (RingOp.dequeueBurst _ : RingOp Unit (List Byte)).want = _ from hlen] at hvals hholds
    refine ⟨r', ?_, hlike, hholds⟩
    rw [RingLf.call, hburst, Option.map_some, hk, hmoved, hvals]
    rfl

/-- A sequence of calls is the sequence of operations of the bounded queue. -/
theorem Holds.calls (cs : List (RingCall × Nat)) : ∀ {r : RingLf} {q : List (List Byte)}, r.Holds q →
    (∀ c ∈ cs, c.1.Fits r.elemSize.toNat) →
    ∃ r', r.calls cs =
        some (r', (RingCall.allOnQueue r.cap.size r.elemSize.toNat q (cs.map Prod.fst)).2) ∧
      r.Like r' ∧
      r'.Holds (RingCall.allOnQueue r.cap.size r.elemSize.toNat q (cs.map Prod.fst)).1 := by
  induction cs with
  | nil => exact fun {r q} h _ => ⟨r, rfl, .refl h.sized, h⟩
  | cons c cs ih =>
    intro r q h hfits
    obtain ⟨r₁, hcall, hlike, hholds⟩ := h.call c.2 (hfits c (List.mem_cons_self ..))
    obtain ⟨r₂, hcalls, hlike', hholds'⟩ := ih hholds fun c' hc' => by
      rw [hlike.elemSize]
      exact hfits c' (List.mem_cons_of_mem _ hc')
    rw [hlike.cap, hlike.elemSize] at hcalls hholds'
    refine ⟨r₂, ?_, ⟨hlike'.cap.trans hlike.cap, hlike'.elemSize.trans hlike.elemSize,
      hlike'.sized⟩, hholds'⟩
    rw [RingLf.calls, hcall, Option.bind_eq_bind, Option.bind_some]
    simp only [hcalls, Option.bind_eq_bind, Option.bind_some, hholds.count]
    rfl

/-- No later call can tell the rings apart. -/
def Same (r r' : RingLf) : Prop :=
  ∀ after : List (RingCall × Nat), (∀ c ∈ after, c.1.Fits r.elemSize.toNat) →
    (r.calls after).map Prod.snd = (r'.calls after).map Prod.snd

theorem Holds.same {r' : RingLf} (h : r.Holds q) (h' : r'.Holds q) (hcap : r'.cap = r.cap)
    (hsize : r'.elemSize = r.elemSize) : r.Same r' := by
  intro after hfits
  obtain ⟨_, hcalls, -⟩ := h.calls after hfits
  obtain ⟨_, hcalls', -⟩ := h'.calls after (by rw [hsize]; exact hfits)
  rw [hcalls, hcalls', hcap, hsize]
  rfl

end RingLf

/-- Single pushes on the queue. -/
theorem RingCall.allOnQueue_push (C elemSize : Nat) (xs : List (List Byte)) :
    ∀ q, (allOnQueue C elemSize q (xs.map push)).1 = (BoundedQueue.pushEach C q xs).2 ∧
      (allOnQueue C elemSize q (xs.map push)).2.map Prod.fst =
        (BoundedQueue.pushEach C q xs).1.map RingOut.pushed := by
  induction xs with
  | nil => exact fun q => ⟨rfl, rfl⟩
  | cons x xs ih =>
    intro q
    obtain ⟨hq, houts⟩ := ih (BoundedQueue.push C q x).2
    exact ⟨hq, congrArg (RingOut.pushed (BoundedQueue.push C q x).1 :: ·) houts⟩

/-- Single pops on the queue. -/
theorem RingCall.allOnQueue_pop (C elemSize : Nat) (n : Nat) :
    ∀ q, (allOnQueue C elemSize q (List.replicate n pop)).1 = (BoundedQueue.popEach n q).2 ∧
      (allOnQueue C elemSize q (List.replicate n pop)).2.map Prod.fst =
        (BoundedQueue.popEach n q).1.map RingOut.popped := by
  induction n with
  | zero => exact fun q => ⟨rfl, rfl⟩
  | succ n ih =>
    intro q
    obtain ⟨hq, houts⟩ := ih (BoundedQueue.pop q).2
    exact ⟨hq, congrArg (RingOut.popped (BoundedQueue.pop q).1 :: ·) houts⟩

namespace RingLf

variable {r : RingLf} {q : List (List Byte)}

/-- A burst push does what as many single pushes do as it moves elements. -/
theorem Holds.enqueueBurst_eq_push (h : r.Holds q) (weak : Nat) {data : List Byte} {n : U32}
    (hdata : data.length = n.toNat * r.elemSize.toNat) :
    ∃ r₁ k, r.enqueueBurst weak data n = some (r₁, k) ∧
      k.toNat = min n.toNat (r.cap.size - r.count.toNat) ∧
      ∀ singles : List (RingCall × Nat),
        singles.map Prod.fst = (Memory.chunks r.elemSize.toNat k.toNat data).map .push →
        ∃ r₂ outs, r.calls singles = some (r₂, outs) ∧
          outs.map Prod.fst = List.replicate k.toNat (.pushed true) ∧ r₁.Same r₂ := by
  obtain ⟨_, hcall, hlike, hholds⟩ :=
    h.call weak (show (RingCall.enqueueBurst data n).Fits r.elemSize.toNat from hdata)
  rw [RingLf.call, Option.map_eq_some_iff] at hcall
  obtain ⟨⟨r₁, k⟩, hburst, heq⟩ := hcall
  obtain ⟨rfl, hout⟩ := Prod.mk.inj heq
  have hk : k.toNat = (BoundedQueue.pushMany r.cap.size q
    (Memory.chunks r.elemSize.toNat n.toNat data)).1 := RingOut.enqueued.inj hout
  have hmin := hk
  rw [BoundedQueue.pushMany, Memory.length_chunks] at hmin
  refine ⟨r₁, k, hburst, by rw [h.count]; exact hmin, fun singles hsingles => ?_⟩
  have hfits : ∀ c ∈ singles, c.1.Fits r.elemSize.toNat := by
    intro c hc
    have hmem := List.mem_map_of_mem (f := Prod.fst) hc
    rw [hsingles, Memory.chunks, List.map_map] at hmem
    obtain ⟨j, hj, heq⟩ := List.mem_map.1 hmem
    rw [← heq]
    apply Memory.length_chunk
    rw [hdata]
    have hlt := List.mem_range.1 hj
    exact Nat.mul_le_mul_right _ (by omega)
  obtain ⟨r₂, hcalls, hlike', hholds'⟩ := h.calls singles hfits
  obtain ⟨hq, houts⟩ := RingCall.allOnQueue_push r.cap.size r.elemSize.toNat
    (Memory.chunks r.elemSize.toNat k.toNat data) q
  -- the elements moved are the first ones of the burst
  have heach : BoundedQueue.pushEach r.cap.size q
      ((Memory.chunks r.elemSize.toNat n.toNat data).take _) = _ := BoundedQueue.pushEach_pushMany h.le
  rw [← hk, Memory.take_chunks (by omega)] at heach
  rw [hsingles] at hcalls hholds'
  rw [hq, heach] at hholds'
  refine ⟨r₂, _, hcalls, ?_, hholds.same hholds' (hlike'.cap.trans hlike.cap.symm)
    (hlike'.elemSize.trans hlike.elemSize.symm)⟩
  rw [houts, heach, List.map_replicate]

/-- A burst pop does what as many single pops do as it moves elements. -/
theorem Holds.dequeueBurst_eq_pop (h : r.Holds q) (weak : Nat) (n : U32) :
    ∃ r₁ k out, r.dequeueBurst weak n = some (r₁, k, out) ∧
      k.toNat = min n.toNat r.count.toNat ∧
      ∀ singles : List (RingCall × Nat), singles.map Prod.fst = List.replicate k.toNat .pop →
        ∃ (r₂ : RingLf) (outs : List (RingOut × Nat)) (xs : List (List Byte)),
          r.calls singles = some (r₂, outs) ∧
          outs.map Prod.fst = xs.map (fun x => .popped (some x)) ∧ out = xs.flatten ∧
          r₁.Same r₂ := by
  obtain ⟨_, hcall, hlike, hholds⟩ :=
    h.call weak (show (RingCall.dequeueBurst n).Fits r.elemSize.toNat from trivial)
  rw [RingLf.call, Option.map_eq_some_iff] at hcall
  obtain ⟨⟨r₁, k, out⟩, hburst, heq⟩ := hcall
  obtain ⟨rfl, hout⟩ := Prod.mk.inj heq
  obtain ⟨hk, hflat⟩ : k.toNat = (BoundedQueue.popMany q n.toNat).1.length ∧
    out = (BoundedQueue.popMany q n.toNat).1.flatten := RingOut.dequeued.inj hout
  have hmin := hk
  rw [BoundedQueue.popMany, List.length_take] at hmin
  refine ⟨r₁, k, out, hburst, by rw [h.count]; exact hmin, fun singles hsingles => ?_⟩
  have hfits : ∀ c ∈ singles, c.1.Fits r.elemSize.toNat := by
    intro c hc
    have hmem := List.mem_map_of_mem (f := Prod.fst) hc
    rw [hsingles] at hmem
    rw [List.eq_of_mem_replicate hmem]
    trivial
  obtain ⟨r₂, hcalls, hlike', hholds'⟩ := h.calls singles hfits
  obtain ⟨hq, houts⟩ := RingCall.allOnQueue_pop r.cap.size r.elemSize.toNat k.toNat q
  have heach := BoundedQueue.popEach_popMany (n := n.toNat) (q := q)
  rw [← hk] at heach
  rw [hsingles] at hcalls hholds'
  rw [hq, heach] at hholds'
  refine ⟨r₂, _, (BoundedQueue.popMany q n.toNat).1, hcalls, ?_, hflat,
    hholds.same hholds' (hlike'.cap.trans hlike.cap.symm)
      (hlike'.elemSize.trans hlike.elemSize.symm)⟩
  rw [houts, heach, List.map_map]
  rfl

end RingLf

/-- A new ring of a request that is not too large is empty and laid out safely. -/
theorem ringLfInit_holds {A : Allocator} {cap elemSize : Size} {r : RingLf} {C : Nat}
    (hinit : ringLfInit A cap elemSize = some r) (hcap : cap.toNat ≤ 2 ^ 31)
    (hC : IsLeast { c | (∃ e, c = 2 ^ e) ∧ cap.toNat ≤ c } C)
    (hfit : C * elemSize.toNat < 2 ^ 64) :
    r.Holds [] ∧ r.cap.size = C ∧ r.elemSize = elemSize := by
  obtain ⟨hcap0, -, hreq, hmask, hsize, hcur, hlen⟩ := ringLfInit_eq_some hinit
  have hpos : 1 ≤ cap.toNat := by bv_omega
  have hleast := nextPow2_isLeast hpos hcap
  have hval : r.cap.size = C := by
    rw [hreq]
    exact hleast.unique hC
  have hC' : cap.toNat ≤ C := hC.1.2
  refine ⟨⟨⟨?_, by omega, ?_, ?_⟩, 0, ?_⟩, hval, hsize⟩
  · rw [hmask]
    rfl
  · rw [hval, hsize]
    exact hfit
  · rw [hlen, hval, Nat.mod_eq_of_lt hfit, hsize]
  · have hcells : r.cells = Ring.init r.cells.slots :=
      Ring.eq_of (funext fun o => hcur o) rfl
    rw [hcells]
    exact HoldsAt.init _ _

/-- Any sequence of calls on a new ring, whatever its length and whatever the cursors come to hold, has
the results of a queue bounded by the least power of two that is at least the requested capacity; and
at any point of it a burst moves as many elements as it can and cannot be told from as many single
calls. -/
theorem ring_refines_queue (A : Allocator) (cap elemSize : Size) (r : RingLf) (C : Nat)
    (hinit : ringLfInit A cap elemSize = some r) (hcap : cap.toNat ≤ 2 ^ 31)
    (hC : IsLeast { c | (∃ e, c = 2 ^ e) ∧ cap.toNat ≤ c } C)
    (hfit : C * elemSize.toNat < 2 ^ 64) (cs : List (RingCall × Nat))
    (hcs : ∀ c ∈ cs, c.1.Fits elemSize.toNat) :
    ∃ r', r.calls cs =
        some (r', (RingCall.allOnQueue C elemSize.toNat [] (cs.map Prod.fst)).2) ∧
      (∀ (weak : Nat) (data : List Byte) (n : U32), data.length = n.toNat * elemSize.toNat →
        ∃ r₁ k, r'.enqueueBurst weak data n = some (r₁, k) ∧
          k.toNat = min n.toNat (C - r'.count.toNat) ∧
          ∀ singles : List (RingCall × Nat),
            singles.map Prod.fst = (Memory.chunks elemSize.toNat k.toNat data).map .push →
            ∃ r₂ outs, r'.calls singles = some (r₂, outs) ∧
              outs.map Prod.fst = List.replicate k.toNat (.pushed true) ∧ r₁.Same r₂) ∧
      ∀ (weak : Nat) (n : U32), ∃ r₁ k out, r'.dequeueBurst weak n = some (r₁, k, out) ∧
        k.toNat = min n.toNat r'.count.toNat ∧
        ∀ singles : List (RingCall × Nat), singles.map Prod.fst = List.replicate k.toNat .pop →
          ∃ (r₂ : RingLf) (outs : List (RingOut × Nat)) (xs : List (List Byte)),
            r'.calls singles = some (r₂, outs) ∧
            outs.map Prod.fst = xs.map (fun x => .popped (some x)) ∧ out = xs.flatten ∧
            r₁.Same r₂ := by
  obtain ⟨hholds, rfl, rfl⟩ := ringLfInit_holds hinit hcap hC hfit
  obtain ⟨r', hcalls, hlike, hholds'⟩ := hholds.calls cs hcs
  refine ⟨r', hcalls, fun weak data n hdata => ?_, fun weak n => hholds'.dequeueBurst_eq_pop weak n⟩
  rw [← hlike.elemSize] at hdata
  obtain ⟨r₁, k, hburst, hk, hsingles⟩ := hholds'.enqueueBurst_eq_push weak hdata
  rw [hlike.cap] at hk
  rw [hlike.elemSize] at hsingles
  exact ⟨r₁, k, hburst, hk, hsingles⟩

/-- A ring for three elements of two bytes has four slots: a burst of five moves four, a pop gives the
oldest, and a push then finds room again. -/
theorem ring_refines_queue_three : ∃ r r', ringLfInit .zeros 3 2 = some r ∧
    r.calls [(.enqueueBurst [1, 2, 3, 4, 5, 6, 7, 8, 9, 10] 5, 0), (.push [0, 0], 1), (.pop, 0),
      (.push [11, 12], 0), (.dequeueBurst 9, 2)] =
    some (r', [(.enqueued 4, 4), (.pushed false, 4), (.popped (some [1, 2]), 3), (.pushed true, 4),
      (.dequeued 4 [3, 4, 5, 6, 7, 8, 11, 12], 0)]) := by
  have hinit : ringLfInit .zeros 3 2 = some _ := rfl
  have hC : IsLeast { c | (∃ e, c = 2 ^ e) ∧ (3 : Size).toNat ≤ c } 4 :=
    nextPow2_isLeast (n := 3) (by decide) (by decide)
  obtain ⟨r', hcalls, -⟩ := ring_refines_queue .zeros 3 2 _ 4 hinit (by decide) hC (by decide)
    [(.enqueueBurst [1, 2, 3, 4, 5, 6, 7, 8, 9, 10] 5, 0), (.push [0, 0], 1), (.pop, 0),
      (.push [11, 12], 0), (.dequeueBurst 9, 2)] (by simp [RingCall.Fits])
  exact ⟨_, r', hinit, hcalls⟩

end LibChan
