import LibChan.Ring.Machine

/-!
# The memory of a ring

`chan_ring_lf_t` with its slot array as a block of bytes, and `ring_lf_init`. The request is a 64-bit
`size_t`, the capacity computed from it a 32-bit word, and the size of the block their product with the
element size in 64 bits. A ring is laid out safely exactly when none of the three steps loses anything
(`ringLfInit_safe_iff`): the request is at most `2 ^ 31` and the product is below `2 ^ 64`.
-/

set_option autoImplicit false

namespace LibChan

/-- `size_t` on a 64-bit machine. -/
abbrev Size := BitVec 64

abbrev Byte := BitVec 8

/-- `malloc` fails or returns a block of the requested size with any content. -/
structure Allocator where
  malloc : Size → Option (List Byte)
  size : ∀ n block, malloc n = some block → block.length = n.toNat

/-- `chan_ring_lf_t`: `cap` is the field `capacity` and `slots` the block the pointer points to. -/
structure RingLf where
  cap : RingCap
  mask : U32
  elemSize : Size
  cur : ChanOp → Cursors
  slots : List Byte

/-- `ring_lf_init`. -/
def ringLfInit (A : Allocator) (cap elemSize : Size) : Option RingLf :=
  if cap = 0 ∨ elemSize = 0 then none
  else
    let actual := RingCap.ofRequest cap.toNat
    (A.malloc (actual.val.setWidth 64 * elemSize)).map fun slots =>
      { cap := actual
        mask := actual.val - 1
        elemSize := elemSize
        cur := fun _ => ⟨0, 0, 0⟩
        slots := slots }

/-- The ring has a power of two of at least `cap` slots, and the bytes of every slot lie in its
block. -/
structure RingLf.Safe (r : RingLf) (cap : Nat) : Prop where
  pow2 : ∃ e, r.cap.val.toNat = 2 ^ e
  large : cap ≤ r.cap.val.toNat
  mask : r.mask = r.cap.val - 1
  inside : ∀ p : U32,
    (p &&& r.mask).toNat * r.elemSize.toNat + r.elemSize.toNat ≤ r.slots.length

variable {A : Allocator} {cap elemSize : Size} {r : RingLf}

/-- What `ring_lf_init` stores. -/
theorem ringLfInit_eq_some (h : ringLfInit A cap elemSize = some r) :
    cap ≠ 0 ∧ elemSize ≠ 0 ∧ r.cap = RingCap.ofRequest cap.toNat ∧ r.mask = r.cap.val - 1 ∧
      r.elemSize = elemSize ∧ (∀ o, r.cur o = ⟨0, 0, 0⟩) ∧
      r.slots.length = r.cap.size * elemSize.toNat % 2 ^ 64 := by
  rw [ringLfInit, Option.ite_none_left_eq_some] at h
  obtain ⟨hne, hmap⟩ := h
  obtain ⟨slots, hslots, rfl⟩ := Option.map_eq_some_iff.1 hmap
  refine ⟨fun h => hne (.inl h), fun h => hne (.inr h), rfl, rfl, rfl, fun _ => rfl, ?_⟩
  have hword : (BitVec.setWidth 64 (RingCap.ofRequest cap.toNat).val).toNat =
      (RingCap.ofRequest cap.toNat).size := by
    rw [BitVec.toNat_setWidth, Nat.mod_eq_of_lt]
    · rfl
    · exact lt_of_lt_of_le (RingCap.ofRequest cap.toNat).val.isLt (by decide)
  rw [A.size _ _ hslots, BitVec.toNat_mul, hword]

/-- The last slot of a ring is the one the mask itself addresses. -/
theorem RingLf.mask_toNat {r : RingLf} (hmask : r.mask = r.cap.val - 1) (hpos : 0 < r.cap.size) :
    r.mask.toNat = r.cap.size - 1 := by
  have hle : (1 : U32) ≤ r.cap.val := by
    rw [BitVec.le_def]
    exact hpos
  rw [hmask, BitVec.toNat_sub_of_le hle]
  rfl

/-- A new ring is laid out safely exactly when the request is at most `2 ^ 31` and the size of its
block fits in a `size_t`. -/
theorem ringLfInit_safe_iff (A : Allocator) (cap elemSize : Size) (r : RingLf)
    (hinit : ringLfInit A cap elemSize = some r) :
    r.Safe cap.toNat ↔ cap.toNat ≤ 2 ^ 31 ∧
      (RingCap.ofRequest cap.toNat).size * elemSize.toNat < 2 ^ 64 := by
  obtain ⟨hcap, helem, hreq, hmask, hsize, -, hlen⟩ := ringLfInit_eq_some hinit
  have hcap' : 1 ≤ cap.toNat := by bv_omega
  have helem' : 0 < elemSize.toNat := by bv_omega
  rw [← hreq]
  constructor
  · intro h
    have hle : cap.toNat ≤ r.cap.size := h.large
    refine ⟨hle.trans r.cap.size_le, ?_⟩
    -- the last slot ends where the block should end
    have hlast := h.inside r.mask
    rw [BitVec.and_self, RingLf.mask_toNat hmask (by omega), hsize, hlen, ← Nat.succ_mul,
      Nat.succ_eq_add_one, Nat.sub_add_cancel (by omega)] at hlast
    have := Nat.mod_lt (r.cap.size * elemSize.toNat) (show 2 ^ 64 > 0 by decide)
    omega
  · rintro ⟨hle, hfit⟩
    obtain ⟨⟨⟨e, he⟩, hlarge⟩, -⟩ := nextPow2_isLeast hcap' hle
    have hval : r.cap.val = nextPow2 (BitVec.ofNat 32 cap.toNat) := by rw [hreq]; rfl
    refine ⟨⟨e, by rw [hval]; exact he⟩, by rw [hval]; exact hlarge, hmask, fun p => ?_⟩
    have hpos : 0 < r.cap.size := by
      rw [RingCap.size, hval]
      omega
    have hslot : (p &&& r.mask).toNat + 1 ≤ r.cap.size := by
      have hand : (p &&& r.mask).toNat ≤ r.mask.toNat := by
        rw [BitVec.toNat_and]
        exact Nat.and_le_right
      rw [RingLf.mask_toNat hmask hpos] at hand
      omega
    rw [hlen, Nat.mod_eq_of_lt hfit, hsize, ← Nat.succ_mul]
    exact Nat.mul_le_mul_right _ hslot

/-- An allocator with room for every request. -/
def Allocator.zeros : Allocator where
  malloc n := some (List.replicate n.toNat 0)
  size n block h := by
    cases h
    exact List.length_replicate

/-- A request for three elements of eight bytes gives four slots in a block of 32 bytes. -/
theorem ringLfInit_safe_three : ∃ r, ringLfInit .zeros 3 8 = some r ∧ r.cap.size = 4 ∧
    r.slots.length = 32 ∧ r.Safe 3 := by
  have hinit : ringLfInit .zeros 3 8 = some _ := rfl
  exact ⟨_, hinit, by decide, by decide, (ringLfInit_safe_iff .zeros 3 8 _ hinit).2 (by decide)⟩

/-- Requests for which `ring_lf_init` succeeds and the ring is not safe. One above `2 ^ 32` is truncated
to a single slot, one above `2 ^ 31` is rounded to no slot at all in an empty block, and two elements
of `2 ^ 63` bytes get an empty block as well. -/
theorem ringLfInit_unsafe :
    (∃ r, ringLfInit .zeros (BitVec.ofNat 64 (2 ^ 32 + 1)) 8 = some r ∧ r.cap.size = 1 ∧
      ¬ r.Safe (2 ^ 32 + 1)) ∧
    (∃ r, ringLfInit .zeros (BitVec.ofNat 64 (2 ^ 31 + 1)) 8 = some r ∧ r.cap.size = 0 ∧
      r.slots = [] ∧ ¬ r.Safe (2 ^ 31 + 1)) ∧
    ∃ r, ringLfInit .zeros 2 (BitVec.ofNat 64 (2 ^ 63)) = some r ∧ r.cap.size = 2 ∧
      r.slots = [] ∧ ¬ r.Safe 2 := by
  refine ⟨⟨_, rfl, by decide, fun h => absurd h.large (by decide)⟩,
    ⟨_, rfl, by decide, by decide, fun h => absurd (h.inside 0) (by decide)⟩,
    ⟨_, rfl, by decide, by decide, fun h => absurd (h.inside 0) (by decide)⟩⟩

end LibChan
