import LibChan.Base.Wrap

/-!
# Ring capacities

`ring_lf_init` truncates the requested capacity to 32 bits and rounds it up to a power of two with
`next_pow2`. For requests above `2 ^ 31` the rounding wraps to zero, so a ring holds either no slot
at all or `2 ^ e` slots with `e ≤ 31` (`nextPow2_spec`); `RingCap` is the type of such capacities.
-/

set_option autoImplicit false

namespace LibChan

/-- `uint32_t`. -/
abbrev U32 := BitVec 32

/-- `next_pow2`: smear the highest set bit of `n - 1` to the right and add one. -/
def nextPow2 (n : U32) : U32 :=
  if n = 0 then 1
  else
    let n := n - 1
    let n := n ||| n >>> 1
    let n := n ||| n >>> 2
    let n := n ||| n >>> 4
    let n := n ||| n >>> 8
    let n := n ||| n >>> 16
    n + 1

/-- The bits of `y` from `m` on are zero and the `j` bits below `m` are one. -/
def TopOnes (m j : Nat) (y : U32) : Prop :=
  ∀ i, (m ≤ i → y.getLsbD i = false) ∧ (i < m → m ≤ i + j → y.getLsbD i = true)

/-- Or-ing a word with its own shift by `j` doubles the run of ones below the highest set bit. -/
theorem TopOnes.smear {m j : Nat} {y : U32} (h : TopOnes m j y) :
    TopOnes m (2 * j) (y ||| y >>> j) := by
  intro i
  simp only [BitVec.getLsbD_or, BitVec.getLsbD_ushiftRight]
  refine ⟨fun hi => ?_, fun hi hj => ?_⟩
  · rw [(h i).1 hi, (h (j + i)).1 (by omega), Bool.or_false]
  · rcases Nat.lt_or_ge (i + j) m with hlt | hge
    · rw [(h (j + i)).2 (by omega) (by omega), Bool.or_true]
    · rw [(h i).2 hi hge, Bool.true_or]

/-- A nonzero word has a highest set bit. -/
theorem exists_topOnes (y : U32) : ∃ m ≤ 32, TopOnes m 1 y := by
  by_cases hz : y = 0
  · refine ⟨0, by omega, fun i => ⟨fun _ => by simp [hz], fun hi => by omega⟩⟩
  · have hne : y.toNat ≠ 0 := fun h => hz (BitVec.eq_of_toNat_eq (by simpa using h))
    refine ⟨y.toNat.log2 + 1, ?_, fun i => ⟨fun hi => ?_, fun hi hj => ?_⟩⟩
    · have := (Nat.log2_lt hne).2 y.isLt
      omega
    · rw [BitVec.getLsbD, Nat.testBit_lt_two_pow]
      exact lt_of_lt_of_le Nat.lt_log2_self (Nat.pow_le_pow_right (by omega) hi)
    · have : i = y.toNat.log2 := by omega
      rw [this, BitVec.getLsbD, Nat.testBit_log2 hne]

/-- A word whose bits below `m` are all one and whose other bits are zero is `2 ^ m - 1`. -/
theorem TopOnes.toNat_eq {m j : Nat} {y : U32} (h : TopOnes m j y) (hj : m ≤ j) :
    y.toNat = 2 ^ m - 1 := by
  refine Nat.eq_of_testBit_eq fun i => ?_
  rw [Nat.testBit_two_pow_sub_one, ← BitVec.getLsbD]
  rcases Nat.lt_or_ge i m with hi | hi
  · rw [(h i).2 hi (by omega), decide_eq_true hi]
  · rw [(h i).1 hi, decide_eq_false (by omega)]

/-- The rounded capacity is `2 ^ m` for the bit length `m` of `n - 1`, wrapped to 32 bits. -/
theorem nextPow2_eq (n : U32) (hn : n ≠ 0) : ∃ m ≤ 32, TopOnes m 1 (n - 1) ∧
    (nextPow2 n).toNat = 2 ^ m % 2 ^ 32 := by
  obtain ⟨m, hm, htop⟩ := exists_topOnes (n - 1)
  refine ⟨m, hm, htop, ?_⟩
  have hfull := (((htop.smear).smear).smear).smear.smear.toNat_eq (by omega)
  simp only [nextPow2, if_neg hn]
  rw [BitVec.toNat_add, hfull]
  have hpos := Nat.two_pow_pos m
  rw [show (1 : U32).toNat = 1 from rfl, Nat.sub_add_cancel hpos]

/-- `next_pow2` gives zero or a power of two up to `2 ^ 31`. -/
theorem nextPow2_spec (n : U32) : nextPow2 n = 0 ∨ ∃ e ≤ 31, (nextPow2 n).toNat = 2 ^ e := by
  by_cases hn : n = 0
  · exact Or.inr ⟨0, by omega, by rw [nextPow2, if_pos hn]; rfl⟩
  · obtain ⟨m, hm, -, heq⟩ := nextPow2_eq n hn
    rcases Nat.lt_or_ge m 32 with hlt | hge
    · refine Or.inr ⟨m, by omega, ?_⟩
      rw [heq, Nat.mod_eq_of_lt (Nat.pow_lt_pow_right (by omega) hlt)]
    · obtain rfl : m = 32 := by omega
      exact Or.inl (BitVec.eq_of_toNat_eq (by rw [heq]; rfl))

/-- The highest set bit bounds the word on both sides. -/
theorem TopOnes.bounds {m : Nat} {y : U32} (h : TopOnes m 1 y) :
    y.toNat < 2 ^ m ∧ (0 < m → 2 ^ (m - 1) ≤ y.toNat) := by
  constructor
  · apply Nat.lt_pow_two_of_testBit
    intro i hi
    rw [← BitVec.getLsbD]
    exact (h i).1 hi
  · intro hm
    apply Nat.ge_two_pow_of_testBit
    rw [← BitVec.getLsbD]
    exact (h (m - 1)).2 (by omega) (by omega)

/-- For requests up to `2 ^ 31` the rounded capacity is the least power of two that is large
enough. -/
theorem nextPow2_isLeast {n : Nat} (hpos : 1 ≤ n) (hle : n ≤ 2 ^ 31) :
    IsLeast { c | (∃ e, c = 2 ^ e) ∧ n ≤ c } (nextPow2 (BitVec.ofNat 32 n)).toNat := by
  have hword : (BitVec.ofNat 32 n).toNat = n := by
    rw [BitVec.toNat_ofNat, Nat.mod_eq_of_lt (by omega)]
  have hne : BitVec.ofNat 32 n ≠ 0 := by
    intro hz
    rw [hz] at hword
    simp at hword
    omega
  obtain ⟨m, -, htop, heq⟩ := nextPow2_eq (BitVec.ofNat 32 n) hne
  have hpred : (BitVec.ofNat 32 n - 1).toNat = n - 1 := by
    bv_omega
  obtain ⟨hlt, hge⟩ := htop.bounds
  rw [hpred] at hlt hge
  -- the bit length of `n - 1` is at most 31, so the sum does not wrap
  have hm : m < 32 := by
    by_contra hbig
    have hpow := Nat.pow_le_pow_right (n := 2) (by omega) (show 31 ≤ m - 1 by omega)
    have := hge (by omega)
    omega
  rw [heq, Nat.mod_eq_of_lt (Nat.pow_lt_pow_right (by omega) hm)]
  refine ⟨⟨⟨m, rfl⟩, by omega⟩, ?_⟩
  rintro c ⟨⟨e, rfl⟩, hc⟩
  by_contra hsmall
  have hem : e < m := (Nat.pow_lt_pow_iff_right (by omega)).1 (Nat.lt_of_not_le hsmall)
  have hpow := Nat.pow_le_pow_right (n := 2) (by omega) (show e ≤ m - 1 by omega)
  have := hge (by omega)
  omega

/-- The `capacity` field of a ring: zero or a power of two up to `2 ^ 31`. -/
structure RingCap where
  val : U32
  pow2 : val = 0 ∨ ∃ e ≤ 31, val.toNat = 2 ^ e

namespace RingCap

/-- The capacity `ring_lf_init` computes for the requested `cap`. -/
def ofRequest (cap : Nat) : RingCap := ⟨nextPow2 (BitVec.ofNat 32 cap), nextPow2_spec _⟩

/-- The number of slots. -/
def size (c : RingCap) : Nat := c.val.toNat

/-- `mask`: the capacity minus one. -/
def mask (c : RingCap) : U32 := c.val - 1

theorem size_le (c : RingCap) : c.size ≤ 2 ^ 31 := by
  rcases c.pow2 with h | ⟨e, he, h⟩
  · simp [size, h]
  · rw [size, h]
    exact Nat.pow_le_pow_right (by omega) he

theorem ofNat_size (c : RingCap) : BitVec.ofNat 32 c.size = c.val := by
  rw [size, BitVec.ofNat_toNat, BitVec.setWidth_eq]

/-- Masking the word of a position gives the position's slot. -/
theorem and_mask (c : RingCap) (hc : 0 < c.size) (n : Nat) :
    BitVec.ofNat 32 n &&& c.mask = Wrap.slotOf c.size n := by
  rcases c.pow2 with h | ⟨e, he, h⟩
  · simp [size, h] at hc
  · rw [mask, size, h]
    exact Wrap.and_mask_eq_slotOf h (by omega)

theorem toNat_slotOf (c : RingCap) (hc : 0 < c.size) (n : Nat) :
    (Wrap.slotOf c.size n : U32).toNat = n % c.size := by
  have hlt := Nat.mod_lt n hc
  have hle := c.size_le
  rw [Wrap.slotOf, BitVec.toNat_ofNat, Nat.mod_eq_of_lt (by omega)]

/-- Masking a cursor leaves its remainder by the capacity. -/
theorem toNat_and_mask (c : RingCap) (hc : 0 < c.size) (p : U32) :
    (p &&& c.mask).toNat = p.toNat % c.size := by
  have hand := c.and_mask hc p.toNat
  rw [BitVec.ofNat_toNat, BitVec.setWidth_eq] at hand
  rw [hand, c.toNat_slotOf hc]

end RingCap

end LibChan
