import Mathlib.Tactic

/-!
# Wrapping counters

A machine word of width `w` that only ever counts up stands for an unbounded counter: it holds
`BitVec.ofNat w n` where `n` is the true count. This file has the facts that let a proof replace
words by true counts: the difference of two words is the difference of the counts when the counts
are in order and less than `2 ^ w` apart (`ofNat_sub_toNat`), and two equal words stand for equal
counts when the counts are less than `2 ^ w` apart (`ofNat_inj_of_window`). The last section
addresses a circular array of `2 ^ e` slots by the low bits of such a word.
-/

set_option autoImplicit false

namespace LibChan.Wrap

variable {w : Nat}

theorem ofNat_sub_of_le {a b : Nat} (h : b ≤ a) :
    BitVec.ofNat w a - BitVec.ofNat w b = BitVec.ofNat w (a - b) := by
  have e : BitVec.ofNat w a = BitVec.ofNat w (a - b) + BitVec.ofNat w b := by
    rw [← BitVec.ofNat_add, Nat.sub_add_cancel h]
  rw [e, BitVec.add_sub_cancel]

/-- The word difference of two counters in order and less than `2 ^ w` apart is the true
difference. -/
theorem ofNat_sub_toNat {a b : Nat} (h : b ≤ a) (hlt : a - b < 2 ^ w) :
    (BitVec.ofNat w a - BitVec.ofNat w b).toNat = a - b := by
  rw [ofNat_sub_of_le h, BitVec.toNat_ofNat, Nat.mod_eq_of_lt hlt]

/-- Equal words of counters less than `2 ^ w` apart stand for equal counts. -/
theorem ofNat_inj_of_window {a b : Nat} (h : b ≤ a) (hlt : a - b < 2 ^ w)
    (heq : BitVec.ofNat w a = BitVec.ofNat w b) : a = b := by
  have hd := ofNat_sub_toNat h hlt
  rw [heq, BitVec.sub_self, BitVec.toNat_zero] at hd
  omega

theorem ofNat_add_word (a : Nat) (k : BitVec w) :
    BitVec.ofNat w a + k = BitVec.ofNat w (a + k.toNat) := by
  rw [BitVec.ofNat_add, BitVec.ofNat_toNat, BitVec.setWidth_eq]

theorem ofNat_succ (a : Nat) : BitVec.ofNat w a + 1 = BitVec.ofNat w (a + 1) := by
  rw [BitVec.ofNat_add]
  rfl

/-- Two words as counts in order: `a` lies `(a - b).toNat` above `b`. -/
theorem ofNat_toNat_add_sub (a b : BitVec w) : BitVec.ofNat w (b.toNat + (a - b).toNat) = a := by
  rw [BitVec.ofNat_add, BitVec.ofNat_toNat, BitVec.ofNat_toNat, BitVec.setWidth_eq,
    BitVec.setWidth_eq, BitVec.add_comm, BitVec.sub_add_cancel]

/-! ## Slots of a circular array -/

/-- The slot of position `n` in a circular array of `c` slots, as a word. -/
def slotOf (c n : Nat) : BitVec w := BitVec.ofNat w (n % c)

/-- The low `e` bits of the word of `n` are the slot of `n` in an array of `2 ^ e` slots. -/
theorem and_mask_eq_slotOf {e n : Nat} {cap : BitVec w} (hcap : cap.toNat = 2 ^ e) (he : e ≤ w) :
    BitVec.ofNat w n &&& (cap - 1) = slotOf (2 ^ e) n := by
  apply BitVec.eq_of_toNat_eq
  have hpos : 0 < 2 ^ e := Nat.two_pow_pos e
  have hlt : cap.toNat < 2 ^ w := cap.isLt
  have hone : (1 : BitVec w).toNat = 1 % 2 ^ w := by
    rw [show (1 : BitVec w) = BitVec.ofNat w 1 from rfl, BitVec.toNat_ofNat]
  have hw : 1 < 2 ^ w := by omega
  have hmask : (cap - 1).toNat = 2 ^ e - 1 := by
    have hle : (1 : BitVec w) ≤ cap := by
      rw [BitVec.le_def, hone, Nat.mod_eq_of_lt hw]
      omega
    rw [BitVec.toNat_sub_of_le hle, hone, Nat.mod_eq_of_lt hw, hcap]
  have hdvd : 2 ^ e ∣ 2 ^ w := Nat.pow_dvd_pow 2 he
  have hmod : n % 2 ^ e < 2 ^ w :=
    lt_of_lt_of_le (Nat.mod_lt _ hpos) (Nat.pow_le_pow_right (by omega) he)
  rw [BitVec.toNat_and, hmask, BitVec.toNat_ofNat, Nat.and_two_pow_sub_one_eq_mod,
    Nat.mod_mod_of_dvd _ hdvd, slotOf, BitVec.toNat_ofNat, Nat.mod_eq_of_lt hmod]

/-- Positions within one lap of the array have different slots. -/
theorem slotOf_inj {c a n m : Nat} (hc : c ≤ 2 ^ w) (hn : a ≤ n) (hn' : n < a + c) (hm : a ≤ m)
    (hm' : m < a + c) (h : (slotOf c n : BitVec w) = slotOf c m) : n = m := by
  have hpos : 0 < c := by omega
  have hmod : n % c = m % c := by
    have := congrArg BitVec.toNat h
    rwa [slotOf, slotOf, BitVec.toNat_ofNat, BitVec.toNat_ofNat,
      Nat.mod_eq_of_lt (lt_of_lt_of_le (Nat.mod_lt _ hpos) hc),
      Nat.mod_eq_of_lt (lt_of_lt_of_le (Nat.mod_lt _ hpos) hc)] at this
  rcases Nat.le_total n m with hle | hle
  · have hd : (m - n) % c = 0 := Nat.sub_mod_eq_zero_of_mod_eq hmod.symm
    rw [Nat.mod_eq_of_lt (by omega)] at hd
    omega
  · have hd : (n - m) % c = 0 := Nat.sub_mod_eq_zero_of_mod_eq hmod
    rw [Nat.mod_eq_of_lt (by omega)] at hd
    omega

end LibChan.Wrap
