import Mathlib.Data.Nat.Bitwise

/-!
# Bit fields of 64-bit words

Single-bit and contiguous masks, what `&&&` with such a mask keeps, and the reading of an
address field as a natural number. Statements go through `getLsbD`, so that equalities of
masked words are proved bit by bit.
-/

namespace Lib.WordBits

/-- The word whose only set bit is bit `v`. -/
def bit (v : Nat) : BitVec 64 := 1#64 <<< v

/-- The word whose set bits are `low` to `high`, both included. -/
def bitmaskInc (low high : Nat) : BitVec 64 :=
  (~~~(~~~0#64 <<< (high + 1 - low))) <<< low

/-- Whether every bit of `mask` is set in `v`. -/
def hasFlag (v mask : BitVec 64) : Bool := v &&& mask == mask

/-- The bits of a single-bit mask. -/
theorem getLsbD_bit (v i : Nat) : (bit v).getLsbD i = (decide (i = v) && decide (v < 64)) := by
  unfold bit
  by_cases hi : i < 64
  · by_cases hv : i < v
    · have hne : i ≠ v := by omega
      simp [hv, hne]
    · have hiff : (i - v = 0) ↔ i = v := by omega
      by_cases heq : i = v
      · subst heq
        simp [hi]
      · have h0 : i - v ≠ 0 := fun h ↦ heq (hiff.mp h)
        simp [heq, h0, BitVec.getLsbD_one]
  · by_cases heq : i = v
    · subst heq
      simp [hi]
    · simp [hi, heq]

/-- The bits of a contiguous mask. -/
theorem getLsbD_bitmaskInc (low high i : Nat) :
    (bitmaskInc low high).getLsbD i =
      (decide (low ≤ i) && decide (i ≤ high) && decide (i < 64)) := by
  unfold bitmaskInc
  simp only [BitVec.getLsbD_shiftLeft, BitVec.getLsbD_not, BitVec.getLsbD_zero, Bool.not_false,
    Bool.and_true]
  rw [Bool.eq_iff_iff]
  simp only [Bool.and_eq_true, Bool.not_eq_true', Bool.not_eq_false', Bool.and_eq_false_iff,
    decide_eq_true_eq, decide_eq_false_iff_not]
  omega

/-- A single-bit flag is the bit. -/
theorem hasFlag_bit (v : BitVec 64) {i : Nat} (hi : i < 64) : hasFlag v (bit i) = v.getLsbD i := by
  unfold hasFlag
  rw [Bool.eq_iff_iff, beq_iff_eq]
  constructor
  · intro h
    have hbit := congrArg (·.getLsbD i) h
    simpa [getLsbD_bit, hi] using hbit
  · intro h
    apply BitVec.eq_of_getLsbD_eq
    intro j _
    rw [BitVec.getLsbD_and, getLsbD_bit]
    by_cases hj : j = i
    · subst hj
      simp [h]
    · simp [hj]

/-- A masked word is zero exactly when no bit of the mask is set in it. -/
theorem and_eq_zero_iff (v mask : BitVec 64) :
    v &&& mask = 0#64 ↔ ∀ i, i < 64 → mask.getLsbD i = true → v.getLsbD i = false := by
  constructor
  · intro h i _ hm
    have hbit := congrArg (·.getLsbD i) h
    simpa [hm] using hbit
  · intro h
    apply BitVec.eq_of_getLsbD_eq
    intro i hi
    rw [BitVec.getLsbD_and, BitVec.getLsbD_zero]
    cases hm : mask.getLsbD i with
    | false => simp
    | true => simp [h i hi hm]

/-- No bit of a mask range is set exactly when the masked word is zero. -/
theorem and_bitmaskInc_eq_zero (v : BitVec 64) (low high : Nat) :
    v &&& bitmaskInc low high = 0#64 ↔
      ∀ i, low ≤ i → i ≤ high → i < 64 → v.getLsbD i = false := by
  rw [and_eq_zero_iff]
  constructor
  · intro h i hlow hhigh hi
    exact h i hi (by simp [getLsbD_bitmaskInc, hlow, hhigh, hi])
  · intro h i hi hm
    rw [getLsbD_bitmaskInc] at hm
    simp only [Bool.and_eq_true, decide_eq_true_eq] at hm
    exact h i hm.1.1 hm.1.2 hi

/-- Masking with bit `i` gives zero exactly when that bit is unset. -/
theorem and_bit_eq_zero (v : BitVec 64) {i : Nat} (hi : i < 64) :
    v &&& bit i = 0#64 ↔ v.getLsbD i = false := by
  rw [and_eq_zero_iff]
  constructor
  · intro h
    exact h i hi (by simp [getLsbD_bit, hi])
  · intro h j _ hm
    rw [getLsbD_bit] at hm
    simp only [Bool.and_eq_true, decide_eq_true_eq] at hm
    rw [hm.1, h]

/-- A masked word equals the word exactly when all its bits lie in the mask. -/
theorem and_bitmaskInc_eq_self (v : BitVec 64) (low high : Nat) :
    v &&& bitmaskInc low high = v ↔
      ∀ i, i < 64 → v.getLsbD i = true → low ≤ i ∧ i ≤ high := by
  constructor
  · intro h i hi hv
    have hbit := congrArg (·.getLsbD i) h
    simp only [BitVec.getLsbD_and, getLsbD_bitmaskInc, hv, Bool.true_and, Bool.and_eq_true,
      decide_eq_true_eq] at hbit
    exact hbit.1
  · intro h
    apply BitVec.eq_of_getLsbD_eq
    intro i hi
    rw [BitVec.getLsbD_and, getLsbD_bitmaskInc]
    cases hv : v.getLsbD i with
    | false => simp
    | true => simp [h i hi hv, hi]

/-- A natural number below `2 ^ (high + 1)` and divisible by `2 ^ low` has all its bits in the
range from `low` to `high`. -/
theorem ofNat_and_bitmaskInc_eq_self {n low high : Nat} (hlt : n < 2 ^ (high + 1))
    (hdvd : n % 2 ^ low = 0) :
    BitVec.ofNat 64 n &&& bitmaskInc low high = BitVec.ofNat 64 n := by
  rw [and_bitmaskInc_eq_self]
  intro i hi hv
  rw [BitVec.getLsbD_ofNat] at hv
  simp only [hi, decide_true, Bool.true_and] at hv
  constructor
  · by_contra hlow
    have hmod : (n % 2 ^ low).testBit i = true := by
      rw [Nat.testBit_mod_two_pow]
      simp only [hv, Bool.and_true, decide_eq_true_eq]
      omega
    rw [hdvd, Nat.zero_testBit] at hmod
    exact Bool.false_ne_true hmod
  · by_contra hgt
    have hle : 2 ^ (high + 1) ≤ 2 ^ i := Nat.pow_le_pow_right (by decide) (by omega)
    rw [Nat.testBit_eq_false_of_lt (Nat.lt_of_lt_of_le hlt hle)] at hv
    exact Bool.false_ne_true hv

/-- The field of bits `low` to `high` of an address, as a number. -/
theorem toNat_field (n : Nat) {low high : Nat} (hle : low ≤ high) (hhigh : high < 64) :
    ((BitVec.ofNat 64 n &&& bitmaskInc low high) >>> low).toNat =
      n / 2 ^ low % 2 ^ (high + 1 - low) := by
  apply Nat.eq_of_testBit_eq
  intro i
  rw [BitVec.testBit_toNat, BitVec.getLsbD_ushiftRight, BitVec.getLsbD_and, getLsbD_bitmaskInc,
    BitVec.getLsbD_ofNat, Nat.testBit_mod_two_pow, Nat.testBit_div_two_pow]
  by_cases hi : i < high + 1 - low
  · have h1 : low + i < 64 := by omega
    have h2 : low + i ≤ high := by omega
    simp [hi, h1, h2, Nat.add_comm]
  · have h2 : ¬low + i ≤ high := by omega
    simp [hi, h2]

end Lib.WordBits
