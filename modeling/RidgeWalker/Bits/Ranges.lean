import Mathlib

/-!
# Bit ranges

Reading and assigning a range of consecutive bits of a word, as `ap_uint` does: the range
that starts at bit `lo` and is `len` bits wide is `range(lo + len - 1, lo)`.

Main results:

- Theorem `range_setRange_self`: a range that was just assigned reads back.
- Theorem `range_setRange_of_disjoint`: assigning a range leaves the others alone.
- Theorem `toNat_range`: a range as quotient and remainder.
- Theorem `toNat_and_fffffff0`: clearing low bits rounds down.
-/

namespace RidgeWalker.Bits

variable {n : ℕ}

/-- The bits from `lo` on, `len` of them. -/
def range (x : BitVec n) (lo len : ℕ) : BitVec len := x.extractLsb' lo len

/-- The word with the bits from `lo` on replaced by `v`. -/
def setRange (x : BitVec n) (lo : ℕ) {len : ℕ} (v : BitVec len) : BitVec n :=
  (x &&& ~~~((BitVec.allOnes len).setWidth n <<< lo)) ||| (v.setWidth n <<< lo)

@[simp] theorem getLsbD_range (x : BitVec n) (lo len i : ℕ) :
    (range x lo len).getLsbD i = (decide (i < len) && x.getLsbD (lo + i)) := by
  simp [range]

/-- The bits of an assigned word. -/
theorem getLsbD_setRange (x : BitVec n) {lo len : ℕ} (v : BitVec len) {i : ℕ} (hi : i < n) :
    (setRange x lo v).getLsbD i =
      if lo ≤ i ∧ i < lo + len then v.getLsbD (i - lo) else x.getLsbD i := by
  by_cases hlo : lo ≤ i
  · by_cases hlen : i < lo + len
    · have hin : i - lo < len := by omega
      simp [setRange, hi, hlo, hlen, hin, not_lt.mpr hlo]
    · have hout : ¬i - lo < len := by omega
      have hv : v.getLsbD (i - lo) = false := BitVec.getLsbD_of_ge _ _ (by omega)
      simp [setRange, hi, hlen, hout, hv, not_lt.mpr hlo]
  · simp [setRange, hi, hlo, not_le.mp hlo]

/-- A range that was just assigned reads back. -/
theorem range_setRange_self (x : BitVec n) {lo len : ℕ} (v : BitVec len) (h : lo + len ≤ n) :
    range (setRange x lo v) lo len = v := by
  apply BitVec.eq_of_getLsbD_eq
  intro i hi
  rw [getLsbD_range, getLsbD_setRange x v (by omega)]
  simp [hi]

/-- Assigning a range leaves the others alone. -/
theorem range_setRange_of_disjoint (x : BitVec n) {lo len lo' len' : ℕ} (v : BitVec len)
    (h : lo' + len' ≤ n) (hd : lo' + len' ≤ lo ∨ lo + len ≤ lo') :
    range (setRange x lo v) lo' len' = range x lo' len' := by
  apply BitVec.eq_of_getLsbD_eq
  intro i hi
  have hout : ¬(lo ≤ lo' + i ∧ lo' + i < lo + len) := by omega
  rw [getLsbD_range, getLsbD_range, getLsbD_setRange x v (by omega), if_neg hout]

/-- Widening a word keeps its ranges. -/
theorem range_setWidth (x : BitVec n) {m lo len : ℕ} (h : lo + len ≤ m) :
    range (x.setWidth m) lo len = range x lo len := by
  apply BitVec.eq_of_getLsbD_eq
  intro i hi
  rw [getLsbD_range, getLsbD_range, BitVec.getLsbD_setWidth]
  have hin : lo + i < m := by omega
  simp [hin]

/-- A range of a range. -/
theorem range_range (x : BitVec n) {lo len lo' len' : ℕ} (h : lo' + len' ≤ len) :
    range (range x lo len) lo' len' = range x (lo + lo') len' := by
  apply BitVec.eq_of_getLsbD_eq
  intro i hi
  have hin : lo' + i < len := by omega
  rw [getLsbD_range, getLsbD_range, getLsbD_range, Nat.add_assoc]
  simp [hin]

/-- A range as quotient and remainder. -/
theorem toNat_range (x : BitVec n) (lo len : ℕ) :
    (range x lo len).toNat = x.toNat / 2 ^ lo % 2 ^ len := by
  rw [range, BitVec.extractLsb'_toNat, Nat.shiftRight_eq_div_pow]

/-- Clearing the four lowest bits. -/
theorem toNat_and_fffffff0 (x : BitVec 32) : (x &&& 0xfffffff0#32).toNat = x.toNat / 16 * 16 := by
  have hmask : ∀ i < 32, (0xfffffff0#32).getLsbD i = decide (4 ≤ i) := by decide
  have hshift : x &&& 0xfffffff0#32 = (x >>> 4) <<< 4 := by
    apply BitVec.eq_of_getLsbD_eq
    intro i hi
    rw [BitVec.getLsbD_and, hmask i hi, BitVec.getLsbD_shiftLeft, BitVec.getLsbD_ushiftRight]
    by_cases hlow : 4 ≤ i
    · simp [hi, hlow, not_lt.mpr hlow]
    · simp [hlow, not_le.mp hlow]
  have hlt := x.isLt
  rw [hshift, BitVec.toNat_shiftLeft, BitVec.toNat_ushiftRight, Nat.shiftLeft_eq,
    Nat.shiftRight_eq_div_pow]
  omega

/-- The sixteen lowest bits. -/
theorem toNat_and_ffff (x : BitVec 32) : (x &&& 0xffff#32).toNat = x.toNat % 65536 := by
  rw [BitVec.toNat_and]
  exact Nat.and_two_pow_sub_one_eq_mod x.toNat 16

end RidgeWalker.Bits
