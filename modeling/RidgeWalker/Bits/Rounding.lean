import Mathlib

/-!
# Rounding to nearest

Double-precision multiplication of natural numbers rounds the product to 53 significant bits, to
the nearest and to even on a tie.

Main results:

- Theorem `toDouble_eq_self`: what fits in 53 bits is not rounded.
- Theorem `toDouble_mul_lt`: a product of a small number and a fraction of `2 ^ 32` stays below
  the number of whole parts.
-/

namespace RidgeWalker.Bits

/-- The multiple of `2 ^ e` nearest to `x`, the even one on a tie. -/
def roundHalfEven (x e : ℕ) : ℕ :=
  if 2 * (x % 2 ^ e) < 2 ^ e ∨ 2 * (x % 2 ^ e) = 2 ^ e ∧ x / 2 ^ e % 2 = 0 then
    x / 2 ^ e * 2 ^ e
  else (x / 2 ^ e + 1) * 2 ^ e

/-- A natural number in double precision. -/
def toDouble (x : ℕ) : ℕ := roundHalfEven x (x.log2 + 1 - 53)

/-- Rounding adds at most half a unit. -/
theorem two_mul_roundHalfEven_le (x e : ℕ) : 2 * roundHalfEven x e ≤ 2 * x + 2 ^ e := by
  have hx := Nat.div_add_mod' x (2 ^ e)
  unfold roundHalfEven
  split
  · omega
  · rename_i hnot
    have hhalf : 2 ^ e ≤ 2 * (x % 2 ^ e) := not_lt.mp fun h => hnot (.inl h)
    rw [Nat.add_mul, Nat.one_mul]
    omega

/-- What fits in 53 bits is not rounded. -/
theorem toDouble_eq_self {x : ℕ} (h : x < 2 ^ 53) : toDouble x = x := by
  have he : x.log2 + 1 - 53 = 0 := by
    rcases Nat.eq_zero_or_pos x with rfl | hpos
    · rfl
    · have hlog := (Nat.log2_lt hpos.ne').mpr h
      omega
  simp [toDouble, he, roundHalfEven, Nat.mod_one]

/-- A number below `2 ^ 32`, scaled by a positive number of at most 32 bits, stays below the full
scale, also when the product is rounded. -/
theorem toDouble_mul_lt {d r : ℕ} (hd : 0 < d) (hr : r < 2 ^ 32) :
    toDouble (d * r) < d * 2 ^ 32 := by
  have hgap : d * r + d ≤ d * 2 ^ 32 := by
    rw [← Nat.mul_succ]
    exact Nat.mul_le_mul_left d hr
  rcases lt_or_ge (d * r) (2 ^ 53) with hsmall | hlarge
  · rw [toDouble_eq_self hsmall]
    omega
  · have hround := two_mul_roundHalfEven_le (d * r) ((d * r).log2 + 1 - 53)
    have hlog : 2 ^ (d * r).log2 ≤ d * r := Nat.log2_self_le (by omega)
    have hge : 53 ≤ (d * r).log2 := (Nat.le_log2 (by omega)).mpr hlarge
    -- the last bit kept is worth less than twice the distance to the full scale
    have hunit : 2 ^ ((d * r).log2 + 1 - 53) < 2 * d := by
      have hsplit : 2 ^ (d * r).log2 = 2 ^ ((d * r).log2 + 1 - 53) * 2 ^ 52 := by
        rw [← pow_add]
        congr 1
        omega
      have hbound : 2 ^ ((d * r).log2 + 1 - 53) * 2 ^ 52 < d * 2 ^ 32 := by omega
      omega
    unfold toDouble
    omega

end RidgeWalker.Bits
