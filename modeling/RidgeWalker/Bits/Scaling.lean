import Mathlib

/-!
# Scaling a range down

The numbers below `N`, multiplied by `d` and divided by `N`, fall on the numbers below `d` in
blocks.  The blocks have the rounded size `N / d`, up or down.

Main results:

- Theorem `filter_scaled_eq`: the preimage of one number is an interval.
- Theorem `card_scaled`: its size is `N / d`, rounded down or up.
- Theorem `card_scaled_lt`: the number of words that are scaled below a bound.
-/

namespace RidgeWalker.Bits

variable {N d : ℕ}

/-- A number is scaled to `k` exactly if it lies between the two quotients, rounded up. -/
theorem scaled_eq_iff (hN : 0 < N) (hd : 0 < d) (r k : ℕ) :
    d * r / N = k ↔ k * N ⌈/⌉ d ≤ r ∧ r < (k + 1) * N ⌈/⌉ d := by
  rw [Nat.div_eq_iff hN, ceilDiv_le_iff_le_mul hd, ← not_le, ceilDiv_le_iff_le_mul hd,
    Nat.add_one_mul]
  omega

/-- A number is scaled below `k` exactly if it lies below the quotient, rounded up. -/
theorem scaled_lt_iff (hN : 0 < N) (hd : 0 < d) (r k : ℕ) :
    d * r / N < k ↔ r < k * N ⌈/⌉ d := by
  rw [Nat.div_lt_iff_lt_mul hN, ← not_le, ← not_le, ceilDiv_le_iff_le_mul hd]

/-- Of the numbers below `N`, those that are scaled to `k` are an interval. -/
theorem filter_scaled_eq (hN : 0 < N) (hd : 0 < d) {k : ℕ} (hk : k < d) :
    {r ∈ Finset.range N | d * r / N = k} = Finset.Ico (k * N ⌈/⌉ d) ((k + 1) * N ⌈/⌉ d) := by
  ext r
  rw [Finset.mem_filter, Finset.mem_range, Finset.mem_Ico, scaled_eq_iff hN hd]
  refine ⟨And.right, fun h => ⟨h.2.trans_le ?_, h⟩⟩
  exact (ceilDiv_le_iff_le_mul hd).mpr (Nat.mul_le_mul_right N hk)

/-- An interval of length `N / d` between two quotients rounded up has the length rounded down or
up. -/
theorem ceilDiv_sub_ceilDiv (hd : 0 < d) (a N : ℕ) :
    (a + N) ⌈/⌉ d - a ⌈/⌉ d = N / d ∨ (a + N) ⌈/⌉ d - a ⌈/⌉ d = N ⌈/⌉ d := by
  have hN := Nat.div_add_mod N d
  have ha := Nat.div_add_mod (a + d - 1) d
  have hrest := Nat.mod_lt N hd
  have hlast := Nat.mod_lt (a + d - 1) hd
  -- both rounded quotients by the remainders of `N` and of `a + d - 1`
  have hsum : (a + N + d - 1) / d =
      (a + d - 1) / d + N / d + ((a + d - 1) % d + N % d) / d := by
    have hsplit : a + N + d - 1 =
        (a + d - 1) % d + N % d + d * ((a + d - 1) / d + N / d) := by
      rw [Nat.mul_add]
      omega
    rw [hsplit, Nat.add_mul_div_left _ _ hd]
    omega
  have hround : (N + d - 1) / d = N / d + (N % d + d - 1) / d := by
    have hsplit : N + d - 1 = N % d + d - 1 + d * (N / d) := by omega
    rw [hsplit, Nat.add_mul_div_left _ _ hd]
    omega
  rw [Nat.ceilDiv_eq_add_pred_div, Nat.ceilDiv_eq_add_pred_div, Nat.ceilDiv_eq_add_pred_div, hsum,
    hround]
  rcases lt_or_ge ((a + d - 1) % d + N % d) d with hsmall | hlarge
  · left
    rw [Nat.div_eq_of_lt hsmall, Nat.add_zero, Nat.add_sub_cancel_left]
  · right
    have hone : ((a + d - 1) % d + N % d) / d = 1 :=
      Nat.div_eq_of_lt_le (by omega) (by omega)
    have hceil : (N % d + d - 1) / d = 1 := Nat.div_eq_of_lt_le (by omega) (by omega)
    rw [hone, hceil, Nat.add_assoc, Nat.add_sub_cancel_left]

/-- Of the numbers below `N`, either `N / d` or `N / d` rounded up are scaled to `k`. -/
theorem card_scaled (hN : 0 < N) (hd : 0 < d) {k : ℕ} (hk : k < d) :
    {r ∈ Finset.range N | d * r / N = k}.card = N / d ∨
      {r ∈ Finset.range N | d * r / N = k}.card = N ⌈/⌉ d := by
  rw [filter_scaled_eq hN hd hk, Nat.card_Ico, Nat.add_one_mul]
  exact ceilDiv_sub_ceilDiv hd (k * N) N

/-! ## Counting words -/

/-- The words below a bound, counted. -/
theorem card_toNat_lt {n c : ℕ} (hc : c ≤ 2 ^ n) :
    Nat.card {word : BitVec n // word.toNat < c} = c := by
  have hequiv : {word : BitVec n // word.toNat < c} ≃ Fin c :=
    { toFun := fun word => ⟨word.1.toNat, word.2⟩
      invFun := fun k => ⟨BitVec.ofNatLT k.val (k.isLt.trans_le hc), k.isLt⟩
      left_inv := fun word => rfl
      right_inv := fun k => rfl }
  rw [Nat.card_congr hequiv, Nat.card_eq_fintype_card, Fintype.card_fin]

theorem card_words (n : ℕ) : Nat.card (BitVec n) = 2 ^ n := by
  rw [Nat.card_congr BitVec.equivFin.toEquiv, Nat.card_eq_fintype_card, Fintype.card_fin]

/-- The words that miss a bound are the others. -/
theorem card_not_toNat_lt {n c : ℕ} (hc : c ≤ 2 ^ n) :
    Nat.card {word : BitVec n // ¬word.toNat < c} = 2 ^ n - c := by
  have : Finite (BitVec n) := Finite.of_equiv _ BitVec.equivFin.toEquiv.symm
  have hsum := Nat.card_congr (Equiv.sumCompl fun word : BitVec n => word.toNat < c)
  rw [Nat.card_sum, card_toNat_lt hc, card_words] at hsum
  omega

/-- Of `N` words, as many as `k * N / d`, rounded up, are scaled below `k`. -/
theorem card_scaled_lt {n d k : ℕ} (hd : 0 < d) (hk : k ≤ d) :
    Nat.card {word : BitVec n // d * word.toNat / 2 ^ n < k} = k * 2 ^ n ⌈/⌉ d ∧
      Nat.card {word : BitVec n // ¬d * word.toNat / 2 ^ n < k} = 2 ^ n - k * 2 ^ n ⌈/⌉ d := by
  have hbound : k * 2 ^ n ⌈/⌉ d ≤ 2 ^ n :=
    (ceilDiv_le_iff_le_mul hd).mpr (Nat.mul_le_mul_right (2 ^ n) hk)
  simp only [scaled_lt_iff (Nat.two_pow_pos n) hd]
  exact ⟨card_toNat_lt hbound, card_not_toNat_lt hbound⟩

/-- Choices that are independent of each other are counted by a product. -/
theorem card_independent {ι A : Type} [Fintype ι] (P : ι → A → Prop) :
    Nat.card {r : ι → A // ∀ i, P i (r i)} = ∏ i, Nat.card {a // P i a} := by
  rw [Nat.card_congr Equiv.subtypePiEquivPi, Nat.card_pi]

end RidgeWalker.Bits
