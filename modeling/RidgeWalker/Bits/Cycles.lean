import RidgeWalker.Bits.Affine

/-!
# Cycles of generators

The orbit of a generator that closes after `n` steps, but not after `n / p` steps for a prime `p`
that divides `n`, has period `n`.  Maps that respect exclusive or are evaluated by their columns, so
that billions of steps of them can be taken by doubling.

Main results:

- Theorem `minimalPeriod_eq_of_primes`: the period from a few points of the orbit.
- Theorem `iterate_eq_iff_mod`: which terms of an orbit are equal.
- Theorem `orbit_covers`: an orbit that is as long as the set it stays in runs through all of it.
- Theorem `advance_eq`: many steps of a map that respects exclusive or.
-/

namespace RidgeWalker.Bits

open Function

/-! ## Orbits -/

section Orbits

variable {A : Type} {f : A → A} {x : A} {n : ℕ}

/-- An orbit that closes after `n` steps and no sooner has period `n`: it is enough to look at the
`n / p`. -/
theorem minimalPeriod_eq_of_primes (hclosed : f^[n] x = x)
    (hopen : ∀ p, p.Prime → p ∣ n → f^[n / p] x ≠ x) : minimalPeriod f x = n := by
  have hdvd : minimalPeriod f x ∣ n := IsPeriodicPt.minimalPeriod_dvd hclosed
  by_contra hne
  obtain ⟨q, hq⟩ := hdvd
  have hq1 : q ≠ 1 := fun h => hne (by rw [hq, h, Nat.mul_one])
  obtain ⟨p, hp, r, hr⟩ := Nat.exists_prime_and_dvd hq1
  have hsplit : n = p * (minimalPeriod f x * r) := by
    rw [hq]
    conv_lhs => rw [hr]
    ring
  refine hopen p hp ⟨_, hsplit⟩ ?_
  have hdiv : n / p = minimalPeriod f x * r := by
    conv_lhs => rw [hsplit]
    exact Nat.mul_div_cancel_left _ hp.pos
  rw [hdiv]
  exact (isPeriodicPt_minimalPeriod f x).mul_const r

/-- Terms of an orbit are equal exactly if a multiple of the period is between them. -/
theorem iterate_eq_iff_mod (hperiod : minimalPeriod f x = n) (hn : 0 < n) (i j : ℕ) :
    f^[i] x = f^[j] x ↔ i % n = j % n := by
  subst hperiod
  rw [← iterate_mod_minimalPeriod_eq (n := i), ← iterate_mod_minimalPeriod_eq (n := j)]
  constructor
  · intro h
    exact (iterate_injOn_Iio_minimalPeriod (Nat.mod_lt i hn) (Nat.mod_lt j hn)) h
  · intro h
    rw [h]

/-- An orbit that is as long as the set it stays in runs through all of it. -/
theorem orbit_covers [DecidableEq A] {S : Finset A} (hperiod : minimalPeriod f x = n)
    (hS : ∀ k, f^[k] x ∈ S) (hcard : S.card ≤ n) {y : A} (hy : y ∈ S) : ∃ k < n, f^[k] x = y := by
  have hinj : Set.InjOn (fun k => f^[k] x) (Finset.range n) := by
    subst hperiod
    intro i hi j hj h
    exact iterate_injOn_Iio_minimalPeriod (Finset.mem_range.mp hi) (Finset.mem_range.mp hj) h
  have himage : (Finset.range n).image (fun k => f^[k] x) ⊆ S := by
    intro z hz
    obtain ⟨k, -, rfl⟩ := Finset.mem_image.mp hz
    exact hS k
  have hall : (Finset.range n).image (fun k => f^[k] x) = S := by
    refine Finset.eq_of_subset_of_card_le himage ?_
    rw [Finset.card_image_of_injOn hinj, Finset.card_range]
    exact hcard
  rw [← hall] at hy
  obtain ⟨k, hk, rfl⟩ := Finset.mem_image.mp hy
  exact ⟨k, Finset.mem_range.mp hk, rfl⟩

end Orbits

/-! ## Affine maps -/

section Affine

variable {R : Type} [CommSemiring R]

/-- Multiplier and increment of twice as many steps. -/
def doubled (s : R × R) : R × R := (s.1 * s.1, s.2 * s.1 + s.2)

theorem skip_add (a c : R) (m n : ℕ) : skip a c (m + n) =
    ((skip a c m).1 * (skip a c n).1, (skip a c m).2 * (skip a c n).1 + (skip a c n).2) := by
  induction n with
  | zero => simp [skip]
  | succ n ih =>
      rw [← Nat.add_assoc, skip, ih, skip]
      refine Prod.ext ?_ ?_ <;> dsimp only <;> ring

/-- Multiplier and increment of `2^k` steps, by doubling. -/
theorem skip_two_pow (a c : R) (k : ℕ) : skip a c (2 ^ k) = doubled^[k] (a, c) := by
  induction k with
  | zero => simp [skip]
  | succ k ih => rw [iterate_succ_apply', ← ih, pow_succ, Nat.mul_two, skip_add, doubled]

end Affine

/-! ## Maps that respect exclusive or -/

/-- The map respects exclusive or. -/
def XorLinear {w : ℕ} (f : BitVec w → BitVec w) : Prop := ∀ x y, f (x ^^^ y) = f x ^^^ f y

section Columns

variable {w : ℕ}

/-- The images of the `n` bits from bit `i` on, as numbers. -/
def columns (f : BitVec w → BitVec w) : ℕ → ℕ → List ℕ
  | _, 0 => []
  | i, n + 1 => (f (BitVec.ofNat w (2 ^ i))).toNat :: columns f (i + 1) n

/-- The exclusive or of the columns that the bits of a number pick. -/
def combine : List ℕ → ℕ → ℕ
  | [], _ => 0
  | c :: cs, x => c * (x % 2) ^^^ combine cs (x / 2)

/-- The columns of the map taken twice. -/
def square (c : List ℕ) : List ℕ := c.map (combine c)

/-- `n` steps from `x`, by doubling, for an `n` of `k` bits. -/
def advance : ℕ → List ℕ → ℕ → ℕ → ℕ
  | 0, _, _, x => x
  | k + 1, c, n, x => advance k (square c) (n / 2) (if n % 2 = 1 then combine c x else x)

/-- The columns evaluate the map. -/
def Represents (c : List ℕ) (f : BitVec w → BitVec w) : Prop :=
  ∀ x, combine c x.toNat = (f x).toNat

/-- The lowest bit and the rest of a number that stands at bit `i`. -/
theorem shift_eq_xor (i m : ℕ) :
    m * 2 ^ i = (m % 2 * 2 ^ i) ^^^ (m / 2 * 2 ^ (i + 1)) := by
  have hlow : m = (m % 2) ^^^ (m / 2 * 2) := by
    apply Nat.eq_of_testBit_eq
    intro j
    rw [Nat.testBit_xor]
    cases j with
    | zero => simp [Nat.testBit_zero]
    | succ j =>
        have hbit : (m % 2).testBit (j + 1) = false :=
          Nat.testBit_lt_two_pow (lt_of_lt_of_le (Nat.mod_lt m two_pos) (by
            rw [pow_succ]
            have := Nat.one_le_two_pow (n := j)
            omega))
        rw [hbit, Bool.false_xor, Nat.testBit_succ, Nat.testBit_succ,
          Nat.mul_div_cancel _ two_pos]
  calc m * 2 ^ i = ((m % 2) ^^^ (m / 2 * 2)) * 2 ^ i := by rw [← hlow]
    _ = ((m % 2) ^^^ (m / 2 * 2)) <<< i := (Nat.shiftLeft_eq _ _).symm
    _ = (m % 2) <<< i ^^^ (m / 2 * 2) <<< i := Nat.shiftLeft_xor_distrib
    _ = (m % 2 * 2 ^ i) ^^^ (m / 2 * 2 ^ (i + 1)) := by
        rw [Nat.shiftLeft_eq, Nat.shiftLeft_eq, pow_succ, mul_assoc, mul_comm 2]

/-- A bit picks the exclusive or of two columns. -/
theorem xor_mul_mod_two (a b x : ℕ) :
    (a ^^^ b) * (x % 2) = a * (x % 2) ^^^ b * (x % 2) := by
  rcases Nat.mod_two_eq_zero_or_one x with h | h <;> simp [h]

theorem combine_zero (c : List ℕ) : combine c 0 = 0 := by
  induction c with
  | nil => rfl
  | cons c cs ih => simp [combine, ih]

theorem combine_xor (c : List ℕ) (a b : ℕ) :
    combine c (a ^^^ b) = combine c a ^^^ combine c b := by
  induction c generalizing a b with
  | nil => simp [combine]
  | cons c cs ih =>
      have hdiv : (a ^^^ b) / 2 = a / 2 ^^^ b / 2 := Nat.xor_div_two
      have hmod : c * ((a ^^^ b) % 2) = c * (a % 2) ^^^ c * (b % 2) := by
        rcases Nat.mod_two_eq_zero_or_one a with ha | ha <;>
          rcases Nat.mod_two_eq_zero_or_one b with hb | hb <;>
            simp [Nat.xor_mod_two_eq, ha, hb, Nat.add_mod]
      rw [combine, combine, combine, hdiv, hmod, ih]
      simp only [Nat.xor_assoc, Nat.xor_left_comm]

theorem combine_map (c c' : List ℕ) (x : ℕ) :
    combine (c'.map (combine c)) x = combine c (combine c' x) := by
  induction c' generalizing x with
  | nil => exact (combine_zero c).symm
  | cons a cs ih =>
      have hpick : combine c a * (x % 2) = combine c (a * (x % 2)) := by
        rcases Nat.mod_two_eq_zero_or_one x with h | h <;> simp [h, combine_zero]
      rw [List.map_cons, combine, combine, ih, combine_xor, hpick]

variable {f : BitVec w → BitVec w}

theorem XorLinear.map_zero (hf : XorLinear f) : f 0#w = 0#w := by
  have h := hf 0#w 0#w
  rw [BitVec.xor_self, BitVec.xor_self] at h
  exact h

theorem XorLinear.comp {g : BitVec w → BitVec w} (hg : XorLinear g) (hf : XorLinear f) :
    XorLinear (g ∘ f) := fun x y => by
  rw [comp_apply, hf, hg]
  rfl

theorem xor_xor_comm (a b c d : BitVec w) :
    (a ^^^ b) ^^^ (c ^^^ d) = (a ^^^ c) ^^^ (b ^^^ d) := by
  rw [BitVec.xor_assoc, BitVec.xor_assoc, ← BitVec.xor_assoc b, BitVec.xor_comm b,
    BitVec.xor_assoc]

theorem shiftLeft_linear (k : ℕ) : XorLinear fun y : BitVec w => y ^^^ (y <<< k) :=
  fun x y => by
    dsimp only
    rw [BitVec.shiftLeft_xor_distrib, xor_xor_comm]

theorem ushiftRight_linear (k : ℕ) : XorLinear fun y : BitVec w => y ^^^ (y >>> k) :=
  fun x y => by
    dsimp only
    rw [BitVec.ushiftRight_xor_distrib, xor_xor_comm]

/-- The columns from bit `i` on evaluate the map at numbers that stand at bit `i`. -/
theorem combine_columns (hf : XorLinear f) (n i m : ℕ) (hm : m < 2 ^ n) :
    combine (columns f i n) m = (f (BitVec.ofNat w (m * 2 ^ i))).toNat := by
  induction n generalizing i m with
  | zero =>
      have hzero : m = 0 := by simpa using hm
      subst hzero
      simp [columns, combine, hf.map_zero]
  | succ n ih =>
      have hhalf : m / 2 < 2 ^ n := by
        rw [pow_succ] at hm
        omega
      have hbit : (f (BitVec.ofNat w (2 ^ i))).toNat * (m % 2) =
          (f (BitVec.ofNat w (m % 2 * 2 ^ i))).toNat := by
        rcases Nat.mod_two_eq_zero_or_one m with h | h <;> simp [h, hf.map_zero]
      have hword : BitVec.ofNat w (m * 2 ^ i) =
          BitVec.ofNat w (m % 2 * 2 ^ i) ^^^ BitVec.ofNat w (m / 2 * 2 ^ (i + 1)) := by
        rw [shift_eq_xor i m, BitVec.ofNat_xor]
      rw [columns, combine, ih (i + 1) (m / 2) hhalf, hbit, hword, hf, BitVec.toNat_xor]

/-- The columns of a map that respects exclusive or evaluate it. -/
theorem represents_columns (hf : XorLinear f) : Represents (columns f 0 w) f := by
  intro x
  rw [combine_columns hf w 0 x.toNat x.isLt]
  simp

theorem Represents.square {c : List ℕ} (h : Represents c f) : Represents (square c) f^[2] := by
  intro x
  rw [Bits.square, combine_map, h, h]
  rfl

/-- Doubling takes as many steps as asked for. -/
theorem advance_eq {c : List ℕ} (h : Represents c f) (k n : ℕ) (hn : n < 2 ^ k) (x : BitVec w) :
    advance k c n x.toNat = (f^[n] x).toNat := by
  induction k generalizing c f n x with
  | zero =>
      have hzero : n = 0 := by simpa using hn
      subst hzero
      rfl
  | succ k ih =>
      have hhalf : n / 2 < 2 ^ k := by
        rw [pow_succ] at hn
        omega
      have hstep : (if n % 2 = 1 then combine c x.toNat else x.toNat) = (f^[n % 2] x).toNat := by
        rcases Nat.mod_two_eq_zero_or_one n with hbit | hbit
        · simp [hbit]
        · simp [hbit, h x]
      rw [advance, hstep, ih h.square _ hhalf, ← iterate_mul, ← iterate_add_apply,
        Nat.div_add_mod n 2]

end Columns

end RidgeWalker.Bits
