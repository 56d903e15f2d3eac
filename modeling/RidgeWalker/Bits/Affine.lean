import Mathlib

/-!
# Leapfrogging an affine recurrence

Several steps of an affine map are one step of another affine map.  A sequence is leapfrogged by
`m` generators that start at its first `m` terms and take `m` steps at a time.

Main results:

- Theorem `iterate_affine`: several steps of an affine map, as one.
- Theorem `leapfrog`: the generators in turn yield the sequence.
-/

namespace RidgeWalker.Bits

section Affine

variable {R : Type} [CommSemiring R]

/-- One step of an affine recurrence. -/
def affine (a c x : R) : R := x * a + c

/-- Multiplier and increment of `k` steps. -/
def skip (a c : R) : ℕ → R × R
  | 0 => (1, 0)
  | k + 1 => ((skip a c k).1 * a, (skip a c k).2 * a + c)

/-- Several steps of an affine map are one. -/
theorem iterate_affine (a c : R) (k : ℕ) (x : R) :
    (affine a c)^[k] x = affine (skip a c k).1 (skip a c k).2 x := by
  induction k with
  | zero => simp [skip, affine]
  | succ k ih =>
      rw [Function.iterate_succ_apply', ih]
      simp only [affine, skip]
      ring

end Affine

/-- Generators that start at the first `m` terms of an orbit and take `m` steps at a time: term `n`
of the orbit is term `n / m` of generator `n % m`. -/
theorem leapfrog {A : Type} {f g : A → A} {m : ℕ} {x : A} {y : ℕ → A} (hm : 0 < m)
    (hg : ∀ a, g a = f^[m] a) (hy : ∀ i < m, y i = f^[i] x) (n : ℕ) :
    g^[n / m] (y (n % m)) = f^[n] x := by
  have hiterate : ∀ k, g^[k] = f^[m * k] := fun k => by
    rw [Function.iterate_mul, ← funext hg]
  rw [hiterate, hy _ (Nat.mod_lt n hm), ← Function.iterate_add_apply, Nat.div_add_mod]

end RidgeWalker.Bits
