import Mathlib

/-!
# Buckets

Blocks are appended one after the other, each to a bucket of its own choice.  A block can be
found again at the length that its bucket had when the block was appended.

Main results:

- Theorem `pushAll_getElem?`: a block is found where its bucket ended before it.
- Theorem `length_pushAll_mod`: single words dealt out in turn fill the buckets evenly.
-/

namespace RidgeWalker.Layout

variable {ι α : Type} [DecidableEq ι]

/-- The buckets after a block was appended to one of them. -/
def push (buckets : ι → List α) (i : ι) (block : List α) : ι → List α :=
  Function.update buckets i (buckets i ++ block)

/-- The buckets after the first `n` blocks. -/
def pushAll (slot : ℕ → ι) (block : ℕ → List α) : ℕ → ι → List α
  | 0 => fun _ => []
  | n + 1 => push (pushAll slot block n) (slot n) (block n)

variable (slot : ℕ → ι) (block : ℕ → List α)

/-- A block ends the bucket it is appended to. -/
theorem pushAll_succ_self (n : ℕ) :
    pushAll slot block (n + 1) (slot n) = pushAll slot block n (slot n) ++ block n :=
  Function.update_self ..

/-- Buckets only grow. -/
theorem pushAll_isPrefix {m n : ℕ} (h : m ≤ n) (i : ι) :
    pushAll slot block m i <+: pushAll slot block n i := by
  induction n, h using Nat.le_induction with
  | base => exact List.prefix_rfl
  | succ n _ ih =>
      refine ih.trans ?_
      by_cases hi : i = slot n
      · rw [hi, pushAll_succ_self]
        exact List.prefix_append _ _
      · rw [pushAll, push, Function.update_of_ne hi]

/-- A block is found where its bucket ended before it. -/
theorem pushAll_getElem? {v n k : ℕ} (hv : v < n) (hk : k < (block v).length) :
    (pushAll slot block n (slot v))[(pushAll slot block v (slot v)).length + k]? =
      (block v)[k]? := by
  obtain ⟨rest, hrest⟩ := pushAll_isPrefix slot block (Nat.succ_le_of_lt hv) (slot v)
  rw [← hrest, pushAll_succ_self, List.append_assoc, List.getElem?_append_right (by omega),
    Nat.add_sub_cancel_left, List.getElem?_append_left hk]

/-- The end of a block lies within its bucket. -/
theorem length_pushAll_add_le {v n : ℕ} (hv : v < n) :
    (pushAll slot block v (slot v)).length + (block v).length ≤
      (pushAll slot block n (slot v)).length := by
  have hle := (pushAll_isPrefix slot block (Nat.succ_le_of_lt hv) (slot v)).length_le
  rwa [pushAll_succ_self, List.length_append] at hle

/-- Single words dealt out in turn to `m` buckets fill them evenly. -/
theorem length_pushAll_mod {m p : ℕ} (hp : p < m) (word : ℕ → α) (n : ℕ) :
    (pushAll (· % m) (fun i => [word i]) (n * m + p) p).length = n := by
  have hround : ∀ n r, r ≤ m → (pushAll (· % m) (fun i => [word i]) (n * m + r) p).length =
      (pushAll (· % m) (fun i => [word i]) (n * m) p).length + if p < r then 1 else 0 := by
    intro n r
    induction r with
    | zero => simp
    | succ r ih =>
        intro hr
        have hslot : (n * m + r) % m = r := by
          rw [Nat.mul_add_mod_of_lt hr]
        rw [← Nat.add_assoc, pushAll, push, hslot]
        by_cases hpr : p = r
        · subst hpr
          rw [Function.update_self, List.length_append, ih (by omega)]
          simp
        · rw [Function.update_of_ne hpr, ih (by omega)]
          have hiff : p < r ↔ p < r + 1 := by omega
          simp only [hiff]
  have hrounds : ∀ n, (pushAll (· % m) (fun i => [word i]) (n * m) p).length = n := by
    intro n
    induction n with
    | zero => simp [pushAll]
    | succ n ih => rw [Nat.succ_mul, hround n m le_rfl, if_pos hp, ih]
  rw [hround n p hp.le, hrounds, if_neg (lt_irrefl p), Nat.add_zero]

end RidgeWalker.Layout
