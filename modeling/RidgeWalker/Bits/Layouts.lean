import Mathlib

/-!
# Values in files

How values of a type stand in a file: as many bytes each, the lowest first.  Arrays are values one
after another, so the `j`-th of them is found without reading the others.

Main results:

- Theorem `wordOf_bytesOf`: a number is read back.
- Theorem `Layout.cell_store`: every value of an array is read back.
- Definition `Layout.prod`: the layout of a structure.
-/

namespace RidgeWalker.Bits

/-- A byte. -/
abbrev Byte : Type := BitVec 8

/-- The `k` lowest bytes of a number, the lowest first. -/
def bytesOf : ℕ → ℕ → List Byte
  | 0, _ => []
  | k + 1, n => .ofNat 8 n :: bytesOf k (n / 256)

/-- The number of some bytes. -/
def wordOf (bytes : List Byte) : ℕ := bytes.foldr (fun b n => b.toNat + 256 * n) 0

@[simp]
theorem length_bytesOf (k n : ℕ) : (bytesOf k n).length = k := by
  induction k generalizing n with
  | zero => rfl
  | succ k ih => rw [bytesOf, List.length_cons, ih]

/-- A number that fits is read back. -/
theorem wordOf_bytesOf {k n : ℕ} (hn : n < 256 ^ k) : wordOf (bytesOf k n) = n := by
  induction k generalizing n with
  | zero =>
      obtain rfl : n = 0 := by simpa using hn
      rfl
  | succ k ih =>
      have hrest : n / 256 < 256 ^ k := by
        rw [pow_succ] at hn
        omega
      have hstep : wordOf (bytesOf (k + 1) n) = n % 256 + 256 * wordOf (bytesOf k (n / 256)) := by
        simp [wordOf, bytesOf]
      rw [hstep, ih hrest]
      omega

/-! ## Layouts -/

/-- How the values of a type stand in a file. -/
structure Layout (A : Type) where
  size : ℕ
  encode : A → List Byte
  decode : List Byte → A
  /-- The values that have room. -/
  Fits : A → Prop
  length_encode : ∀ a, (encode a).length = size
  decode_encode : ∀ a, Fits a → decode (encode a) = a

namespace Layout

/-- Natural numbers of `k` bytes below a bound. -/
def nat (k bound : ℕ) (hbound : bound ≤ 256 ^ k) : Layout ℕ where
  size := k
  encode := bytesOf k
  decode := wordOf
  Fits n := n < bound
  length_encode := length_bytesOf k
  decode_encode _ hn := wordOf_bytesOf (hn.trans_le hbound)

/-- Words. -/
def word (k : ℕ) : Layout (BitVec (8 * k)) where
  size := k
  encode x := bytesOf k x.toNat
  decode bytes := .ofNat _ (wordOf bytes)
  Fits _ := True
  length_encode _ := length_bytesOf k _
  decode_encode x _ := by
    have hx : x.toNat < 256 ^ k := by
      have := x.isLt
      rwa [pow_mul] at this
    rw [wordOf_bytesOf hx, BitVec.ofNat_toNat, BitVec.setWidth_eq]

/-- Integers in two's complement. -/
def int (k : ℕ) : Layout ℤ where
  size := k
  encode z := (word k).encode (.ofInt _ z)
  decode bytes := ((word k).decode bytes).toInt
  Fits z := -2 ^ (8 * k) ≤ 2 * z ∧ 2 * z < 2 ^ (8 * k)
  length_encode _ := (word k).length_encode _
  decode_encode z hz := by
    rw [(word k).decode_encode _ trivial, BitVec.toInt_ofInt]
    refine Int.bmod_eq_of_le_mul_two ?_ ?_ <;> push_cast <;> linarith [hz.1, hz.2]

variable {A B : Type}

/-- A pair: one value after the other. -/
def prod (L : Layout A) (M : Layout B) : Layout (A × B) where
  size := L.size + M.size
  encode x := L.encode x.1 ++ M.encode x.2
  decode bytes := (L.decode (bytes.take L.size), M.decode (bytes.drop L.size))
  Fits x := L.Fits x.1 ∧ M.Fits x.2
  length_encode x := by rw [List.length_append, L.length_encode, M.length_encode]
  decode_encode x hx := by
    rw [← L.length_encode x.1, List.take_left, List.drop_left, L.decode_encode _ hx.1,
      M.decode_encode _ hx.2]

/-- A structure whose fields stand as those of another type. -/
def via (L : Layout B) (f : A → B) (g : B → A) (hg : ∀ a, g (f a) = a) : Layout A where
  size := L.size
  encode a := L.encode (f a)
  decode bytes := g (L.decode bytes)
  Fits a := L.Fits (f a)
  length_encode a := L.length_encode (f a)
  decode_encode a ha := by rw [L.decode_encode _ ha, hg]

/-! ## Arrays -/

variable (L : Layout A)

/-- The first `n` values of an array. -/
def store (f : ℕ → A) (n : ℕ) : List Byte := (List.range n).flatMap fun i => L.encode (f i)

/-- The `j`-th value of a file. -/
def cell (file : List Byte) (j : ℕ) : A := L.decode ((file.drop (L.size * j)).take L.size)

theorem store_succ (f : ℕ → A) (n : ℕ) : L.store f (n + 1) = L.store f n ++ L.encode (f n) := by
  rw [store, List.range_succ, List.flatMap_append, List.flatMap_singleton]
  rfl

@[simp]
theorem length_store (f : ℕ → A) (n : ℕ) : (L.store f n).length = L.size * n := by
  induction n with
  | zero => rfl
  | succ n ih => rw [store_succ, List.length_append, ih, L.length_encode, Nat.mul_succ]

/-- Every value of an array is read back, whatever follows it. -/
theorem cell_store {f : ℕ → A} {n j : ℕ} (hj : j < n) (hfits : L.Fits (f j)) (rest : List Byte) :
    L.cell (L.store f n ++ rest) j = f j := by
  induction n generalizing rest with
  | zero => cases hj
  | succ n ih =>
      rw [store_succ, List.append_assoc]
      rcases Nat.lt_succ_iff_lt_or_eq.mp hj with hj | rfl
      · exact ih hj _
      · rw [cell, ← L.length_store f j, List.drop_left, ← L.length_encode (f j), List.take_left,
          L.decode_encode _ hfits]

end Layout

end RidgeWalker.Bits
