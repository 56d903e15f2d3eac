import RidgeWalker.Bits.Scaling
import RidgeWalker.Layout.Hops

/-!
# The columns that are sampled

`uniform_sample` adds the selected index to the start of a column block.

Main results:

- Theorem `uniformSample_column`: the column address lies in the block of the descriptor.
- Theorem `card_selectedIndex`: every index of a block is selected by equally many random words,
  up to rounding.
-/

namespace RidgeWalker.Layout

open Bits

/-! ## The address -/

/-- For every descriptor whose block is not empty and ends within the 27 bits of an address, and
every random word: the column address lies in the block, and channel and node are those of the
descriptor. -/
theorem uniformSample_column (data : BitVec 128) (rn : BitVec 32)
    (hsize : 1 ≤ (range (range data 0 64) 27 27).toNat)
    (hend : (range (range data 0 64) 0 27).toNat + (range (range data 0 64) 27 27).toNat ≤ 2 ^ 27) :
    let vd := range data 0 64
    let ca := range (uniformSample data rn) 0 40
    ((range vd 0 27).toNat ≤ (range ca 0 27).toNat ∧
        (range ca 0 27).toNat < (range vd 0 27).toNat + (range vd 27 27).toNat) ∧
      range ca 27 5 = range vd 54 5 ∧ range ca 32 5 = range vd 59 5 := by
  have hindex := selectedIndex_lt (Nat.one_le_iff_ne_zero.mp hsize) rn
  obtain ⟨haddr, hchn⟩ := range_columnTask (range data 0 64)
    (selectedIndex (range (range data 0 64) 27 27) rn) (range data 64 64)
  have hcolumn : (range (range (uniformSample data rn) 0 40) 0 27).toNat =
      (range (range data 0 64) 0 27).toNat +
        (selectedIndex (range (range data 0 64) 27 27) rn).toNat := by
    have hstart := (range (range data 0 64) 0 27).isLt
    rw [uniformSample, haddr, BitVec.toNat_setWidth, BitVec.toNat_add, BitVec.toNat_setWidth,
      BitVec.toNat_setWidth]
    omega
  have hfields : ∀ lo len, lo + len ≤ 10 →
      range (range (uniformSample data rn) 0 40) (27 + lo) len =
        range (range data 0 64) (54 + lo) len := by
    intro lo len hle
    rw [← range_range _ hle, ← range_range _ hle, uniformSample, hchn]
  refine ⟨?_, hfields 0 5 (by decide), hfields 5 5 (by decide)⟩
  rw [hcolumn]
  omega

/-- A task whose block is the last two columns that can be addressed. -/
def lastBlock : BitVec 128 :=
  setRange (setRange (0 : BitVec 128) 0 (2 ^ 27 - 2 : BitVec 27)) 27 (2 : BitVec 27)

/-- The largest random word selects a column of that block. -/
theorem uniformSample_column_lastBlock :
    let ca := range (uniformSample lastBlock (-1)) 0 40
    2 ^ 27 - 2 ≤ (range ca 0 27).toNat ∧ (range ca 0 27).toNat < 2 ^ 27 - 2 + 2 :=
  (uniformSample_column lastBlock (-1) (by decide) (by decide)).1

/-! ## The index -/

/-- Where the product is exact, the selected index is its part above `2 ^ 32`. -/
theorem toNat_selectedIndex {degree : BitVec 27} (hdegree : degree.toNat ≤ 2 ^ 21)
    (rn : BitVec 32) :
    (selectedIndex degree rn).toNat = degree.toNat * rn.toNat / 2 ^ 32 := by
  have hrn := rn.isLt
  have hproduct : degree.toNat * rn.toNat < 2 ^ 53 :=
    calc degree.toNat * rn.toNat ≤ 2 ^ 21 * rn.toNat := Nat.mul_le_mul_right _ hdegree
      _ < 2 ^ 53 := by omega
  rw [selectedIndex, toDouble_eq_self (x := degree.toNat) (by omega),
    toDouble_eq_self (x := rn.toNat) (by omega), toDouble_eq_self hproduct, BitVec.toNat_ofNat]
  omega

/-- For every degree up to `2 ^ 21`: each neighbour is selected by `2 ^ 32 / degree` random words,
rounded down or up. -/
theorem card_selectedIndex (degree : BitVec 27) (hpos : 1 ≤ degree.toNat)
    (hdegree : degree.toNat ≤ 2 ^ 21) (k : ℕ) (hk : k < degree.toNat) :
    let words := {r ∈ Finset.range (2 ^ 32) | (selectedIndex degree (.ofNat 32 r)).toNat = k}
    words.card = 2 ^ 32 / degree.toNat ∨ words.card = 2 ^ 32 ⌈/⌉ degree.toNat := by
  have hwords : {r ∈ Finset.range (2 ^ 32) | (selectedIndex degree (.ofNat 32 r)).toNat = k} =
      {r ∈ Finset.range (2 ^ 32) | degree.toNat * r / 2 ^ 32 = k} := by
    apply Finset.filter_congr
    intro r hr
    rw [toNat_selectedIndex hdegree, BitVec.toNat_ofNat, Nat.mod_eq_of_lt (Finset.mem_range.mp hr)]
  simp only [hwords]
  exact card_scaled (by decide) hpos hk

/-- Three neighbours: the second is selected by a third of the words, rounded down or up. -/
theorem card_selectedIndex_three :
    let words := {r ∈ Finset.range (2 ^ 32) | (selectedIndex 3 (.ofNat 32 r)).toNat = 1}
    words.card = 2 ^ 32 / 3 ∨ words.card = 2 ^ 32 ⌈/⌉ 3 :=
  card_selectedIndex 3 (by decide) (by decide) 1 (by decide)

end RidgeWalker.Layout
