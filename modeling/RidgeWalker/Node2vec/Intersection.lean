import RidgeWalker.Memory.Engine
import RidgeWalker.Wrs.Kernels

/-!
# Intersecting two lists

A unit of the set intersection walks through the neighbours of the current vertex on its lanes
and through the blocks of the neighbours of the previous vertex.  It gives up a block as soon as
the neighbour at hand is beyond it.

Main results:

- Definition `unitWeights`: what a unit finds out about its neighbours.
- Theorem `unitWeights_append`: it can stop after any neighbour and go on with what is left of
  the blocks.
-/

namespace RidgeWalker.Node2vec

open Memory Wrs

/-! ## Lists in a stream -/

/-- A list in a stream: the last element carries the `last` flag. -/
def flagged {α : Type} : List α → List (AxiPkg α)
  | [] => []
  | [x] => [⟨x, true⟩]
  | x :: y :: l => ⟨x, false⟩ :: flagged (y :: l)

section Flagged

variable {α : Type}

theorem flagged_cons {x : α} {l : List α} (h : l ≠ []) :
    flagged (x :: l) = ⟨x, false⟩ :: flagged l := by
  cases l with
  | nil => exact absurd rfl h
  | cons y l => rfl

theorem length_flagged (l : List α) : (flagged l).length = l.length := by
  induction l with
  | nil => rfl
  | cons x l ih =>
      cases l with
      | nil => rfl
      | cons y l => simpa [flagged] using ih

theorem map_data_flagged (l : List α) : (flagged l).map AxiPkg.data = l := by
  induction l with
  | nil => rfl
  | cons x l ih =>
      cases l with
      | nil => rfl
      | cons y l => simpa [flagged] using ih

theorem flagged_append {l l' : List α} (h : l' ≠ []) :
    flagged (l ++ l') = l.map (⟨·, false⟩) ++ flagged l' := by
  induction l with
  | nil => rfl
  | cons x l ih =>
      have hne : l ++ l' ≠ [] := by simp [h]
      rw [List.cons_append, flagged_cons hne, ih]
      rfl

end Flagged

/-! ## Lanes -/

/-- The lane `(i << 2) + j` of a line. -/
def laneOf (i j : Fin 4) : Fin numOfWeights := ⟨4 * i + j, show 4 * i.val + j.val < 16 by omega⟩

/-- What a line gives to unit `j`. -/
def column (j : Fin 4) (line : WeightItem) : List (BitVec 32) :=
  (List.finRange 4).map fun i => line (laneOf i j)

/-- What a list of lines gives to unit `j`. -/
def columns (j : Fin 4) (lines : List WeightItem) : List (BitVec 32) := lines.flatMap (column j)

theorem length_columns (j : Fin 4) (lines : List WeightItem) :
    (columns j lines).length = 4 * lines.length := by
  induction lines with
  | nil => rfl
  | cons line lines ih =>
      rw [columns, List.flatMap_cons, List.length_append, ← columns, ih]
      simp [column]
      omega

theorem columns_ne_nil {lines : List WeightItem} (h : lines ≠ []) (j : Fin 4) :
    columns j lines ≠ [] := by
  intro hnil
  have hlength := length_columns j lines
  rw [hnil] at hlength
  exact h (List.length_eq_zero_iff.mp (by simpa using hlength.symm))

/-! ## One unit -/

/-- `UPDATE_COMPARE_MASK`, compared with zero. -/
def compareMask (block : WeightItem) (currAdj : BitVec 32) : Bool := ∃ k, block k = currAdj

/-- `NEIGHBOR_SET`. -/
def neighborSet (currAdj : BitVec 32) : BitVec 32 := if currAdj = 0 then 0 else 2

/-- `NEIGHBOR_UNSET`. -/
def neighborUnset (currAdj : BitVec 32) : BitVec 32 := if currAdj = 0 then 0 else 4

/-- What a unit says of a neighbour. -/
def neighborOut (mask : Bool) (currAdj : BitVec 32) : BitVec 32 :=
  if mask then neighborSet currAdj else neighborUnset currAdj

/-- The neighbour is beyond the block. -/
def beyond (currAdj : BitVec 32) (block : WeightItem) : Bool :=
  !compareMask block currAdj && !decide (currAdj < block 15)

/-- The blocks left when a unit looks for a neighbour: those it is beyond are given up, but not
the last one. -/
def seek (currAdj : BitVec 32) : List WeightItem → List WeightItem
  | b :: b' :: bs => if beyond currAdj b then seek currAdj (b' :: bs) else b :: b' :: bs
  | bs => bs

/-- The blocks left after a unit has found a neighbour: a block that ends with it is given up, but
not the last one. -/
def discard (currAdj : BitVec 32) : List WeightItem → List WeightItem
  | b :: b' :: bs =>
      if compareMask b currAdj && decide (currAdj = b 15) then b' :: bs else b :: b' :: bs
  | bs => bs

/-- The blocks left after one neighbour. -/
def advance (currAdj : BitVec 32) (blocks : List WeightItem) : List WeightItem :=
  discard currAdj (seek currAdj blocks)

/-- The blocks left after some neighbours. -/
def after (items : List (BitVec 32)) (blocks : List WeightItem) : List WeightItem :=
  items.foldl (fun blocks currAdj => advance currAdj blocks) blocks

/-- The neighbour is in the first of some blocks. -/
def headMask (currAdj : BitVec 32) : List WeightItem → Bool
  | b :: _ => compareMask b currAdj
  | [] => false

/-- `final_current` after all blocks are read for the last neighbour: only the last two reads
count. -/
def finalMask (finalCurrent : Bool) (currAdj : BitVec 32) : List WeightItem → Bool
  | [] => finalCurrent
  | [b] => finalCurrent || compareMask b currAdj
  | b :: b' :: bs => finalMask (compareMask b currAdj) currAdj (b' :: bs)

theorem finalMask_singleton (finalCurrent : Bool) (x : BitVec 32) (b : WeightItem) :
    finalMask finalCurrent x [b] = (finalCurrent || compareMask b x) := rfl

theorem finalMask_cons (finalCurrent : Bool) (x : BitVec 32) (b : WeightItem)
    {bs : List WeightItem} (h : bs ≠ []) :
    finalMask finalCurrent x (b :: bs) = finalMask (compareMask b x) x bs := by
  cases bs with
  | nil => exact absurd rfl h
  | cons b' bs => rfl

/-- What a unit finds out about its neighbours. -/
def unitWeights : List (BitVec 32) → List WeightItem → List (BitVec 32)
  | [], _ => []
  | [x], blocks => [neighborOut (finalMask false x blocks) x]
  | x :: y :: items, blocks =>
      neighborOut (headMask x (seek x blocks)) x :: unitWeights (y :: items) (advance x blocks)

theorem unitWeights_cons {x : BitVec 32} {items : List (BitVec 32)} (h : items ≠ [])
    (blocks : List WeightItem) :
    unitWeights (x :: items) blocks =
      neighborOut (headMask x (seek x blocks)) x :: unitWeights items (advance x blocks) := by
  cases items with
  | nil => exact absurd rfl h
  | cons y items => rfl

theorem length_unitWeights (items : List (BitVec 32)) (blocks : List WeightItem) :
    (unitWeights items blocks).length = items.length := by
  induction items generalizing blocks with
  | nil => rfl
  | cons x items ih =>
      cases items with
      | nil => rfl
      | cons y items => simpa [unitWeights] using ih _

theorem unitWeights_ne_nil {items : List (BitVec 32)} (h : items ≠ []) (blocks : List WeightItem) :
    unitWeights items blocks ≠ [] := by
  intro hnil
  have hlength := length_unitWeights items blocks
  rw [hnil] at hlength
  exact h (List.length_eq_zero_iff.mp hlength.symm)

/-! ### One block -/

section Block

variable {x : BitVec 32} {b : WeightItem} {bs : List WeightItem}

theorem seek_beyond (h : beyond x b = true) (hbs : bs ≠ []) : seek x (b :: bs) = seek x bs := by
  obtain ⟨b', bs', rfl⟩ := List.exists_cons_of_ne_nil hbs
  rw [seek, if_pos h]

theorem seek_stays (h : beyond x b = false) : seek x (b :: bs) = b :: bs := by
  cases bs with
  | nil => rfl
  | cons b' bs' => rw [seek, if_neg (by simp [h])]

theorem seek_singleton : seek x [b] = [b] := rfl

theorem discard_ends (hmask : compareMask b x = true) (hx : x = b 15) (hbs : bs ≠ []) :
    discard x (b :: bs) = bs := by
  obtain ⟨b', bs', rfl⟩ := List.exists_cons_of_ne_nil hbs
  rw [discard, if_pos (by simp [hmask, ← hx])]

theorem discard_stays (h : compareMask b x = true → x ≠ b 15) : discard x (b :: bs) = b :: bs := by
  cases bs with
  | nil => rfl
  | cons b' bs' => rw [discard, if_neg (by simpa using h)]

end Block

/-! ### The blocks left -/

section Left

variable {x : BitVec 32} {blocks : List WeightItem}

theorem seek_isSuffix (x : BitVec 32) (blocks : List WeightItem) : seek x blocks <:+ blocks := by
  induction blocks with
  | nil => exact List.suffix_rfl
  | cons b bs ih =>
      cases bs with
      | nil => exact List.suffix_rfl
      | cons b' bs =>
          rw [seek]
          split
          · exact ih.trans (List.suffix_cons _ _)
          · exact List.suffix_rfl

theorem discard_isSuffix (x : BitVec 32) (blocks : List WeightItem) :
    discard x blocks <:+ blocks := by
  unfold discard
  split
  · split
    · exact List.suffix_cons _ _
    · exact List.suffix_rfl
  · exact List.suffix_rfl

theorem advance_isSuffix (x : BitVec 32) (blocks : List WeightItem) :
    advance x blocks <:+ blocks :=
  (discard_isSuffix x _).trans (seek_isSuffix x blocks)

theorem seek_ne_nil (h : blocks ≠ []) : seek x blocks ≠ [] := by
  induction blocks with
  | nil => exact absurd rfl h
  | cons b bs ih =>
      cases bs with
      | nil => exact List.cons_ne_nil _ _
      | cons b' bs =>
          rw [seek]
          split
          · exact ih (List.cons_ne_nil _ _)
          · exact List.cons_ne_nil _ _

theorem discard_ne_nil (h : blocks ≠ []) : discard x blocks ≠ [] := by
  unfold discard
  split
  · split <;> exact List.cons_ne_nil _ _
  · exact h

theorem advance_ne_nil (h : blocks ≠ []) : advance x blocks ≠ [] := discard_ne_nil (seek_ne_nil h)

theorem after_snoc (items : List (BitVec 32)) (x : BitVec 32) (blocks : List WeightItem) :
    after (items ++ [x]) blocks = advance x (after items blocks) := by
  simp [after]

theorem after_append (items items' : List (BitVec 32)) (blocks : List WeightItem) :
    after (items ++ items') blocks = after items' (after items blocks) := by
  simp [after]

theorem after_isSuffix_self (items : List (BitVec 32)) (blocks : List WeightItem) :
    after items blocks <:+ blocks := by
  induction items generalizing blocks with
  | nil => exact List.suffix_rfl
  | cons x items ih => exact (ih _).trans (advance_isSuffix x blocks)

theorem after_ne_nil (items : List (BitVec 32)) (h : blocks ≠ []) : after items blocks ≠ [] := by
  induction items generalizing blocks with
  | nil => exact h
  | cons x items ih => exact ih (advance_ne_nil h)

end Left

/-- A unit can stop after any neighbour and go on with what is left of the blocks. -/
theorem unitWeights_append (items : List (BitVec 32)) {rest : List (BitVec 32)} (h : rest ≠ [])
    (blocks : List WeightItem) :
    ∃ done, done.length = items.length ∧
      unitWeights (items ++ rest) blocks = done ++ unitWeights rest (after items blocks) := by
  induction items generalizing blocks with
  | nil => exact ⟨[], rfl, rfl⟩
  | cons x items ih =>
      obtain ⟨done, hlength, hdone⟩ := ih (advance x blocks)
      have hne : items ++ rest ≠ [] := by simp [h]
      exact ⟨_ :: done, congrArg Nat.succ hlength, by
        rw [List.cons_append, unitWeights_cons hne, hdone]
        rfl⟩

end RidgeWalker.Node2vec
