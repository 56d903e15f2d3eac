import RidgeWalker.Dataflow.Plans
import RidgeWalker.Node2vec.Intersection

/-!
# `neighbor_mask`

A unit of the set intersection is a machine with five states.  It holds the neighbour and the
block at hand and polls the stream that it needs next.

Main results:

- Definition `neighborMaskKernel`: the machine.
- Theorem `maskAhead_pursues`: on pairs of lists it answers with `unitWeights`, pair by pair.
- Theorem `maskAhead_waits`: it never waits for a word that does not come.
-/

namespace RidgeWalker.Node2vec

open Dataflow Memory Wrs

/-! ## Words -/

/-- `assert_t`. -/
structure AssertItem where
  lastVertex : BitVec 32
  currVertex : BitVec 32
deriving DecidableEq

/-- The sorts of streams of the set intersection. -/
inductive IneSort where
  | weight
  | adjacent
  | assertion
deriving DecidableEq

/-- The words of every sort. -/
abbrev IneWord : IneSort → Type
  | .weight => AxiPkg WeightItem
  | .adjacent => AxiPkg (BitVec 32)
  | .assertion => AxiPkg AssertItem

/-! ## The machine -/

/-- The streams that `neighbor_mask` reads. -/
inductive MaskIn where
  | currAdjIn
  | lastAdjIn
deriving DecidableEq

instance : Fintype MaskIn := ⟨{.currAdjIn, .lastAdjIn}, fun x => by cases x <;> decide⟩

/-- The sorts of the streams that `neighbor_mask` reads. -/
abbrev MaskIn.sort : MaskIn → IneSort
  | .currAdjIn => .adjacent
  | .lastAdjIn => .weight

/-- `update_state`. -/
inductive UpdateState where
  | readCurr
  | readLastWithCurr
  | endCurr
  | readCurrWithLast
  | endLast
deriving DecidableEq

/-- Registers of `neighbor_mask`.  A word that is to be written is in `out`. -/
structure MaskRegs where
  updateState : UpdateState
  lastAdj : WeightItem
  currAdj : BitVec 32
  finalCurrent : Bool
  out : Option (AxiPkg (BitVec 32))

/-- `COMPARISON`, for the neighbour and the block in the registers. -/
def comparison (r : MaskRegs) : MaskRegs :=
  if compareMask r.lastAdj r.currAdj then
    { r with
      updateState := if r.currAdj = r.lastAdj 15 then .readCurr else .readCurrWithLast
      out := some ⟨neighborSet r.currAdj, false⟩ }
  else if r.currAdj < r.lastAdj 15 then
    { r with updateState := .readCurrWithLast, out := some ⟨neighborUnset r.currAdj, false⟩ }
  else { r with updateState := .readLastWithCurr, out := none }

/-- A neighbour is read when no block is held. -/
def readCurr (r : MaskRegs) (pkg : AxiPkg (BitVec 32)) : MaskRegs :=
  if pkg.last then { r with currAdj := pkg.data, finalCurrent := false, updateState := .endCurr }
  else { r with currAdj := pkg.data, updateState := .readLastWithCurr }

/-- A block is read for the neighbour at hand. -/
def readLastWithCurr (r : MaskRegs) (pkg : AxiPkg WeightItem) : MaskRegs :=
  if pkg.last then
    { r with
      lastAdj := pkg.data
      out := some ⟨neighborOut (compareMask pkg.data r.currAdj) r.currAdj, false⟩
      updateState := .endLast }
  else comparison { r with lastAdj := pkg.data }

/-- A neighbour is read for the block at hand. -/
def readCurrWithLast (r : MaskRegs) (pkg : AxiPkg (BitVec 32)) : MaskRegs :=
  if pkg.last then
    { r with
      currAdj := pkg.data
      finalCurrent := compareMask r.lastAdj pkg.data
      updateState := .endCurr }
  else comparison { r with currAdj := pkg.data }

/-- A neighbour is read after the last block. -/
def endLast (r : MaskRegs) (pkg : AxiPkg (BitVec 32)) : MaskRegs :=
  { r with
    currAdj := pkg.data
    out := some ⟨neighborOut (compareMask r.lastAdj pkg.data) pkg.data, pkg.last⟩
    updateState := if pkg.last then .readCurr else .endLast }

/-- A block is read after the last neighbour. -/
def endCurr (r : MaskRegs) (pkg : AxiPkg WeightItem) : MaskRegs :=
  let mask := compareMask pkg.data r.currAdj
  if pkg.last then
    { r with
      lastAdj := pkg.data
      out := some ⟨neighborOut (r.finalCurrent || mask) r.currAdj, true⟩
      finalCurrent := false
      updateState := .readCurr }
  else { r with lastAdj := pkg.data, finalCurrent := mask }

/-- `neighbor_mask`. -/
def neighborMaskKernel :
    Kernel (fun i : MaskIn => IneWord i.sort) (fun _ : Unit => IneWord .adjacent) where
  σ := MaskRegs
  Ω := Empty
  start := ⟨.readCurr, fun _ => 0, 0, false, none⟩
  op r :=
    match r.out with
    | some pkg => .write () pkg { r with out := none }
    | none =>
        match r.updateState with
        | .readCurr => .readNb .currAdjIn (·.elim r (readCurr r))
        | .readLastWithCurr => .readNb .lastAdjIn (·.elim r (readLastWithCurr r))
        | .readCurrWithLast => .readNb .currAdjIn (·.elim r (readCurrWithLast r))
        | .endLast => .readNb .currAdjIn (·.elim r (endLast r))
        | .endCurr => .readNb .lastAdjIn (·.elim r (endCurr r))

/-- The stream that is polled in a state. -/
def UpdateState.polls : UpdateState → MaskIn
  | .readLastWithCurr => .lastAdjIn
  | .endCurr => .lastAdjIn
  | _ => .currAdjIn

theorem op_polls {r : MaskRegs} (h : r.out = none) :
    ∃ k, neighborMaskKernel.op r = .readNb r.updateState.polls k := by
  obtain ⟨updateState, lastAdj, currAdj, finalCurrent, out⟩ := r
  cases h
  cases updateState <;> exact ⟨_, rfl⟩

/-! ## Pairs of lists -/

/-- The neighbours of a current vertex that a unit looks for, and the blocks of the neighbours of
the previous vertex. -/
structure Lists where
  items : List (BitVec 32)
  blocks : List WeightItem
  items_ne_nil : items ≠ []
  blocks_ne_nil : blocks ≠ []

/-- The stream of neighbours for some pairs. -/
def currStream (pairs : List Lists) : List (AxiPkg (BitVec 32)) :=
  pairs.flatMap fun p => flagged p.items

/-- The stream of blocks for some pairs. -/
def lastStream (pairs : List Lists) : List (AxiPkg WeightItem) :=
  pairs.flatMap fun p => flagged p.blocks

/-- The answers for some pairs. -/
def outStream (pairs : List Lists) : List (AxiPkg (BitVec 32)) :=
  pairs.flatMap fun p => flagged (unitWeights p.items p.blocks)

/-- What a state of the machine has ahead, apart from a word that is to be written: the neighbours
`xs`, the blocks `bs` and the answers `ys`. -/
def StateAhead (r : MaskRegs) (xs : List (AxiPkg (BitVec 32))) (bs : List (AxiPkg WeightItem))
    (ys : List (AxiPkg (BitVec 32))) : Prop :=
  match r.updateState with
  | .readCurr => ∃ pairs, xs = currStream pairs ∧ bs = lastStream pairs ∧ ys = outStream pairs
  | .readLastWithCurr => ∃ items ≠ [], ∃ blocks ≠ [], ∃ pairs,
      xs = flagged items ++ currStream pairs ∧ bs = flagged blocks ++ lastStream pairs ∧
        ys = flagged (unitWeights (r.currAdj :: items) blocks) ++ outStream pairs
  | .readCurrWithLast => ∃ items ≠ [], ∃ blocks ≠ [], ∃ pairs,
      xs = flagged items ++ currStream pairs ∧ bs = flagged blocks ++ lastStream pairs ∧
        ys = flagged (unitWeights items (r.lastAdj :: blocks)) ++ outStream pairs
  | .endLast => ∃ items ≠ [], ∃ pairs, xs = flagged items ++ currStream pairs ∧
      bs = lastStream pairs ∧ ys = flagged (unitWeights items [r.lastAdj]) ++ outStream pairs
  | .endCurr => ∃ blocks ≠ [], ∃ pairs, xs = currStream pairs ∧
      bs = flagged blocks ++ lastStream pairs ∧
        ys = ⟨neighborOut (finalMask r.finalCurrent r.currAdj blocks) r.currAdj, true⟩ ::
          outStream pairs

/-- What the machine has ahead. -/
def maskAhead (r : MaskRegs) (X : ∀ i : MaskIn, List (IneWord i.sort))
    (Y : Unit → List (AxiPkg (BitVec 32))) : Prop :=
  ∃ ys, Y () = r.out.toList ++ ys ∧ StateAhead r (X .currAdjIn) (X .lastAdjIn) ys

/-! ## The machine keeps to its answers -/

/-- The first word of a list in a stream. -/
theorem flagged_uncons {α : Type} {l : List α} (h : l ≠ []) {rest xs : List (AxiPkg α)}
    {pkg : AxiPkg α} (heq : flagged l ++ rest = pkg :: xs) :
    (∃ x, l = [x] ∧ pkg = ⟨x, true⟩ ∧ xs = rest) ∨
      ∃ x l', l' ≠ [] ∧ l = x :: l' ∧ pkg = ⟨x, false⟩ ∧ xs = flagged l' ++ rest := by
  match l with
  | [] => exact absurd rfl h
  | [x] =>
      cases heq
      exact .inl ⟨x, rfl, rfl, rfl⟩
  | x :: y :: l' =>
      cases heq
      exact .inr ⟨x, y :: l', List.cons_ne_nil _ _, rfl, rfl, rfl⟩

/-- The answer to a neighbour that is not the last one. -/
theorem flagged_unitWeights {x : BitVec 32} {items : List (BitVec 32)} (h : items ≠ [])
    (blocks : List WeightItem) :
    flagged (unitWeights (x :: items) blocks) =
      ⟨neighborOut (headMask x (seek x blocks)) x, false⟩ ::
        flagged (unitWeights items (advance x blocks)) := by
  rw [unitWeights_cons h, flagged_cons (unitWeights_ne_nil h _)]

section Answers

variable {r : MaskRegs} {items : List (BitVec 32)} {blocks : List WeightItem}
  {xs ys : List (AxiPkg (BitVec 32))} {bs : List (AxiPkg WeightItem)} {pairs : List Lists}

/-- What a comparison decides, and what is ahead after it. -/
theorem comparison_ahead (hitems : items ≠ []) (hblocks : blocks ≠ [])
    (hxs : xs = flagged items ++ currStream pairs)
    (hbs : bs = flagged blocks ++ lastStream pairs)
    (hys : ys = flagged (unitWeights (r.currAdj :: items) (r.lastAdj :: blocks)) ++
      outStream pairs) :
    ∃ ys', ys = (comparison r).out.toList ++ ys' ∧ StateAhead (comparison r) xs bs ys' := by
  rw [flagged_unitWeights hitems, advance] at hys
  unfold comparison
  by_cases hmask : compareMask r.lastAdj r.currAdj = true
  · -- the neighbour is found, and the block is given up if it ends with it
    rw [seek_stays (by simp [beyond, hmask]), headMask, neighborOut, if_pos hmask] at hys
    rw [if_pos hmask]
    by_cases hlast : r.currAdj = r.lastAdj 15
    · rw [discard_ends hmask hlast hblocks] at hys
      simp only [if_pos hlast]
      exact ⟨_, hys, ⟨items, blocks, hitems, hblocks⟩ :: pairs, hxs, hbs, rfl⟩
    · rw [discard_stays fun _ => hlast] at hys
      simp only [if_neg hlast]
      exact ⟨_, hys, items, hitems, blocks, hblocks, pairs, hxs, hbs, rfl⟩
  · rw [if_neg hmask]
    by_cases hlt : r.currAdj < r.lastAdj 15
    · -- it is in none of the blocks left
      rw [seek_stays (by simp [beyond, hlt]), headMask, neighborOut, if_neg hmask,
        discard_stays fun h => absurd h hmask] at hys
      rw [if_pos hlt]
      exact ⟨_, hys, items, hitems, blocks, hblocks, pairs, hxs, hbs, rfl⟩
    · rw [seek_beyond (by simp [beyond, hmask, hlt]) hblocks] at hys
      rw [if_neg hlt]
      refine ⟨_, rfl, items, hitems, blocks, hblocks, pairs, hxs, hbs, ?_⟩
      rw [hys, flagged_unitWeights hitems, advance]

theorem readCurr_ahead (h : ∃ pairs, xs = currStream pairs ∧ bs = lastStream pairs ∧
      ys = outStream pairs) (hout : r.out = none) {pkg : AxiPkg (BitVec 32)}
    {rest : List (AxiPkg (BitVec 32))} (hxs : xs = pkg :: rest) :
    ∃ ys', ys = (readCurr r pkg).out.toList ++ ys' ∧ StateAhead (readCurr r pkg) rest bs ys' := by
  obtain ⟨pairs, hcurr, hbs, hys⟩ := h
  rcases pairs with _ | ⟨⟨items, blocks, hitems, hblocks⟩, pairs⟩
  · rw [hcurr] at hxs
    cases hxs
  · rcases flagged_uncons hitems (hcurr.symm.trans hxs) with
      ⟨x, rfl, rfl, rfl⟩ | ⟨x, items', hitems', rfl, rfl, rfl⟩
    · refine ⟨ys, ?_, blocks, hblocks, pairs, rfl, hbs, hys⟩
      simp [readCurr, hout]
    · refine ⟨ys, ?_, items', hitems', blocks, hblocks, pairs, rfl, hbs, hys⟩
      simp [readCurr, hout]

theorem readLastWithCurr_ahead (hitems : items ≠ []) (hblocks : blocks ≠ [])
    (hxs : xs = flagged items ++ currStream pairs) (hbs : bs = flagged blocks ++ lastStream pairs)
    (hys : ys = flagged (unitWeights (r.currAdj :: items) blocks) ++ outStream pairs)
    {pkg : AxiPkg WeightItem} {rest : List (AxiPkg WeightItem)} (hpkg : bs = pkg :: rest) :
    ∃ ys', ys = (readLastWithCurr r pkg).out.toList ++ ys' ∧
      StateAhead (readLastWithCurr r pkg) xs rest ys' := by
  rcases flagged_uncons hblocks (hbs.symm.trans hpkg) with
    ⟨b, rfl, rfl, rfl⟩ | ⟨b, blocks', hblocks', rfl, rfl, rfl⟩
  · rw [flagged_unitWeights hitems] at hys
    exact ⟨_, hys, items, hitems, pairs, hxs, rfl, rfl⟩
  · exact comparison_ahead (r := { r with lastAdj := b }) hitems hblocks' hxs rfl hys

theorem readCurrWithLast_ahead (hitems : items ≠ []) (hblocks : blocks ≠ [])
    (hxs : xs = flagged items ++ currStream pairs) (hbs : bs = flagged blocks ++ lastStream pairs)
    (hys : ys = flagged (unitWeights items (r.lastAdj :: blocks)) ++ outStream pairs)
    (hout : r.out = none) {pkg : AxiPkg (BitVec 32)} {rest : List (AxiPkg (BitVec 32))}
    (hpkg : xs = pkg :: rest) :
    ∃ ys', ys = (readCurrWithLast r pkg).out.toList ++ ys' ∧
      StateAhead (readCurrWithLast r pkg) rest bs ys' := by
  rcases flagged_uncons hitems (hxs.symm.trans hpkg) with
    ⟨x, rfl, rfl, rfl⟩ | ⟨x, items', hitems', rfl, rfl, rfl⟩
  · obtain ⟨b, blocks', rfl⟩ := List.exists_cons_of_ne_nil hblocks
    refine ⟨ys, ?_, b :: blocks', hblocks, pairs, rfl, hbs, hys⟩
    simp [readCurrWithLast, hout]
  · exact comparison_ahead (r := { r with currAdj := x }) hitems' hblocks rfl hbs hys

theorem endLast_ahead (hitems : items ≠ []) (hxs : xs = flagged items ++ currStream pairs)
    (hbs : bs = lastStream pairs)
    (hys : ys = flagged (unitWeights items [r.lastAdj]) ++ outStream pairs)
    {pkg : AxiPkg (BitVec 32)} {rest : List (AxiPkg (BitVec 32))} (hpkg : xs = pkg :: rest) :
    ∃ ys', ys = (endLast r pkg).out.toList ++ ys' ∧ StateAhead (endLast r pkg) rest bs ys' := by
  rcases flagged_uncons hitems (hxs.symm.trans hpkg) with
    ⟨x, rfl, rfl, rfl⟩ | ⟨x, items', hitems', rfl, rfl, rfl⟩
  · exact ⟨_, hys, pairs, rfl, hbs, rfl⟩
  · rw [flagged_unitWeights hitems'] at hys
    exact ⟨_, hys, items', hitems', pairs, rfl, hbs, rfl⟩

theorem endCurr_ahead (hstate : r.updateState = .endCurr) (hblocks : blocks ≠ [])
    (hxs : xs = currStream pairs) (hbs : bs = flagged blocks ++ lastStream pairs)
    (hys : ys = ⟨neighborOut (finalMask r.finalCurrent r.currAdj blocks) r.currAdj, true⟩ ::
      outStream pairs) (hout : r.out = none)
    {pkg : AxiPkg WeightItem} {rest : List (AxiPkg WeightItem)} (hpkg : bs = pkg :: rest) :
    ∃ ys', ys = (endCurr r pkg).out.toList ++ ys' ∧ StateAhead (endCurr r pkg) xs rest ys' := by
  obtain ⟨updateState, lastAdj, currAdj, finalCurrent, out⟩ := r
  cases hstate
  cases hout
  rcases flagged_uncons hblocks (hbs.symm.trans hpkg) with
    ⟨b, rfl, rfl, rfl⟩ | ⟨b, blocks', hblocks', rfl, rfl, rfl⟩
  · exact ⟨_, hys, pairs, hxs, rfl, rfl⟩
  · obtain ⟨b', blocks', rfl⟩ := List.exists_cons_of_ne_nil hblocks'
    exact ⟨ys, rfl, b' :: blocks', hblocks', pairs, hxs, rfl, hys⟩

end Answers

/-- Reading a neighbour. -/
theorem reads_currAdj {r : MaskRegs} {next : AxiPkg (BitVec 32) → MaskRegs}
    {X : ∀ i : MaskIn, List (IneWord i.sort)} {Y : Unit → List (AxiPkg (BitVec 32))}
    (h : maskAhead r X Y)
    (hnext : ∀ pkg rest, X .currAdjIn = pkg :: rest → ∃ ys, Y () = (next pkg).out.toList ++ ys ∧
      StateAhead (next pkg) rest (X .lastAdjIn) ys) :
    neighborMaskKernel.Pursues maskAhead X Y (.readNb .currAdjIn (·.elim r next)) :=
  ⟨h, fun pkg rest hpkg => by
    obtain ⟨ys, hys, hahead⟩ := hnext pkg rest hpkg
    exact ⟨ys, hys, hahead⟩⟩

/-- Reading a block. -/
theorem reads_lastAdj {r : MaskRegs} {next : AxiPkg WeightItem → MaskRegs}
    {X : ∀ i : MaskIn, List (IneWord i.sort)} {Y : Unit → List (AxiPkg (BitVec 32))}
    (h : maskAhead r X Y)
    (hnext : ∀ pkg rest, X .lastAdjIn = pkg :: rest → ∃ ys, Y () = (next pkg).out.toList ++ ys ∧
      StateAhead (next pkg) (X .currAdjIn) rest ys) :
    neighborMaskKernel.Pursues maskAhead X Y (.readNb .lastAdjIn (·.elim r next)) :=
  ⟨h, fun pkg rest hpkg => by
    obtain ⟨ys, hys, hahead⟩ := hnext pkg rest hpkg
    exact ⟨ys, hys, hahead⟩⟩

/-- On pairs of lists the machine keeps to its answers. -/
theorem maskAhead_pursues (r : MaskRegs) (X : ∀ i : MaskIn, List (IneWord i.sort))
    (Y : Unit → List (AxiPkg (BitVec 32))) (h : maskAhead r X Y) :
    neighborMaskKernel.Pursues maskAhead X Y (neighborMaskKernel.op r) := by
  obtain ⟨ys, hY, hstate⟩ := h
  obtain ⟨updateState, lastAdj, currAdj, finalCurrent, _ | pkg⟩ := r
  · have hys : Y () = ys := hY
    cases updateState with
    | readCurr =>
        refine reads_currAdj ⟨ys, hY, hstate⟩ fun pkg rest hpkg => ?_
        rw [hys]
        exact readCurr_ahead hstate rfl hpkg
    | readLastWithCurr =>
        refine reads_lastAdj ⟨ys, hY, hstate⟩ fun pkg rest hpkg => ?_
        obtain ⟨items, hitems, blocks, hblocks, pairs, hxs, hbs, hys'⟩ := hstate
        rw [hys]
        exact readLastWithCurr_ahead hitems hblocks hxs hbs hys' hpkg
    | endCurr =>
        refine reads_lastAdj ⟨ys, hY, hstate⟩ fun pkg rest hpkg => ?_
        obtain ⟨blocks, hblocks, pairs, hxs, hbs, hys'⟩ := hstate
        rw [hys]
        exact endCurr_ahead rfl hblocks hxs hbs hys' rfl hpkg
    | readCurrWithLast =>
        refine reads_currAdj ⟨ys, hY, hstate⟩ fun pkg rest hpkg => ?_
        obtain ⟨items, hitems, blocks, hblocks, pairs, hxs, hbs, hys'⟩ := hstate
        rw [hys]
        exact readCurrWithLast_ahead hitems hblocks hxs hbs hys' rfl hpkg
    | endLast =>
        refine reads_currAdj ⟨ys, hY, hstate⟩ fun pkg rest hpkg => ?_
        obtain ⟨items, hitems, pairs, hxs, hbs, hys'⟩ := hstate
        rw [hys]
        exact endLast_ahead hitems hxs hbs hys' hpkg
  · refine ⟨ys, hY, ys, ?_, hstate⟩
    exact Function.update_self _ _ _

/-- The machine never waits for a word that does not come: when nothing is ahead on the stream it
polls, everything has been read and answered. -/
theorem maskAhead_waits {r : MaskRegs} {X : ∀ i : MaskIn, List (IneWord i.sort)}
    {Y : Unit → List (AxiPkg (BitVec 32))} (h : maskAhead r X Y) (hout : r.out = none)
    (hpolls : X r.updateState.polls = []) :
    r.updateState = .readCurr ∧ X .currAdjIn = [] ∧ X .lastAdjIn = [] ∧ Y () = [] := by
  obtain ⟨ys, hY, hstate⟩ := h
  have hflagged : ∀ {α : Type} {l : List α} {rest : List (AxiPkg α)}, l ≠ [] →
      flagged l ++ rest ≠ [] := by
    intro α l rest hl hnil
    have hlength := length_flagged l
    rw [(List.append_eq_nil_iff.mp hnil).1] at hlength
    exact hl (List.length_eq_zero_iff.mp hlength.symm)
  obtain ⟨updateState, lastAdj, currAdj, finalCurrent, out⟩ := r
  cases hout
  cases updateState with
  | readCurr =>
      obtain ⟨pairs, hxs, hbs, hys⟩ := hstate
      rcases pairs with _ | ⟨p, pairs⟩
      · exact ⟨rfl, hxs, hbs, hY.trans hys⟩
      · exact absurd (hxs.symm.trans hpolls) (hflagged p.items_ne_nil)
  | readLastWithCurr =>
      obtain ⟨-, -, blocks, hblocks, pairs, -, hbs, -⟩ := hstate
      exact absurd (hbs.symm.trans hpolls) (hflagged hblocks)
  | endCurr =>
      obtain ⟨blocks, hblocks, pairs, -, hbs, -⟩ := hstate
      exact absurd (hbs.symm.trans hpolls) (hflagged hblocks)
  | readCurrWithLast =>
      obtain ⟨items, hitems, -, -, pairs, hxs, -⟩ := hstate
      exact absurd (hxs.symm.trans hpolls) (hflagged hitems)
  | endLast =>
      obtain ⟨items, hitems, pairs, hxs, -⟩ := hstate
      exact absurd (hxs.symm.trans hpolls) (hflagged hitems)

/-! ## A complete path -/

/-- The streams of the machine for some pairs. -/
def maskStreams (pairs : List Lists) : ∀ i : MaskIn, List (IneWord i.sort)
  | .currAdjIn => currStream pairs
  | .lastAdjIn => lastStream pairs

theorem maskAhead_start (pairs : List Lists) :
    maskAhead neighborMaskKernel.start (maskStreams pairs) fun _ => outStream pairs :=
  ⟨_, rfl, pairs, rfl, rfl, rfl⟩

/-- The machine has read everything and answered it. -/
structure MaskDone (r : MaskRegs) (X R : ∀ i : MaskIn, List (IneWord i.sort))
    (Y S : Unit → List (AxiPkg (BitVec 32))) : Prop where
  updateState : r.updateState = .readCurr
  out : r.out = none
  received : ∀ i, R i = X i
  sent : S () = Y ()

/-- The machine can go on: it writes the word that is to be written or reads the next word of the
stream it polls. -/
theorem exists_local {r : MaskRegs} {X : ∀ i : MaskIn, List (IneWord i.sort)}
    (h : r.out = none → X r.updateState.polls ≠ []) :
    ∃ e r', neighborMaskKernel.Local r e r' ∧
      ((∃ o b, e = .write o b) ∨ ∃ i a rest, e = .read i a ∧ X i = a :: rest) := by
  rcases hout : r.out with _ | pkg
  · obtain ⟨a, rest, ha⟩ := List.exists_cons_of_ne_nil (h hout)
    obtain ⟨k, hop⟩ := op_polls hout
    exact ⟨_, _, Kernel.Local.readNb hop a, .inr ⟨_, a, rest, rfl, ha⟩⟩
  · have hop : neighborMaskKernel.op r = .write () pkg { r with out := none } := by
      simp only [neighborMaskKernel, hout]
    exact ⟨_, _, Kernel.Local.write hop, .inl ⟨(), pkg, rfl⟩⟩

/-- From everywhere on the way the machine can get to the end. -/
theorem exists_maskDone {r : MaskRegs} {X R : ∀ i : MaskIn, List (IneWord i.sort)}
    {Y S : Unit → List (AxiPkg (BitVec 32))} (h : maskAhead r X Y)
    (hp : neighborMaskKernel.Path neighborMaskKernel.start r R S) :
    ∃ r' R' S', neighborMaskKernel.Path neighborMaskKernel.start r' R' S' ∧
      MaskDone r' (fun i => R i ++ X i) R' (fun o => S o ++ Y o) S' := by
  induction hn : (X .currAdjIn).length + (X .lastAdjIn).length + (Y ()).length
    using Nat.strong_induction_on generalizing r X R Y S with
  | _ n ih =>
      by_cases hwaits : r.out = none ∧ X r.updateState.polls = []
      · obtain ⟨hstate, hcurr, hlast, hY⟩ := maskAhead_waits h hwaits.1 hwaits.2
        refine ⟨r, R, S, hp, hstate, hwaits.1, fun i => ?_, by simp [hY]⟩
        cases i <;> simp [hcurr, hlast]
      · obtain ⟨e, r', hl, he⟩ := exists_local (X := X) (not_and.mp hwaits)
        have hread : ∀ i a, e = .read i a → ∃ rest, X i = a :: rest := by
          rintro i a rfl
          obtain ⟨o, b, hwrite⟩ | ⟨i', a', rest, hread, hX⟩ := he
          · cases hwrite
          · cases hread
            exact ⟨rest, hX⟩
        obtain ⟨X', Y', hleaves, hahead⟩ := (maskAhead_pursues r X Y h).local hl hread
        have hX := hleaves.received fun _ => []
        have hY := hleaves.sent fun _ => []
        have hless : (X' .currAdjIn).length + (X' .lastAdjIn).length + (Y' ()).length < n := by
          have hcurr := congrArg List.length (hX .currAdjIn)
          have hlast := congrArg List.length (hX .lastAdjIn)
          have hout := congrArg List.length (hY ())
          obtain ⟨o, b, rfl⟩ | ⟨i, a, rest, rfl, -⟩ := he
          · simp [Event.received, Event.sent] at hcurr hlast hout
            omega
          · cases i <;> simp [Event.received, Event.sent] at hcurr hlast hout <;> omega
        obtain ⟨t, R', S', ht, hdone⟩ := ih _ hless hahead (hp.step hl) rfl
        refine ⟨t, R', S', ht, hdone.updateState, hdone.out, fun i => ?_, ?_⟩
        · rw [hdone.received, hleaves.received R i]
        · rw [hdone.sent, hleaves.sent S ()]

end RidgeWalker.Node2vec
