import RidgeWalker.Wrs.Kernels
import RidgeWalker.Wrs.Reservoir

/-!
# Lines of weights

The sampler takes a weight list in lines of sixteen lanes.  A line is sixteen steps of the
one-pass reservoir, so the composition of the kernels draws the lane that the reservoir draws.

Main results:

- Theorem `line_reservoir`: one line is sixteen steps of the reservoir.
- Theorem `sampled_lists`: the composition of the kernels sends one result for each list.
-/

namespace RidgeWalker.Wrs

open Bits

/-! ## The priority reduction -/

/-- The result of `MSB_OF_4BIT` lies in its group of lanes. -/
theorem msbOf4Bit_range (masks : MaskItem) (start : Fin numOfWeights) (h : 3 ≤ start.val) :
    msbOf4Bit masks start = 0 ∨
      (start.val - 2 ≤ msbOf4Bit masks start ∧ msbOf4Bit masks start ≤ start.val + 1) := by
  unfold msbOf4Bit
  split_ifs <;> omega

/-- The groups of lanes are searched from the highest one down. -/
theorem msbBit_eq (masks : MaskItem) :
    msbBit masks =
      if msbOf4Bit masks 15 ≠ 0 then msbOf4Bit masks 15
      else if msbOf4Bit masks 11 ≠ 0 then msbOf4Bit masks 11
      else if msbOf4Bit masks 7 ≠ 0 then msbOf4Bit masks 7
      else msbOf4Bit masks 3 := by
  have h15 : msbOf4Bit masks 15 = 0 ∨ (13 ≤ msbOf4Bit masks 15 ∧ msbOf4Bit masks 15 ≤ 16) :=
    msbOf4Bit_range masks 15 (by decide)
  have h11 : msbOf4Bit masks 11 = 0 ∨ (9 ≤ msbOf4Bit masks 11 ∧ msbOf4Bit masks 11 ≤ 12) :=
    msbOf4Bit_range masks 11 (by decide)
  have h7 : msbOf4Bit masks 7 = 0 ∨ (5 ≤ msbOf4Bit masks 7 ∧ msbOf4Bit masks 7 ≤ 8) :=
    msbOf4Bit_range masks 7 (by decide)
  have h3 : msbOf4Bit masks 3 = 0 ∨ (1 ≤ msbOf4Bit masks 3 ∧ msbOf4Bit masks 3 ≤ 4) :=
    msbOf4Bit_range masks 3 (by decide)
  unfold msbBit
  generalize msbOf4Bit masks 15 = a at *
  generalize msbOf4Bit masks 11 = b at *
  generalize msbOf4Bit masks 7 = c at *
  generalize msbOf4Bit masks 3 = d at *
  simp only
  split_ifs <;> omega

/-- The choice after a group of lanes. -/
theorem group_select {A : Type} (masks : MaskItem) (f : ℕ → A) (a : A) (start : Fin numOfWeights)
    (h : 3 ≤ start.val) :
    (if masks start then f start.val
      else if masks (start - 1) then f (start.val - 1)
      else if masks (start - 2) then f (start.val - 2)
      else if masks (start - 3) then f (start.val - 3) else a) =
      if msbOf4Bit masks start ≠ 0 then f (msbOf4Bit masks start - 1) else a := by
  have hpos : start.val ≠ 0 ∧ start.val - 1 ≠ 0 ∧ start.val - 2 ≠ 0 := by omega
  unfold msbOf4Bit
  by_cases h0 : masks start
  · simp [h0]
  by_cases h1 : masks (start - 1)
  · simp [h0, h1, hpos.1]
  by_cases h2 : masks (start - 2)
  · simp [h0, h1, h2, hpos.2.1, Nat.sub_sub]
  by_cases h3 : masks (start - 3)
  · simp [h0, h1, h2, h3, hpos.2.2, Nat.sub_sub]
  · simp [h0, h1, h2, h3]

/-- A choice made lane by lane is the choice of the highest lane of the mask. -/
theorem fold_select {A : Type} (masks : MaskItem) (f : ℕ → A) (a : A) :
    (List.finRange numOfWeights).foldl (fun s i => if masks i then f i.val else s) a =
      if msbBit masks ≠ 0 then f (msbBit masks - 1) else a := by
  have hfold : (List.finRange numOfWeights).foldl (fun s i => if masks i then f i.val else s) a =
      if masks 15 then f 15 else if masks 14 then f 14 else if masks 13 then f 13
      else if masks 12 then f 12 else
      if masks 11 then f 11 else if masks 10 then f 10 else if masks 9 then f 9
      else if masks 8 then f 8 else
      if masks 7 then f 7 else if masks 6 then f 6 else if masks 5 then f 5
      else if masks 4 then f 4 else
      if masks 3 then f 3 else if masks 2 then f 2 else if masks 1 then f 1
      else if masks 0 then f 0 else a := rfl
  have h15 : ∀ b, (if masks 15 then f 15 else if masks 14 then f 14 else if masks 13 then f 13
      else if masks 12 then f 12 else b) = _ := fun b => group_select masks f b 15 (by decide)
  have h11 : ∀ b, (if masks 11 then f 11 else if masks 10 then f 10 else if masks 9 then f 9
      else if masks 8 then f 8 else b) = _ := fun b => group_select masks f b 11 (by decide)
  have h7 : ∀ b, (if masks 7 then f 7 else if masks 6 then f 6 else if masks 5 then f 5
      else if masks 4 then f 4 else b) = _ := fun b => group_select masks f b 7 (by decide)
  have h3 : (if masks 3 then f 3 else if masks 2 then f 2 else if masks 1 then f 1
      else if masks 0 then f 0 else a) = _ := group_select masks f a 3 (by decide)
  rw [hfold, h15, h11, h7, h3, msbBit_eq]
  generalize msbOf4Bit masks 15 = m15
  generalize msbOf4Bit masks 11 = m11
  generalize msbOf4Bit masks 7 = m7
  generalize msbOf4Bit masks 3 = m3
  by_cases z15 : m15 = 0
  · by_cases z11 : m11 = 0
    · by_cases z7 : m7 = 0 <;> simp [z15, z11, z7]
    · simp [z15, z11]
  · simp [z15]

/-! ## One line -/

/-- A line of a weight list, with the random words it meets. -/
structure Line where
  sync : BurstSyncPkg
  weights : WeightItem
  random : WeightItem

/-- The lanes of a line. -/
def Line.lane (line : Line) (i : Fin numOfWeights) : Lane where
  addr := line.sync.addr + BitVec.ofNat 32 i.val
  weight := (line.weights i).toNat
  random := line.random i

/-- The lanes of a line in stream order. -/
def Line.lanes (line : Line) : List Lane := List.ofFn line.lane

/-- The sum of the values up to index `i`. -/
def sumUpTo {n : ℕ} (f : Fin n → ℕ) (i : Fin n) : ℕ := ∑ j, if j ≤ i then f j else 0

theorem sumUpTo_zero {n : ℕ} (f : Fin (n + 1) → ℕ) : sumUpTo f 0 = f 0 := by
  rw [sumUpTo, Fin.sum_univ_succ]
  simp

theorem sumUpTo_castSucc {n : ℕ} (f : Fin (n + 1) → ℕ) (i : Fin n) :
    sumUpTo f i.succ = sumUpTo f i.castSucc + f i.succ := by
  have hsplit : ∀ j, (if j ≤ i.succ then f j else 0) =
      (if j ≤ i.castSucc then f j else 0) + if j = i.succ then f j else 0 := by
    intro j
    have hle : j ≤ i.succ ↔ j ≤ i.castSucc ∨ j = i.succ := by
      simp only [Fin.le_def, Fin.ext_iff, Fin.val_succ, Fin.val_castSucc]
      omega
    have hne : j ≤ i.castSucc → j ≠ i.succ := by
      simp only [Fin.le_def, ne_eq, Fin.ext_iff, Fin.val_succ, Fin.val_castSucc]
      omega
    by_cases hj : j ≤ i.castSucc
    · simp [hle, hj, hne hj]
    · simp [hle, hj]
  simp only [sumUpTo, hsplit, Finset.sum_add_distrib, Finset.sum_ite_eq', Finset.mem_univ,
    if_true]

theorem sumUpTo_succ {n : ℕ} (f : Fin (n + 1) → ℕ) (i : Fin n) :
    sumUpTo f i.succ = f 0 + sumUpTo (fun j => f j.succ) i := by
  simp only [sumUpTo, Fin.sum_univ_succ, Fin.zero_le, if_true, Fin.succ_le_succ_iff]

theorem sumUpTo_le {n : ℕ} (f : Fin n → ℕ) (i : Fin n) : sumUpTo f i ≤ ∑ j, f j := by
  apply Finset.sum_le_sum
  intro j _
  split
  · exact le_rfl
  · exact Nat.zero_le _

/-- The loop of `partial_sum` computes inclusive prefix sums. -/
theorem toNat_partialSums (weights : WeightItem) (i : Fin numOfWeights) :
    (partialSums weights i).toNat = sumUpTo (fun j => (weights j).toNat) i % 2 ^ 32 := by
  induction i using Fin.induction with
  | zero =>
      rw [sumUpTo_zero]
      exact (Nat.mod_eq_of_lt (weights 0).isLt).symm
  | succ i ih =>
      have hstep : partialSums weights i.succ =
          partialSums weights i.castSucc + weights i.succ := rfl
      rw [hstep, sumUpTo_castSucc, BitVec.toNat_add, ih, Nat.mod_add_mod]

/-- Running through lanes with a base sum: the last selected lane is chosen. -/
theorem foldl_reservoirStep {n : ℕ} (lane : Fin n → Lane) (base : ℕ) (a : BitVec 32) :
    (List.ofFn lane).foldl reservoirStep (base, a) =
      (base + ∑ j, (lane j).weight,
        (List.finRange n).foldl (fun s i =>
          if (lane i).random.toNat * (base + sumUpTo (fun j => (lane j).weight) i) / 2 ^ 32 <
            (lane i).weight then (lane i).addr else s) a) := by
  induction n generalizing base a with
  | zero => simp
  | succ n ih =>
      rw [List.ofFn_succ, List.foldl_cons, reservoirStep, ih, List.finRange_succ, List.foldl_cons,
        List.foldl_map, Fin.sum_univ_succ, sumUpTo_zero]
      simp only [sumUpTo_succ, add_assoc]

/-- The truncated product of `scale_weight`, when the sum does not overflow. -/
theorem toNat_scaleItem {rngs pwss basev : WeightItem} {i : Fin numOfWeights}
    (h : (pwss i).toNat + (basev i).toNat < 2 ^ 32) :
    (scaleItem rngs pwss basev i).toNat =
      (rngs i).toNat * ((pwss i).toNat + (basev i).toNat) / 2 ^ 32 := by
  have hrng := (rngs i).isLt
  have hsum : (((pwss i).setWidth 33 + (basev i).setWidth 33).setWidth 64).toNat =
      (pwss i).toNat + (basev i).toNat := by
    simp only [BitVec.toNat_setWidth, BitVec.toNat_add]
    omega
  have hprod : (rngs i).toNat * ((pwss i).toNat + (basev i).toNat) < 2 ^ 64 :=
    calc (rngs i).toNat * ((pwss i).toNat + (basev i).toNat)
        < 2 ^ 32 * 2 ^ 32 := Nat.mul_lt_mul'' hrng h
      _ = 2 ^ 64 := by norm_num
  have hrng64 : ((rngs i).setWidth 64).toNat = (rngs i).toNat := by
    rw [BitVec.toNat_setWidth]
    exact Nat.mod_eq_of_lt (by omega)
  rw [scaleItem, toNat_range, BitVec.toNat_mul, hrng64, hsum, Nat.mod_eq_of_lt hprod]
  apply Nat.mod_eq_of_lt
  apply Nat.div_lt_of_lt_mul
  omega

/-- The lanes of a line that `reservoir_mask` marks. -/
def lineMask (base : WeightItem) (line : Line) : MaskItem :=
  maskItem line.weights (scaleItem line.random base (partialSums line.weights))

/-- `reservoir_mask` marks the lanes that are selected. -/
theorem lineMask_iff {base : WeightItem} {t : ℕ} {line : Line} (hbase : ∀ i, (base i).toNat = t)
    (ht : t + ∑ j, (line.lane j).weight < 2 ^ 32) (i : Fin numOfWeights) :
    lineMask base line i = true ↔
      (line.lane i).random.toNat * (t + sumUpTo (fun j => (line.lane j).weight) i) / 2 ^ 32 <
        (line.lane i).weight := by
  have hle := sumUpTo_le (fun j => (line.lane j).weight) i
  have hsum : (partialSums line.weights i).toNat = sumUpTo (fun j => (line.lane j).weight) i := by
    rw [toNat_partialSums]
    exact Nat.mod_eq_of_lt (lt_of_le_of_lt hle (by omega))
  have hscale : (scaleItem line.random base (partialSums line.weights) i).toNat =
      (line.random i).toNat * ((base i).toNat + (partialSums line.weights i).toNat) / 2 ^ 32 :=
    toNat_scaleItem (by rw [hbase, hsum]; omega)
  rw [hbase, hsum] at hscale
  rw [lineMask, maskItem, decide_eq_true_iff, BitVec.lt_def, hscale]
  rfl

/-- One line is sixteen steps of the reservoir. -/
theorem line_reservoir {base : WeightItem} {t : ℕ} {line : Line}
    (hbase : ∀ i, (base i).toNat = t) (ht : t + ∑ j, (line.lane j).weight < 2 ^ 32)
    (selected : BitVec 32) :
    line.lanes.foldl reservoirStep (t, selected) =
      (t + ∑ j, (line.lane j).weight, selectLine selected line.sync (lineMask base line)) := by
  rw [Line.lanes, foldl_reservoirStep]
  congr 1
  calc (List.finRange numOfWeights).foldl _ selected
      = (List.finRange numOfWeights).foldl (fun s i =>
          if lineMask base line i then line.sync.addr + BitVec.ofNat 32 i.val else s) selected := by
        congr 1
        funext s i
        rw [if_congr (lineMask_iff hbase ht i).symm rfl rfl]
        rfl
    _ = selectLine selected line.sync (lineMask base line) :=
        fold_select _ (fun k => line.sync.addr + BitVec.ofNat 32 k) selected

/-- The weight of a line is the last of its prefix sums. -/
theorem toNat_lastLane {line : Line} (h : ∑ j, (line.lane j).weight < 2 ^ 32) :
    (lastLane (partialSums line.weights)).toNat = ∑ j, (line.lane j).weight := by
  have hall : sumUpTo (fun j => (line.weights j).toNat) 15 = ∑ j, (line.lane j).weight := by
    apply Finset.sum_congr rfl
    intro j _
    exact if_pos (Fin.le_last j)
  rw [lastLane, toNat_partialSums, hall]
  exact Nat.mod_eq_of_lt h

theorem total_lanes (line : Line) : total line.lanes = ∑ j, (line.lane j).weight := by
  rw [total, Line.lanes, List.map_ofFn, List.sum_ofFn]
  rfl

/-! ## Weight lists -/

/-- The masks of a sequence of lines, from a base sum on. -/
def masksFrom (base : WeightItem) : List Line → List MaskItem
  | [] => []
  | line :: rest =>
      lineMask base line :: masksFrom (nextBase base line.sync (partialSums line.weights)) rest

/-- What `sample` sends for a sequence of lines, from a base sum and a choice on. -/
def sampledFrom (base : WeightItem) (selected : BitVec 32) (lines : List Line) :
    List NextVertexPkg :=
  samples selected ((lines.map Line.sync).zip (masksFrom base lines))

/-- A weight list: the end bit is on its last line only, and its weight fits into 32 bits. -/
structure WeightList where
  initial : List Line
  final : Line
  initial_ends : ∀ line ∈ initial, line.sync.ends = false
  final_ends : final.sync.ends = true
  total_lt : total ((initial ++ [final]).flatMap Line.lanes) < 2 ^ 32

namespace WeightList

/-- The lines of a weight list. -/
def lines (list : WeightList) : List Line := list.initial ++ [list.final]

/-- The lanes of a weight list in stream order. -/
def lanes (list : WeightList) : List Lane := list.lines.flatMap Line.lanes

/-- The result for a weight list: the address of the lane that is drawn. -/
def result (list : WeightList) : NextVertexPkg := outPkg (drawnAddr list.lanes) list.final.sync

end WeightList

/-- Lines without the end bit carry the weight and the choice on. -/
theorem sampledFrom_initial {lines : List Line} (hends : ∀ line ∈ lines, line.sync.ends = false)
    {base : WeightItem} {t : ℕ} (hbase : ∀ i, (base i).toNat = t)
    (ht : t + total (lines.flatMap Line.lanes) < 2 ^ 32) (selected : BitVec 32)
    (rest : List Line) :
    ∃ base', (∀ i, (base' i).toNat = t + total (lines.flatMap Line.lanes)) ∧
      sampledFrom base selected (lines ++ rest) =
        sampledFrom base'
          ((lines.flatMap Line.lanes).foldl reservoirStep (t, selected)).2 rest := by
  induction lines generalizing base t selected with
  | nil => exact ⟨base, by simpa [total] using hbase, rfl⟩
  | cons line lines ih =>
      rw [List.flatMap_cons, total_append, total_lanes] at ht
      have hline := hends line (List.mem_cons_self ..)
      have hnext : ∀ i, (nextBase base line.sync (partialSums line.weights) i).toNat =
          t + ∑ j, (line.lane j).weight := by
        intro i
        rw [nextBase, hline, if_neg (by decide), BitVec.toNat_add, hbase,
          toNat_lastLane (by omega)]
        exact Nat.mod_eq_of_lt (by omega)
      obtain ⟨base', hbase', hrest⟩ := ih (fun x hx => hends x (List.mem_cons_of_mem _ hx)) hnext
        (by omega) (selectLine selected line.sync (lineMask base line))
      refine ⟨base', fun i => ?_, ?_⟩
      · rw [hbase', List.flatMap_cons, total_append, total_lanes, add_assoc]
      · rw [List.flatMap_cons, List.foldl_append, line_reservoir hbase (by omega), ← hrest]
        simp [sampledFrom, masksFrom, samples, hline, nextSelected]

/-- The composition of the kernels, from the start of a list on, sends the result of the list
and starts over. -/
theorem sampledFrom_list (list : WeightList) (rest : List Line) :
    sampledFrom (fun _ => 0) noIndex (list.lines ++ rest) =
      list.result :: sampledFrom (fun _ => 0) noIndex rest := by
  have hlt := list.total_lt
  rw [List.flatMap_append, total_append, List.flatMap_singleton, total_lanes] at hlt
  have hzero : ∀ i, ((fun _ => 0 : WeightItem) i).toNat = 0 := fun _ => rfl
  obtain ⟨base, hbase, hinitial⟩ := sampledFrom_initial list.initial_ends hzero (by omega)
    noIndex ([list.final] ++ rest)
  have hlanes : list.lanes = list.initial.flatMap Line.lanes ++ list.final.lanes := by
    rw [WeightList.lanes, WeightList.lines, List.flatMap_append, List.flatMap_singleton]
  have hinit := reservoir_eq (list.initial.flatMap Line.lanes)
  have hwhole := reservoir_eq list.lanes
  have hfinal : 0 + total (list.initial.flatMap Line.lanes) +
      ∑ j, (list.final.lane j).weight < 2 ^ 32 := by omega
  have hchoice := line_reservoir hbase hfinal (drawnAddr (list.initial.flatMap Line.lanes))
  have hdrawn : selectLine (drawnAddr (list.initial.flatMap Line.lanes)) list.final.sync
      (lineMask base list.final) = drawnAddr list.lanes := by
    rw [zero_add] at hchoice
    rw [hlanes, List.foldl_append, hinit, hchoice, ← hlanes] at hwhole
    exact congrArg Prod.snd hwhole
  have hstart : ((list.initial.flatMap Line.lanes).foldl reservoirStep (0, noIndex)).2 =
      drawnAddr (list.initial.flatMap Line.lanes) := congrArg Prod.snd hinit
  rw [WeightList.lines, List.append_assoc, hinitial, hstart]
  have hnext : nextBase base list.final.sync (partialSums list.final.weights) = fun _ => 0 := by
    funext i
    rw [nextBase, list.final_ends, if_pos rfl]
  simp only [sampledFrom, List.map_cons, masksFrom, List.zip_cons_cons, samples, list.final_ends,
    if_true, hdrawn, nextSelected, List.cons_append, List.nil_append, hnext]
  rfl

/-- The composition of the kernels sends one result for each list, in order. -/
theorem sampled_lists (lists : List WeightList) :
    sampledFrom (fun _ => 0) noIndex (lists.flatMap WeightList.lines) =
      lists.map WeightList.result := by
  induction lists with
  | nil => rfl
  | cons list lists ih => rw [List.flatMap_cons, sampledFrom_list, ih, List.map_cons]

end RidgeWalker.Wrs
