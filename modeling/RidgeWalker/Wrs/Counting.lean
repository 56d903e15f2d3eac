import RidgeWalker.Wrs.Lines
import RidgeWalker.Bits.Scaling

/-!
# Counting the random words that select a lane

Before its random words are drawn, a weight list is a table of lines.  Every lane meets a random
word of its own, and whether a lane is accepted depends on that word only.  So the vectors of
random words for which a lane is the final selection are counted by a product.

Main results:

- Theorem `marks_iff`: `reservoir_mask` marks a lane exactly if it takes the place of the choices
  before it.
- Theorem `selected_eq`: the lane that `sample` selects is the lane the reservoir draws.
- Theorem `reservoir_counts`: the numbers of words, and of vectors of words, for a lane.
-/

namespace RidgeWalker.Wrs

open Bits

/-! ## The lane that is drawn, lane by lane -/

/-- The last element of a filtered list, as a loop. -/
theorem getLast?_filter {A : Type} (p : A → Bool) (l : List A) :
    (l.filter p).getLast? = l.foldl (fun s x => if p x then some x else s) none := by
  induction l using List.reverseRecOn with
  | nil => rfl
  | append_singleton l x ih =>
      rw [List.filter_append, List.foldl_append, ← ih, List.foldl_cons, List.foldl_nil]
      by_cases hx : p x
      · simp [hx]
      · simp [hx]

/-- A lane is drawn exactly if it is selected and no later lane is. -/
theorem drawn_eq_some_iff {lanes : List Lane} {i : ℕ} (hi : i < lanes.length) :
    drawn lanes = some i ↔
      Selects lanes i ∧ ∀ j, i < j → j < lanes.length → ¬Selects lanes j := by
  induction lanes using List.reverseRecOn with
  | nil => simp at hi
  | append_singleton lanes x ih =>
      rw [drawn_snoc]
      have hlast := selects_snoc lanes x
      rw [List.length_append, List.length_singleton] at hi ⊢
      rcases Nat.lt_succ_iff_lt_or_eq.mp hi with hlt | rfl
      · -- an earlier lane is drawn if the new one is not selected
        rw [selects_append hlt]
        have hlater : (∀ j, i < j → j < lanes.length + 1 → ¬Selects (lanes ++ [x]) j) ↔
            (∀ j, i < j → j < lanes.length → ¬Selects lanes j) ∧
              ¬Selects (lanes ++ [x]) lanes.length := by
          constructor
          · intro h
            refine ⟨fun j hij hj => ?_, h lanes.length hlt (Nat.lt_succ_self _)⟩
            rw [← selects_append hj [x]]
            exact h j hij (Nat.lt_succ_of_lt hj)
          · rintro ⟨hbefore, hnew⟩ j hij hj
            rcases Nat.lt_succ_iff_lt_or_eq.mp hj with hj | rfl
            · rw [selects_append hj]
              exact hbefore j hij hj
            · exact hnew
        rw [hlater, hlast, ← and_assoc, ← ih hlt]
        by_cases hx : x.random.toNat * (total lanes + x.weight) / 2 ^ 32 < x.weight
        · rw [if_pos hx]
          simp only [hx, not_true_eq_false, and_false, iff_false, Option.some.injEq]
          omega
        · rw [if_neg hx]
          simp only [hx, not_false_eq_true, and_true]
      · rw [hlast]
        by_cases hx : x.random.toNat * (total lanes + x.weight) / 2 ^ 32 < x.weight
        · rw [if_pos hx]
          simp only [hx, true_and, true_iff]
          intro j hij hj
          omega
        · rw [if_neg hx]
          simp only [hx, false_and, iff_false]
          intro hdrawn
          exact absurd (drawn_lt hdrawn) (lt_irrefl _)

/-- More lanes, as a loop over them. -/
theorem drawn_append (before after : List Lane) :
    drawn (before ++ after) = (List.range after.length).foldl (fun s k =>
      if Selects (before ++ after) (before.length + k) then some (before.length + k) else s)
        (drawn before) := by
  have hbefore : (List.range before.length).foldl
      (fun s i => if Selects (before ++ after) i then some i else s) none = drawn before := by
    rw [drawn, getLast?_filter]
    apply List.foldl_ext
    intro s i hi
    have hsame := selects_append (List.mem_range.mp hi) after
    simp only [hsame, decide_eq_true_eq]
  rw [drawn, getLast?_filter, List.length_append, List.range_add, List.foldl_append, List.foldl_map]
  simp only [decide_eq_true_eq]
  rw [hbefore]

/-- The weight of the first lanes. -/
theorem total_take_ofFn {n : ℕ} (lane : Fin n → Lane) (i : Fin n) :
    total ((List.ofFn lane).take (i.val + 1)) = sumUpTo (fun j => (lane j).weight) i := by
  induction n with
  | zero => exact i.elim0
  | succ n ih =>
      rw [List.ofFn_succ, List.take_succ_cons]
      refine Fin.cases ?_ (fun i => ?_) i
      · rw [sumUpTo_zero]
        simp [total]
      · rw [sumUpTo_succ, ← ih (fun j => lane j.succ) i]
        simp [total]

/-! ## Marks and selections of a list of lines -/

@[simp] theorem length_lanes (line : Line) : line.lanes.length = numOfWeights := by
  simp [Line.lanes]

/-- A lane after others, with the weight before it as the base sum. -/
theorem selects_line {before : List Lane} {line : Line} {base : WeightItem}
    (hbase : ∀ i, (base i).toNat = total before)
    (ht : total before + total line.lanes < 2 ^ 32) (k : Fin numOfWeights) :
    Selects (before ++ line.lanes) (before.length + k) ↔ lineMask base line k = true := by
  have hprefix : prefixSum (before ++ line.lanes) (before.length + k) =
      total before + sumUpTo (fun j => (line.lane j).weight) k := by
    rw [prefixSum, Nat.add_assoc, List.take_length_add_append, total_append, Line.lanes,
      total_take_ofFn]
  have hlane : (before ++ line.lanes)[before.length + k.val]? = some (line.lane k) := by
    rw [List.getElem?_append_right (Nat.le_add_right _ _), Nat.add_sub_cancel_left, Line.lanes,
      List.getElem?_ofFn, dif_pos k.isLt]
  rw [total_lanes] at ht
  rw [lineMask_iff hbase ht, Selects, hprefix, hlane]
  simp

/-- The base sum after a line that is not the last one. -/
theorem toNat_nextBase {before : List Lane} {line : Line} {base : WeightItem}
    (hends : line.sync.ends = false) (hbase : ∀ i, (base i).toNat = total before)
    (ht : total before + total line.lanes < 2 ^ 32) (i : Fin numOfWeights) :
    (nextBase base line.sync (partialSums line.weights) i).toNat =
      total (before ++ line.lanes) := by
  rw [total_lanes] at ht
  rw [nextBase, hends, if_neg (by decide), BitVec.toNat_add, hbase, toNat_lastLane (by omega),
    total_append, total_lanes]
  exact Nat.mod_eq_of_lt ht

/-- The end bit is on no line but the last. -/
def EndsLast (lines : List Line) : Prop := ∀ line ∈ lines.dropLast, line.sync.ends = false

theorem EndsLast.head {line next : Line} {lines : List Line}
    (h : EndsLast (line :: next :: lines)) : line.sync.ends = false := h line (by simp)

theorem EndsLast.tail {line : Line} {lines : List Line} (h : EndsLast (line :: lines)) :
    EndsLast lines := by
  intro other hother
  cases lines with
  | nil => simp at hother
  | cons next lines => exact h other (List.mem_cons_of_mem _ hother)

/-- `reservoir_mask` marks a lane exactly if it takes the place of the choices before it. -/
theorem marks_iff {lines : List Line} (hends : EndsLast lines) {before : List Lane}
    {base : WeightItem} (hbase : ∀ i, (base i).toNat = total before)
    (ht : total (before ++ lines.flatMap Line.lanes) < 2 ^ 32) {l : ℕ} (hl : l < lines.length)
    (k : Fin numOfWeights) :
    (∃ masks ∈ (masksFrom base lines)[l]?, masks k = true) ↔
      Selects (before ++ lines.flatMap Line.lanes) (before.length + (numOfWeights * l + k)) := by
  induction lines generalizing before base l with
  | nil => simp at hl
  | cons line lines ih =>
      rw [List.flatMap_cons, ← List.append_assoc] at ht ⊢
      have hline : total before + total line.lanes < 2 ^ 32 := by
        rw [total_append, total_append] at ht
        omega
      rw [masksFrom]
      cases l with
      | zero =>
          rw [List.getElem?_cons_zero, Nat.mul_zero, Nat.zero_add, selects_append (by simp),
            selects_line hbase hline]
          simp
      | succ l =>
          -- lines after the first one meet the weight of the first one
          obtain ⟨next, rest, rfl⟩ : ∃ next rest, lines = next :: rest := by
            cases lines with
            | nil => simp at hl
            | cons next rest => exact ⟨next, rest, rfl⟩
          have hnext := toNat_nextBase hends.head hbase hline
          have hnumber : before.length + (numOfWeights * (l + 1) + k) =
              (before ++ line.lanes).length + (numOfWeights * l + k) := by
            rw [List.length_append, length_lanes, Nat.mul_add_one]
            omega
          rw [List.getElem?_cons_succ, hnumber]
          exact ih hends.tail hnext ht (Nat.lt_of_succ_lt_succ hl)

/-- The number of the lane whose address `selected_index` holds: the priority reduction of
`sample` over the masks of the lines from number `n` on. -/
def selectedFrom (n : ℕ) (selected : Option ℕ) : List MaskItem → Option ℕ
  | [] => selected
  | masks :: rest =>
      selectedFrom (n + 1)
        (if msbBit masks ≠ 0 then some (numOfWeights * n + (msbBit masks - 1)) else selected) rest

/-- One line selects the last of its lanes that is drawn. -/
theorem drawn_line {before : List Lane} {line : Line} {base : WeightItem}
    (hbase : ∀ i, (base i).toNat = total before)
    (ht : total before + total line.lanes < 2 ^ 32) :
    drawn (before ++ line.lanes) =
      if msbBit (lineMask base line) ≠ 0 then
        some (before.length + (msbBit (lineMask base line) - 1)) else drawn before := by
  rw [drawn_append, length_lanes, ← fold_select _ (fun k => some (before.length + k)),
    ← List.map_coe_finRange_eq_range, List.foldl_map]
  congr 1
  funext s k
  exact if_congr (selects_line hbase ht k) rfl rfl

/-- The lane that `sample` selects is the lane the reservoir draws. -/
theorem selected_eq {lines : List Line} (hends : EndsLast lines) {before : List Lane}
    {base : WeightItem} {n : ℕ} (hn : before.length = numOfWeights * n)
    (hbase : ∀ i, (base i).toNat = total before)
    (ht : total (before ++ lines.flatMap Line.lanes) < 2 ^ 32) :
    selectedFrom n (drawn before) (masksFrom base lines) =
      drawn (before ++ lines.flatMap Line.lanes) := by
  induction lines generalizing before base n with
  | nil => simp [masksFrom, selectedFrom]
  | cons line lines ih =>
      rw [List.flatMap_cons, ← List.append_assoc] at ht ⊢
      have hline : total before + total line.lanes < 2 ^ 32 := by
        rw [total_append, total_append] at ht
        omega
      rw [masksFrom, selectedFrom, ← hn, ← drawn_line hbase hline]
      cases lines with
      | nil => simp [masksFrom, selectedFrom]
      | cons next rest =>
          have hlength : (before ++ line.lanes).length = numOfWeights * (n + 1) := by
            rw [List.length_append, length_lanes, Nat.mul_add_one]
            omega
          exact ih hends.tail hlength (toNat_nextBase hends.head hbase hline) ht

/-! ## Weight tables -/

/-- A weight list before its random words are drawn: the end bit is on its last line only, and
its weight fits into 32 bits. -/
structure WeightTable where
  lines : List (BurstSyncPkg × WeightItem)
  ne_nil : lines ≠ []
  ends_iff : ∀ l : Fin lines.length, (lines.get l).1.ends = true ↔ l.val + 1 = lines.length
  total_lt : ∑ i : Fin (lines.length * numOfWeights),
    ((lines.get i.divNat).2 i.modNat).toNat < 2 ^ 32

namespace WeightTable

variable (table : WeightTable)

/-- The lanes of a table, numbered in stream order. -/
abbrev Index : Type := Fin (table.lines.length * numOfWeights)

/-- The address of a lane. -/
def addr (i : table.Index) : BitVec 32 :=
  (table.lines.get i.divNat).1.addr + BitVec.ofNat 32 i.modNat

/-- The weight of a lane. -/
def weight (i : table.Index) : ℕ := ((table.lines.get i.divNat).2 i.modNat).toNat

/-- The inclusive prefix sum up to a lane. -/
def weightUpTo (i : table.Index) : ℕ := ∑ j, if j ≤ i then table.weight j else 0

/-- The number of random words for which a lane is accepted. -/
def acceptCount (i : table.Index) : ℕ := (table.weight i * 2 ^ 32) ⌈/⌉ table.weightUpTo i

/-- The synchronisation package of the last line. -/
def finalSync : BurstSyncPkg := (table.lines.getLast table.ne_nil).1

/-- A line with the random words of its lanes. -/
def drawLine (r : table.Index → BitVec 32) (l : Fin table.lines.length) : Line where
  sync := (table.lines.get l).1
  weights := (table.lines.get l).2
  random := fun k => r (Fin.mkDivMod l k)

/-- The lines of a table with a vector of random words. -/
def drawLines (r : table.Index → BitVec 32) : List Line := List.ofFn (table.drawLine r)

/-- The masks of `reservoir_mask` for a table and a vector of random words. -/
def masks (r : table.Index → BitVec 32) : List MaskItem :=
  masksFrom (fun _ => 0) (table.drawLines r)

/-- `reservoir_mask` sets the bit of a lane. -/
def Accepts (r : table.Index → BitVec 32) (i : table.Index) : Prop :=
  ∃ masks ∈ (table.masks r)[i.divNat.val]?, masks i.modNat = true

/-- The number of the lane that is the final selection of `sample`. -/
def selected (r : table.Index → BitVec 32) : Option ℕ := selectedFrom 0 none (table.masks r)

/-! ## The lanes of a table -/

/-- A lane with its random word. -/
def lane (r : table.Index → BitVec 32) (i : table.Index) : Lane where
  addr := table.addr i
  weight := table.weight i
  random := r i

theorem drawLines_lanes (r : table.Index → BitVec 32) :
    (table.drawLines r).flatMap Line.lanes = List.ofFn (table.lane r) := by
  rw [drawLines, List.flatMap_def, List.map_ofFn, List.ofFn_mul]
  congr 2
  funext l
  change List.ofFn _ = _
  congr 1
  funext k
  have hindex : ∀ i : table.Index, i.val = l.val * numOfWeights + k.val →
      table.lane r i = (table.drawLine r l).lane k := by
    intro i hi
    obtain rfl : i = Fin.mkDivMod l k :=
      Fin.ext (hi.trans (congrArg (· + k.val) (Nat.mul_comm _ _)))
    rw [lane, addr, weight, Fin.divNat_mkDivMod, Fin.modNat_mkDivMod]
    rfl
  exact (hindex _ rfl).symm

theorem total_drawLines (r : table.Index → BitVec 32) :
    total ((table.drawLines r).flatMap Line.lanes) < 2 ^ 32 := by
  rw [drawLines_lanes, total, List.map_ofFn, List.sum_ofFn]
  exact table.total_lt

theorem endsLast_drawLines (r : table.Index → BitVec 32) : EndsLast (table.drawLines r) := by
  intro line hline
  obtain ⟨l, hl, rfl⟩ := List.getElem_of_mem hline
  have hlt : l < table.lines.length - 1 := by
    rw [List.length_dropLast, drawLines, List.length_ofFn] at hl
    exact hl
  have hends := table.ends_iff ⟨l, by omega⟩
  rw [List.getElem_dropLast]
  simp only [drawLines, List.getElem_ofFn, drawLine]
  rw [← Bool.not_eq_true, hends]
  change ¬l + 1 = table.lines.length
  omega

/-- Whether a lane is selected depends on its own random word. -/
theorem selects_iff (r : table.Index → BitVec 32) (i : table.Index) :
    Selects (List.ofFn (table.lane r)) i ↔
      table.weightUpTo i * (r i).toNat / 2 ^ 32 < table.weight i := by
  have hprefix : prefixSum (List.ofFn (table.lane r)) i = table.weightUpTo i := by
    rw [prefixSum, total_take_ofFn]
    rfl
  rw [Selects, hprefix, List.getElem?_ofFn, dif_pos i.isLt]
  simp [lane, Nat.mul_comm]

/-- `reservoir_mask` accepts a lane by its own random word. -/
theorem accepts_iff (r : table.Index → BitVec 32) (i : table.Index) :
    table.Accepts r i ↔ table.weightUpTo i * (r i).toNat / 2 ^ 32 < table.weight i := by
  have hl : i.divNat.val < (table.drawLines r).length := by
    rw [drawLines, List.length_ofFn]
    exact i.divNat.isLt
  have hzero : ∀ i, ((fun _ => 0 : WeightItem) i).toNat = total [] := fun _ => rfl
  have hmarks := marks_iff (table.endsLast_drawLines r) hzero (table.total_drawLines r) hl i.modNat
  have hnumber : numOfWeights * i.divNat.val + i.modNat.val = i.val :=
    congrArg Fin.val (Fin.divNat_mkDivMod_modNat i)
  rw [List.nil_append, List.length_nil, Nat.zero_add, hnumber, drawLines_lanes, selects_iff]
    at hmarks
  exact hmarks

theorem selected_eq_drawn (r : table.Index → BitVec 32) :
    table.selected r = drawn (List.ofFn (table.lane r)) := by
  have hzero : ∀ i, ((fun _ => 0 : WeightItem) i).toNat = total [] := fun _ => rfl
  have hstart : ([] : List Lane).length = numOfWeights * 0 := rfl
  rw [← drawLines_lanes]
  exact selected_eq (table.endsLast_drawLines r) hstart hzero (table.total_drawLines r)

/-- The final selection is the last lane that is accepted. -/
theorem selected_eq_some_iff (r : table.Index → BitVec 32) (i : table.Index) :
    table.selected r = some i.val ↔
      table.Accepts r i ∧ ∀ j, i < j → ¬table.Accepts r j := by
  rw [selected_eq_drawn, drawn_eq_some_iff (by simp), selects_iff, accepts_iff]
  apply and_congr_right
  intro _
  constructor
  · intro h j hij
    rw [accepts_iff, ← selects_iff]
    exact h j hij (by simp)
  · intro h j hij hj
    rw [List.length_ofFn] at hj
    have hlater := h ⟨j, hj⟩ hij
    rw [accepts_iff, ← selects_iff] at hlater
    exact hlater

theorem weight_le (i : table.Index) : table.weight i ≤ table.weightUpTo i := by
  have hle : (if i ≤ i then table.weight i else 0) ≤ table.weightUpTo i :=
    Finset.single_le_sum (f := fun j => if j ≤ i then table.weight j else 0)
      (fun _ _ => Nat.zero_le _) (Finset.mem_univ i)
  rwa [if_pos le_rfl] at hle

/-- The package that `sample` sends for a table holds the address of the final selection. -/
theorem sampledFrom_drawLines (r : table.Index → BitVec 32) (i : table.Index)
    (hi : table.selected r = some i.val) :
    sampledFrom (fun _ => 0) noIndex (table.drawLines r) =
      [outPkg (table.addr i) table.finalSync] := by
  have hne : table.drawLines r ≠ [] := by
    rw [drawLines, ne_eq, List.ofFn_eq_nil_iff, List.length_eq_zero_iff]
    exact table.ne_nil
  have hsplit := List.dropLast_append_getLast hne
  have hlast : (table.drawLines r).getLast hne =
      table.drawLine r ⟨table.lines.length - 1, by
        have hpos := List.length_pos_iff.mpr table.ne_nil
        omega⟩ := by
    simp only [drawLines, List.getLast_eq_getElem, List.getElem_ofFn, List.length_ofFn]
  have hsync : ((table.drawLines r).getLast hne).sync = table.finalSync := by
    rw [hlast, finalSync, List.getLast_eq_getElem]
    rfl
  have hends : ((table.drawLines r).getLast hne).sync.ends = true := by
    have hpos := List.length_pos_iff.mpr table.ne_nil
    rw [hlast, drawLine, table.ends_iff]
    change table.lines.length - 1 + 1 = table.lines.length
    omega
  let list : WeightList :=
    { initial := (table.drawLines r).dropLast
      final := (table.drawLines r).getLast hne
      initial_ends := table.endsLast_drawLines r
      final_ends := hends
      total_lt := by
        rw [hsplit]
        exact table.total_drawLines r }
  have hlines : list.lines = table.drawLines r := hsplit
  have hlanes : list.lanes = List.ofFn (table.lane r) := by
    rw [WeightList.lanes, hlines, drawLines_lanes]
  have hsampled := sampled_lists [list]
  have hdrawn : drawnAddr list.lanes = table.addr i := by
    rw [hlanes, drawnAddr, ← selected_eq_drawn, hi]
    simp [lane]
  rw [List.flatMap_singleton, hlines, List.map_singleton, WeightList.result, hdrawn] at hsampled
  rw [hsampled, ← hsync]

/-- The number of random words for which lane `j` goes with lane `i` as the final selection. -/
def countFor (i j : table.Index) : ℕ :=
  if j < i then 2 ^ 32
  else if j = i then table.acceptCount i
  else if table.weight j = 0 then 2 ^ 32
  else 2 ^ 32 - table.acceptCount j

/-- What lane `j` contributes to the final selection of lane `i`. -/
def GoesWith (i j : table.Index) (word : BitVec 32) : Prop :=
  (j = i → table.weightUpTo j * word.toNat / 2 ^ 32 < table.weight j) ∧
    (i < j → ¬table.weightUpTo j * word.toNat / 2 ^ 32 < table.weight j)

theorem selected_eq_some_iff_forall (r : table.Index → BitVec 32) (i : table.Index) :
    table.selected r = some i.val ↔ ∀ j, table.GoesWith i j (r j) := by
  rw [selected_eq_some_iff]
  simp only [accepts_iff]
  constructor
  · rintro ⟨haccept, hlater⟩ j
    refine ⟨?_, hlater j⟩
    rintro rfl
    exact haccept
  · intro h
    exact ⟨(h i).1 rfl, fun j hij => (h j).2 hij⟩

/-- The words of one lane, counted. -/
theorem card_goesWith (i j : table.Index) :
    Nat.card {word // table.GoesWith i j word} = table.countFor i j := by
  have hcount : 0 < table.weight j →
      Nat.card {word : BitVec 32 // table.weightUpTo j * word.toNat / 2 ^ 32 < table.weight j} =
          table.acceptCount j ∧
        Nat.card {word : BitVec 32 // ¬table.weightUpTo j * word.toNat / 2 ^ 32 < table.weight j} =
          2 ^ 32 - table.acceptCount j := by
    intro hpos
    exact card_scaled_lt (hpos.trans_le (table.weight_le j)) (table.weight_le j)
  rw [countFor]
  rcases lt_trichotomy j i with hlt | rfl | hgt
  · rw [if_pos hlt, ← card_words 32]
    apply Nat.card_congr
    refine Equiv.subtypeUnivEquiv fun word => ⟨fun h => absurd h hlt.ne, fun h => ?_⟩
    exact absurd (h.trans hlt) (lt_irrefl _)
  · rw [if_neg (lt_irrefl _), if_pos rfl]
    have hsame : ∀ word, table.GoesWith j j word ↔
        table.weightUpTo j * word.toNat / 2 ^ 32 < table.weight j := by
      intro word
      simp [GoesWith]
    simp only [hsame]
    rcases Nat.eq_zero_or_pos (table.weight j) with hzero | hpos
    · simp [hzero, acceptCount]
    · exact (hcount hpos).1
  · rw [if_neg (not_lt_of_gt hgt), if_neg hgt.ne']
    have hlater : ∀ word, table.GoesWith i j word ↔
        ¬table.weightUpTo j * word.toNat / 2 ^ 32 < table.weight j := by
      intro word
      simp [GoesWith, hgt.ne', hgt]
    simp only [hlater]
    rcases Nat.eq_zero_or_pos (table.weight j) with hzero | hpos
    · rw [if_pos hzero, hzero, ← card_words 32]
      apply Nat.card_congr
      exact Equiv.subtypeUnivEquiv fun word => Nat.not_lt_zero _
    · rw [if_neg hpos.ne']
      exact (hcount hpos).2

/-- How many random words accept a lane, and how many vectors of random words make it the final
selection: the choices of the lanes are independent of each other.  The first lane with weight
is always accepted, and `sample` sends the address of the final selection. -/
theorem reservoir_counts (table : WeightTable) :
    (∀ i, 0 < table.weight i → ∀ r,
        Nat.card {word // table.Accepts (Function.update r i word) i} = table.acceptCount i) ∧
      (∀ i, Nat.card {r // table.selected r = some i.val} = ∏ j, table.countFor i j) ∧
      (∀ i, 0 < table.weight i → (∀ j, j < i → table.weight j = 0) →
        ∀ r, table.Accepts r i) ∧
      (∀ r i, table.selected r = some i.val →
        sampledFrom (fun _ => 0) noIndex (table.drawLines r) =
          [outPkg (table.addr i) table.finalSync]) := by
  refine ⟨fun i hpos r => ?_, fun i => ?_, fun i hpos hfirst r => ?_, table.sampledFrom_drawLines⟩
  · simp only [accepts_iff, Function.update_self]
    exact (card_scaled_lt (hpos.trans_le (table.weight_le i)) (table.weight_le i)).1
  · simp only [selected_eq_some_iff_forall, ← card_goesWith]
    exact card_independent (table.GoesWith i)
  · -- the prefix sum of the first lane with weight is its weight
    have hsum : table.weightUpTo i = table.weight i := by
      rw [weightUpTo, Finset.sum_eq_single i]
      · exact if_pos le_rfl
      · intro j _ hne
        split
        · rename_i hle
          exact hfirst j (lt_of_le_of_ne hle hne)
        · rfl
      · simp
    rw [accepts_iff, hsum]
    apply Nat.div_lt_of_lt_mul
    rw [Nat.mul_comm]
    exact Nat.mul_lt_mul_of_pos_right (r i).isLt hpos

end WeightTable

end RidgeWalker.Wrs
