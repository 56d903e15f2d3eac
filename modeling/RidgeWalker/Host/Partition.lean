import RidgeWalker.Host.Graph

/-!
# Sequential partitions

`sequential_partition` cuts the vertices into ranges, one after another: a vertex whose degree would
take the sum of the current range above the target starts the next range.  `get_pid` finds the
range of a vertex again.

Main results:

- Theorem `cut_rule`: what holds of every closed range and of the open one.
- Theorem `upperBound_spec`: the lookup in the array of boundaries.
- Theorem `sequential_partition_ranges`: the ranges partition the vertices, every vertex is found in
  its own, and with no degree above the target they are non-empty, within the target and as long as
  possible.
-/

namespace RidgeWalker.Host

/-! ## The cut -/

/-- The variables of the loop over the vertices. -/
structure CutLoop where
  partitionOffset : List ℕ
  localSum : ℤ

/-- One turn of the loop. -/
def CutLoop.addVertex (degree : ℕ → ℕ) (targetNumEdgesPerPartition : ℤ) (s : CutLoop) (u : ℕ) :
    CutLoop :=
  let s := { s with localSum := s.localSum + degree u }
  if s.localSum > targetNumEdgesPerPartition then
    { partitionOffset := s.partitionOffset ++ [u]
      localSum := degree u }
  else s

/-- The members that hold the partition. -/
structure Partitioning where
  numPartitions : ℕ
  partitionOffset : ℕ → ℕ

/-- `sequential_partition`. -/
def sequentialPartition (degree : ℕ → ℕ) (numVertices : ℕ) (targetNumEdgesPerPartition : ℤ) :
    Partitioning :=
  let s := (List.range numVertices).foldl
    (CutLoop.addVertex degree targetNumEdgesPerPartition) ⟨[0], 0⟩
  let partitionOffset := s.partitionOffset ++ [numVertices]
  { numPartitions := partitionOffset.length - 1
    partitionOffset := fun i => partitionOffset.getD i 0 }

/-! ## The lookup -/

/-- `std::upper_bound`: the first of the `len` cells that is larger than `u`, or `len`. -/
def upperBound (f : ℕ → ℕ) (len u : ℕ) : ℕ :=
  (List.range len).findIdx fun i => decide (u < f i)

namespace Partitioning

/-- `get_partition`. -/
def getPartition (p : Partitioning) (pid : ℕ) : ℕ × ℕ :=
  (p.partitionOffset pid, p.partitionOffset (pid + 1))

/-- `is_member`. -/
def isMember (p : Partitioning) (u pid : ℕ) : Prop :=
  p.partitionOffset pid ≤ u ∧ u < p.partitionOffset (pid + 1)

/-- `get_pid`. -/
def getPid (p : Partitioning) (u : ℕ) : ℤ :=
  (upperBound p.partitionOffset p.numPartitions u : ℤ) - 1

end Partitioning

/-- The cells before the result are not larger, and the result is. -/
theorem upperBound_spec (f : ℕ → ℕ) (len u : ℕ) :
    upperBound f len u ≤ len ∧ (∀ i < upperBound f len u, f i ≤ u) ∧
    (upperBound f len u < len → u < f (upperBound f len u)) := by
  unfold upperBound
  refine ⟨?_, ?_, ?_⟩
  · have hle : (List.range len).findIdx (fun i => decide (u < f i)) ≤ (List.range len).length :=
      List.findIdx_le_length
    simpa using hle
  · intro i hi
    have hnot := List.not_of_lt_findIdx hi
    simpa using hnot
  · intro hlt
    have hindex : (List.range len).findIdx (fun i => decide (u < f i)) <
        (List.range len).length := by
      simpa using hlt
    have hfound := @List.findIdx_getElem ℕ (fun i => decide (u < f i)) (List.range len) hindex
    simpa using hfound

/-! ## Boundaries -/

/-- Boundaries in ascending order, from 0 to `n`. -/
structure Partitioning.Covers (p : Partitioning) (n : ℕ) : Prop where
  pos : 0 < p.numPartitions
  first : p.partitionOffset 0 = 0
  last : p.partitionOffset p.numPartitions = n
  step : ∀ i < p.numPartitions, p.partitionOffset i ≤ p.partitionOffset (i + 1)

namespace Partitioning

variable {p : Partitioning} {n : ℕ}

theorem Covers.mono (h : p.Covers n) {i j : ℕ} (hij : i ≤ j) (hj : j ≤ p.numPartitions) :
    p.partitionOffset i ≤ p.partitionOffset j := by
  induction j, hij using Nat.le_induction with
  | base => exact le_rfl
  | succ j _ ih => exact (ih (by omega)).trans (h.step j (by omega))

/-- Every vertex is in the range that `get_pid` names. -/
theorem Covers.getPid_spec (h : p.Covers n) {v : ℕ} (hv : v < n) :
    ∃ pid : ℕ, p.getPid v = pid ∧ pid < p.numPartitions ∧ p.isMember v pid := by
  obtain ⟨hle, hbefore, hat⟩ := upperBound_spec p.partitionOffset p.numPartitions v
  have hpos : upperBound p.partitionOffset p.numPartitions v ≠ 0 := by
    intro hzero
    rw [hzero] at hat
    have := hat h.pos
    rw [h.first] at this
    omega
  obtain ⟨pid, hpid⟩ := Nat.exists_eq_succ_of_ne_zero hpos
  unfold getPid
  rw [hpid] at hle hbefore hat ⊢
  refine ⟨pid, by push_cast; omega, by omega, hbefore pid (Nat.lt_succ_self pid), ?_⟩
  rcases Nat.lt_or_eq_of_le hle with hlt | heq
  · exact hat hlt
  · rw [← Nat.succ_eq_add_one, heq, h.last]
    exact hv

/-- No vertex is in two ranges. -/
theorem Covers.member_unique (h : p.Covers n) {v i j : ℕ} (hi : i < p.numPartitions)
    (hj : j < p.numPartitions) (hvi : p.isMember v i) (hvj : p.isMember v j) : i = j := by
  unfold isMember at hvi hvj
  by_contra hne
  rcases Nat.lt_or_gt_of_ne hne with hlt | hlt
  · have hbound : p.partitionOffset (i + 1) ≤ p.partitionOffset j := h.mono hlt hj.le
    omega
  · have hbound : p.partitionOffset (j + 1) ≤ p.partitionOffset i := h.mono hlt hi.le
    omega

/-- The ranges lie below `n`. -/
theorem Covers.member_lt (h : p.Covers n) {v i : ℕ} (hi : i < p.numPartitions)
    (hv : p.isMember v i) : v < n := by
  have hbound : p.partitionOffset (i + 1) ≤ p.partitionOffset p.numPartitions :=
    h.mono hi le_rfl
  rw [h.last] at hbound
  exact lt_of_lt_of_le hv.2 hbound

end Partitioning

/-! ## The loop -/

section Cut

variable {degree : ℕ → ℕ} {target : ℤ}

/-- The degrees from `a` to before `b`. -/
def rangeSum (degree : ℕ → ℕ) (a b : ℕ) : ℤ := ∑ u ∈ Finset.Ico a b, (degree u : ℤ)

@[simp]
theorem rangeSum_self (a : ℕ) : rangeSum degree a a = 0 := by simp [rangeSum]

theorem rangeSum_succ {a b : ℕ} (h : a ≤ b) :
    rangeSum degree a (b + 1) = rangeSum degree a b + degree b := by
  unfold rangeSum
  rw [Finset.sum_Ico_succ_top h]

/-- The rule for the loop: when `P a u` holds of the open range from `a` to before `u` and `R a b`
of a range that is closed, they hold after the whole loop. -/
theorem cut_rule {R P : ℕ → ℕ → Prop} {n : ℕ} (hstart : P 0 0)
    (hgrow : ∀ a u, u < n → a ≤ u → P a u → rangeSum degree a (u + 1) ≤ target → P a (u + 1))
    (hcut : ∀ a u, u < n → a ≤ u → P a u → target < rangeSum degree a (u + 1) →
      R a u ∧ P u (u + 1)) :
    ∃ init a, (List.range n).foldl (CutLoop.addVertex degree target) ⟨[0], 0⟩ =
        ⟨init ++ [a], rangeSum degree a n⟩ ∧
      (init ++ [a]).head? = some 0 ∧ (init ++ [a]).IsChain R ∧ a ≤ n ∧ P a n := by
  induction n with
  | zero => exact ⟨[], 0, rfl, rfl, List.isChain_singleton 0, le_rfl, hstart⟩
  | succ n ih =>
      obtain ⟨init, a, hrun, hhead, hchain, ha, hopen⟩ :=
        ih (fun a u hu => hgrow a u (Nat.lt_succ_of_lt hu))
          (fun a u hu => hcut a u (Nat.lt_succ_of_lt hu))
      rw [List.range_succ, List.foldl_append, hrun, List.foldl_cons, List.foldl_nil]
      unfold CutLoop.addVertex
      dsimp only
      rw [← rangeSum_succ ha]
      split
      · rename_i hover
        obtain ⟨hclosed, hnext⟩ := hcut a n (Nat.lt_succ_self n) ha hopen hover
        refine ⟨init ++ [a], n, ?_, ?_, ?_, Nat.le_succ n, hnext⟩
        · rw [rangeSum_succ le_rfl, rangeSum_self, zero_add]
        · rw [List.head?_append, hhead]
          rfl
        · rw [List.isChain_append]
          refine ⟨hchain, List.isChain_singleton n, ?_⟩
          intro x hx y hy
          obtain rfl : a = x := by simpa using hx
          obtain rfl : n = y := by simpa using hy
          exact hclosed
      · rename_i hfit
        exact ⟨init, a, rfl, hhead, hchain, Nat.le_succ_of_le ha,
          hgrow a n (Nat.lt_succ_self n) ha hopen (not_lt.mp hfit)⟩

/-- The boundaries of the finished partition: closed ranges satisfy `R`, and the last range was the
open one. -/
theorem sequentialPartition_rule (degree : ℕ → ℕ) (target : ℤ) {R P : ℕ → ℕ → Prop} {n : ℕ}
    (hstart : P 0 0)
    (hgrow : ∀ a u, u < n → a ≤ u → P a u → rangeSum degree a (u + 1) ≤ target → P a (u + 1))
    (hcut : ∀ a u, u < n → a ≤ u → P a u → target < rangeSum degree a (u + 1) →
      R a u ∧ P u (u + 1)) :
    let p := sequentialPartition degree n target
    ∃ k, p.numPartitions = k + 1 ∧ p.partitionOffset 0 = 0 ∧
      p.partitionOffset (k + 1) = n ∧
      (∀ i < k, R (p.partitionOffset i) (p.partitionOffset (i + 1))) ∧
      p.partitionOffset k ≤ n ∧ P (p.partitionOffset k) n := by
  obtain ⟨init, a, hrun, hhead, hchain, ha, hopen⟩ := cut_rule hstart hgrow hcut
  unfold sequentialPartition
  dsimp only
  rw [hrun]
  dsimp only
  have hlast : (init ++ [a] ++ [n]).getD init.length 0 = a := by simp
  refine ⟨init.length, by simp, ?_, by simp, ?_, hlast.symm ▸ ha, hlast.symm ▸ hopen⟩
  · rw [List.head?_eq_getElem?] at hhead
    have hpos : 0 < (init ++ [a]).length := by simp
    rw [List.getD_append _ _ _ _ hpos, List.getD_eq_getElem?_getD, hhead]
    rfl
  · intro i hi
    have hlen : i + 1 < (init ++ [a]).length := by
      simp
      omega
    have hstep := hchain.getElem i hlen
    rw [List.getD_append _ _ _ _ (by omega), List.getD_append _ _ _ _ hlen,
      List.getD_eq_getElem _ _ (by omega), List.getD_eq_getElem _ _ hlen]
    exact hstep

/-- For every target the boundaries ascend from 0 to the number of vertices. -/
theorem sequentialPartition_covers (n : ℕ) : (sequentialPartition degree n target).Covers n := by
  obtain ⟨k, hk, hfirst, hlast, hclosed, hle, -⟩ :=
    sequentialPartition_rule degree target (n := n)
      (R := fun a b => a ≤ b) (P := fun _ _ => True) trivial (fun _ _ _ _ _ _ => trivial)
      (fun _ _ _ ha _ _ => ⟨ha, trivial⟩)
  constructor
  · omega
  · exact hfirst
  · rw [hk, hlast]
  · intro i hi
    rcases Nat.lt_succ_iff_lt_or_eq.mp (hk ▸ hi) with hi | rfl
    · exact hclosed i hi
    · rw [hlast]
      exact hle

/-- A range from `a` to before `b` that was closed: it has vertices, its sum is within the target,
and the next vertex would have taken it above. -/
structure Full (degree : ℕ → ℕ) (target : ℤ) (a b : ℕ) : Prop where
  lt : a < b
  sum_le : rangeSum degree a b ≤ target
  lt_sum : target < rangeSum degree a b + degree b

/-- The open range from `a` to before `u`. -/
structure Fits (degree : ℕ → ℕ) (target : ℤ) (a u : ℕ) : Prop where
  lt : 0 < u → a < u
  sum_le : rangeSum degree a u ≤ target

/-- With no degree above the target, all ranges but the last are full, and the last fits. -/
theorem sequentialPartition_full {n : ℕ} (hn : 0 < n) (hdegree : ∀ v < n, (degree v : ℤ) ≤ target) :
    let p := sequentialPartition degree n target
    (∀ i, i + 1 < p.numPartitions → Full degree target (p.partitionOffset i)
      (p.partitionOffset (i + 1))) ∧
    ∀ i < p.numPartitions, p.partitionOffset i < p.partitionOffset (i + 1) ∧
      rangeSum degree (p.partitionOffset i) (p.partitionOffset (i + 1)) ≤ target := by
  intro p
  have htarget : 0 ≤ target := (Int.natCast_nonneg _).trans (hdegree 0 hn)
  obtain ⟨k, hk, -, hlast, hclosed, -, hopen⟩ :=
    sequentialPartition_rule degree target (n := n)
      (R := Full degree target) (P := Fits degree target)
      ⟨fun h => absurd h (lt_irrefl 0), by simpa using htarget⟩
      (fun a u _ ha hfits hsum => ⟨fun _ => Nat.lt_succ_of_le ha, hsum⟩)
      (by
        intro a u hu ha hfits hover
        rw [rangeSum_succ ha] at hover
        have hsingle : rangeSum degree u (u + 1) ≤ target := by
          rw [rangeSum_succ le_rfl, rangeSum_self, zero_add]
          exact hdegree u hu
        refine ⟨⟨?_, hfits.sum_le, hover⟩, fun _ => Nat.lt_succ_self u, hsingle⟩
        -- the first vertex alone does not exceed the target
        rcases Nat.eq_zero_or_pos u with rfl | hpos
        · obtain rfl := Nat.le_zero.mp ha
          have := hdegree 0 hu
          rw [rangeSum_self] at hover
          omega
        · exact hfits.lt hpos)
  have hk : p.numPartitions = k + 1 := hk
  constructor
  · intro i hi
    exact hclosed i (by omega)
  · intro i hi
    rcases Nat.lt_succ_iff_lt_or_eq.mp (hk ▸ hi) with hi | rfl
    · exact ⟨(hclosed i hi).lt, (hclosed i hi).sum_le⟩
    · rw [hlast]
      exact ⟨hopen.lt hn, hopen.sum_le⟩

end Cut

/-- For every graph with a vertex and every target: the ranges of `sequential_partition` follow one
another from 0 to the number of vertices, every vertex is in exactly one of them, and `get_pid`
names it.  When no degree exceeds the target, every range has vertices and a sum within the target,
and the first vertex of the next range would have taken it above. -/
theorem sequential_partition_ranges (degree : ℕ → ℕ) (n : ℕ) (hn : 0 < n) (target : ℤ) :
    let p := sequentialPartition degree n target
    0 < p.numPartitions ∧
    (p.getPartition 0).1 = 0 ∧ (p.getPartition (p.numPartitions - 1)).2 = n ∧
    (∀ i < p.numPartitions, (p.getPartition i).1 ≤ (p.getPartition i).2) ∧
    (∀ i, i + 1 < p.numPartitions → (p.getPartition i).2 = (p.getPartition (i + 1)).1) ∧
    (∀ i < p.numPartitions, ∀ v, p.isMember v i → v < n) ∧
    (∀ v < n, ∃ pid : ℕ, p.getPid v = pid ∧ pid < p.numPartitions ∧ p.isMember v pid ∧
      ∀ i < p.numPartitions, p.isMember v i → i = pid) ∧
    ((∀ v < n, (degree v : ℤ) ≤ target) →
      (∀ i < p.numPartitions, (p.getPartition i).1 < (p.getPartition i).2 ∧
        rangeSum degree (p.getPartition i).1 (p.getPartition i).2 ≤ target) ∧
      ∀ i, i + 1 < p.numPartitions → target <
        rangeSum degree (p.getPartition i).1 (p.getPartition i).2 +
          degree (p.getPartition (i + 1)).1) := by
  intro p
  have hcovers : p.Covers n := sequentialPartition_covers n
  refine ⟨hcovers.pos, hcovers.first, ?_, hcovers.step, fun _ _ => rfl, ?_, ?_, ?_⟩
  · have hpred : p.numPartitions - 1 + 1 = p.numPartitions := Nat.sub_add_cancel hcovers.pos
    unfold Partitioning.getPartition
    rw [hpred]
    exact hcovers.last
  · exact fun i hi v hv => hcovers.member_lt hi hv
  · intro v hv
    obtain ⟨pid, hpid, hlt, hmember⟩ := hcovers.getPid_spec hv
    exact ⟨pid, hpid, hlt, hmember, fun i hi hvi => hcovers.member_unique hi hlt hvi hmember⟩
  · intro hdegree
    obtain ⟨hfull, hfits⟩ := sequentialPartition_full hn hdegree
    exact ⟨hfits, fun i hi => (hfull i hi).lt_sum⟩

/-- A first vertex above the target leaves an empty first range, and the lookup skips it. -/
theorem sequential_partition_ranges_oversized :
    let p := sequentialPartition (fun v => [5, 0, 1, 2].getD v 0) 4 3
    p.numPartitions = 3 ∧ p.getPartition 0 = (0, 0) ∧ p.getPid 0 = 1 ∧
    ∀ v < 4, ∃ pid : ℕ, p.getPid v = pid ∧ pid < p.numPartitions ∧ p.isMember v pid := by
  intro p
  obtain ⟨-, -, -, -, -, -, hfound, -⟩ :=
    sequential_partition_ranges (fun v => [5, 0, 1, 2].getD v 0) 4 (by decide) 3
  refine ⟨by decide, by decide, by decide, fun v hv => ?_⟩
  obtain ⟨pid, hpid, hlt, hmember, -⟩ := hfound v hv
  exact ⟨pid, hpid, hlt, hmember⟩

end RidgeWalker.Host
