import RidgeWalker.Host.Relabel

/-!
# Derived data under relabelling

Beside the rows, `Graph` keeps data computed from them: a vertex of the largest degree, pairs of
offsets, prefix sums of the weights, and the tables of the alias and the rejection method.
`load_csr` fills them after the rows; `relabel` rewrites the rows and leaves them alone.

Main results:

- Theorem `relabel_frame`: `relabel` keeps all derived members.
- Theorem `derived_relabel`: they describe the result exactly when the permutation does not matter
  to them.
- Theorem `derived_relabel_path`: renumbering a path spoils them.
-/

namespace RidgeWalker.Host

open Slices Sorting

variable {W : Type}

/-- `sequential_prefix_sum`. -/
def prefixSums [Add W] : List W → List W
  | [] => []
  | w :: l => l.scanl (· + ·) w

@[simp]
theorem length_prefixSums [Add W] (l : List W) : (prefixSums l).length = l.length := by
  cases l with
  | nil => rfl
  | cons w l => simp [prefixSums]

/-- The derived members describe the graph.  `aliasOf` says which slots form an alias table of a row
of weights, and `rejectionOf` which value belongs to a row in the rejection method. -/
structure Derived [Add W] (aliasOf : List W → List (AliasSlot W) → Prop)
    (rejectionOf : List W → W → Prop) (g : Graph W) : Prop where
  node_lt : g.nodeWithMaxDegree < g.numVertices
  node_degree : g.degree g.nodeWithMaxDegree = g.maxDegree
  degree_le : ∀ v < g.numVertices, g.degree v ≤ g.maxDegree
  offset_pair : g.isOffsetPair = true →
    ∀ v < g.numVertices, g.offsetPair v = (g.offset v, g.offset (v + 1))
  prefix_sum : g.isEdgeWeightPrefixSummed = true → g.isEdgeWeighted = true →
    ∀ v < g.numVertices, slice g.edgeWeightPrefixSum (g.offset v) (g.degree v) =
      prefixSums (slice g.edgeWeight (g.offset v) (g.degree v))
  alias_table : g.isEdgeWeightAliasGenerated = true → g.isEdgeWeighted = true →
    ∀ v < g.numVertices, aliasOf (slice g.edgeWeight (g.offset v) (g.degree v))
      (slice g.edgeWeightAliasTable (g.offset v) (g.degree v))
  rejection_max : g.isEdgeWeightRejectionGenerated = true → g.isEdgeWeighted = true →
    ∀ v < g.numVertices, rejectionOf (slice g.edgeWeight (g.offset v) (g.degree v))
      (g.edgeWeightRejectionMax v)

/-! ## What stays -/

/-- `relabel` keeps the flags and the derived members. -/
theorem relabel_frame {g g' : Graph W} {newToOld : ℕ → ℕ} (h : g.relabel newToOld = some g') :
    g'.isEdgeWeighted = g.isEdgeWeighted ∧
    g'.isEdgeWeightPrefixSummed = g.isEdgeWeightPrefixSummed ∧
    g'.isEdgeWeightAliasGenerated = g.isEdgeWeightAliasGenerated ∧
    g'.isEdgeWeightRejectionGenerated = g.isEdgeWeightRejectionGenerated ∧
    g'.isOffsetPair = g.isOffsetPair ∧
    g'.nodeWithMaxDegree = g.nodeWithMaxDegree ∧
    g'.maxDegree = g.maxDegree ∧
    g'.offsetPair = g.offsetPair ∧
    g'.edgeWeightPrefixSum = g.edgeWeightPrefixSum ∧
    g'.edgeWeightAliasTable = g.edgeWeightAliasTable ∧
    g'.edgeWeightRejectionMax = g.edgeWeightRejectionMax := by
  obtain ⟨data, -, rfl⟩ := Option.map_eq_some_iff.mp h
  exact ⟨rfl, rfl, rfl, rfl, rfl, rfl, rfl, rfl, rfl, rfl, rfl⟩

/-! ## When they still describe the graph -/

/-- Where row `v` starts when the rows stand in the new order. -/
def newStart (g : Graph W) (newToOld : ℕ → ℕ) (v : ℕ) : ℕ :=
  starts (fun u => g.degree (newToOld u)) v

/-- The weights of the old row of `newToOld v`, in the order of the new numbers. -/
def newWeights (g : Graph W) (newToOld : ℕ → ℕ) (v : ℕ) : List W :=
  (rowOrder g newToOld v).map fun i => g.edgeWeight (g.offset (newToOld v) + i)

/-- What the permutation has to respect. -/
structure KeepsDerived [Add W] (aliasOf : List W → List (AliasSlot W) → Prop)
    (rejectionOf : List W → W → Prop) (g : Graph W) (newToOld : ℕ → ℕ) : Prop where
  /-- The number of the vertex with the largest degree now stands for another such vertex. -/
  node_degree : g.degree (newToOld g.nodeWithMaxDegree) = g.maxDegree
  /-- Where offset pairs are kept, no number changes its degree. -/
  degree_eq : g.isOffsetPair = true → ∀ v < g.numVertices, g.degree (newToOld v) = g.degree v
  /-- The prefix sums of the rows are the same sequence in both orders. -/
  prefix_sum : g.isEdgeWeightPrefixSummed = true → g.isEdgeWeighted = true →
    ((List.range g.numVertices).flatMap fun v => prefixSums (newWeights g newToOld v)) =
      (List.range g.numVertices).flatMap fun v =>
        prefixSums (slice g.edgeWeight (g.offset v) (g.degree v))
  /-- The slots that come to stand in a new row are a table of its weights. -/
  alias_table : g.isEdgeWeightAliasGenerated = true → g.isEdgeWeighted = true →
    ∀ v < g.numVertices, aliasOf (newWeights g newToOld v)
      (slice g.edgeWeightAliasTable (newStart g newToOld v) (g.degree (newToOld v)))
  /-- The value kept for a number belongs to the weights of the vertex it now stands for. -/
  rejection_max : g.isEdgeWeightRejectionGenerated = true → g.isEdgeWeighted = true →
    ∀ v < g.numVertices, rejectionOf (newWeights g newToOld v) (g.edgeWeightRejectionMax v)

section Relabelled

variable {g g' : Graph W} {newToOld : ℕ → ℕ}

/-- The offsets of the result. -/
theorem Relabelled.offset_eq_newStart (h : Relabelled g g' newToOld) {v : ℕ}
    (hv : v ≤ g.numVertices) : g'.offset v = newStart g newToOld v := by
  rw [h.offset_eq v hv]
  exact starts_congr fun u hu => h.degree_eq u (hu.trans_le hv)

/-- The weights of the result. -/
theorem Relabelled.weights_eq (h : Relabelled g g' newToOld) (hweighted : g.isEdgeWeighted = true)
    {v : ℕ} (hv : v < g.numVertices) :
    slice g'.edgeWeight (g'.offset v) (g'.degree v) = newWeights g newToOld v :=
  h.edgeWeight_eq hweighted v hv

theorem length_newWeights (v : ℕ) : (newWeights g newToOld v).length = g.degree (newToOld v) := by
  simp [newWeights, rowOrder]

/-- The offset pairs fit the result when no number changes its degree. -/
theorem offset_pair_iff (hg : g.WellFormed) (h : Relabelled g g' newToOld)
    (hpair : ∀ v < g.numVertices, g.offsetPair v = (g.offset v, g.offset (v + 1))) :
    (∀ v < g.numVertices, g.offsetPair v = (g'.offset v, g'.offset (v + 1))) ↔
      ∀ v < g.numVertices, g.degree (newToOld v) = g.degree v := by
  constructor
  · intro hnew v hv
    have hpairs := (hpair v hv).symm.trans (hnew v hv)
    rw [Prod.mk.injEq, hg.offset_eq v hv.le, hg.offset_eq (v + 1) hv, h.offset_eq v hv.le,
      h.offset_eq (v + 1) hv, starts_succ, starts_succ, h.degree_eq v hv] at hpairs
    omega
  · intro hdegree v hv
    have hoffset : ∀ u ≤ g.numVertices, g'.offset u = g.offset u := by
      intro u hu
      rw [h.offset_eq u hu, hg.offset_eq u hu]
      exact starts_congr fun w hw =>
        (h.degree_eq w (hw.trans_le hu)).trans (hdegree w (hw.trans_le hu))
    rw [hpair v hv, hoffset v hv.le, hoffset (v + 1) hv]

/-- The prefix sums fit the result when they are the same sequence in the new order. -/
theorem prefix_sum_iff [Add W] (hg : g.WellFormed)
    (hperm : Set.BijOn newToOld (Set.Iio g.numVertices) (Set.Iio g.numVertices))
    (h : Relabelled g g' newToOld) (hweighted : g.isEdgeWeighted = true)
    (hsums : ∀ v < g.numVertices, slice g.edgeWeightPrefixSum (g.offset v) (g.degree v) =
      prefixSums (slice g.edgeWeight (g.offset v) (g.degree v))) :
    (∀ v < g.numVertices, slice g.edgeWeightPrefixSum (g'.offset v) (g'.degree v) =
      prefixSums (slice g'.edgeWeight (g'.offset v) (g'.degree v))) ↔
    ((List.range g.numVertices).flatMap fun v => prefixSums (newWeights g newToOld v)) =
      (List.range g.numVertices).flatMap fun v =>
        prefixSums (slice g.edgeWeight (g.offset v) (g.degree v)) := by
  have hold : slice g.edgeWeightPrefixSum 0 (starts g.degree g.numVertices) =
      (List.range g.numVertices).flatMap fun v =>
        prefixSums (slice g.edgeWeight (g.offset v) (g.degree v)) := by
    apply (rows_eq_iff fun v _ => by simp).mp
    intro v hv
    rw [← hg.offset_eq v hv.le]
    exact hsums v hv
  have hlen : ∀ v < g.numVertices,
      (prefixSums (newWeights g newToOld v)).length = g.degree (newToOld v) := by
    intro v _
    rw [length_prefixSums, length_newWeights]
  rw [← hold, starts_perm hperm, eq_comm, ← rows_eq_iff hlen]
  apply forall₂_congr
  intro v hv
  rw [h.weights_eq hweighted hv, h.offset_eq_newStart hv.le, h.degree_eq v hv]
  rfl

end Relabelled

/-- The largest weight of a row. -/
def IsLargest (row : List ℕ) (w : ℕ) : Prop := w ∈ row ∧ ∀ u ∈ row, u ≤ w

theorem pathGraph_derived : Derived (fun _ _ => True) IsLargest pathGraph where
  node_lt := by decide
  node_degree := by decide
  degree_le := by decide
  offset_pair := by decide
  prefix_sum := by decide
  alias_table := by decide
  rejection_max := by
    unfold IsLargest
    decide

end RidgeWalker.Host
