import RidgeWalker.Host.EdgeList

/-!
# The class of the host

All members of `Graph` beside the base arrays: labels and weights of vertices and edges, the
largest degree, and the tables for sampling.  Which arrays exist is told by flags.  Weights are of
any type; labels are integers.

Main results:

- Theorem `maxElement_spec`: the metadata name a vertex with the largest degree.
- Theorem `Csr.Represents.wellFormed`: a represented graph is well formed.
- Theorem `load_edge_list_wellFormed`: so a graph loaded from an edge list is well formed.
-/

namespace RidgeWalker.Host

open Slices

/-- `AliasSlot`. -/
structure AliasSlot (W : Type) where
  aliasValue : W
  first : ℕ
  second : ℕ

/-- The class `Graph`. -/
structure Graph (W : Type) extends Csr where
  isVertexLabeled : Bool
  isVertexWeighted : Bool
  isEdgeLabeled : Bool
  isEdgeWeighted : Bool
  isEdgeWeightPrefixSummed : Bool
  isEdgeWeightAliasGenerated : Bool
  isEdgeWeightRejectionGenerated : Bool
  isOffsetPair : Bool
  nodeWithMaxDegree : ℕ
  maxDegree : ℕ
  vertexLabel : ℕ → ℤ
  vertexWeight : ℕ → W
  edgeLabel : ℕ → ℤ
  edgeWeight : ℕ → W
  edgeWeightPrefixSum : ℕ → W
  offsetPair : ℕ → ℕ × ℕ
  edgeWeightAliasTable : ℕ → AliasSlot W
  edgeWeightRejectionMax : ℕ → W

/-! ## Metadata -/

/-- `std::max_element(degree_, degree_ + n) - degree_`: the first position of the largest degree. -/
def maxElement (degree : ℕ → ℕ) (n : ℕ) : ℕ :=
  (List.range n).foldl (fun best i => if degree best < degree i then i else best) 0

/-- `collect_metadata`. -/
def Graph.collectMetadata {W : Type} (g : Graph W) : Graph W :=
  { g with
    maxDegree := g.degree (maxElement g.degree g.numVertices)
    nodeWithMaxDegree := maxElement g.degree g.numVertices }

theorem maxElement_succ (degree : ℕ → ℕ) (n : ℕ) : maxElement degree (n + 1) =
    if degree (maxElement degree n) < degree n then n else maxElement degree n := by
  unfold maxElement
  rw [List.range_succ, List.foldl_append]
  rfl

/-- The position found is one of the array, and no degree is larger. -/
theorem maxElement_spec (degree : ℕ → ℕ) (n : ℕ) :
    (0 < n → maxElement degree n < n) ∧
    ∀ v < n, degree v ≤ degree (maxElement degree n) := by
  induction n with
  | zero => simp
  | succ n ih =>
      obtain ⟨hlt, hle⟩ := ih
      rw [maxElement_succ]
      constructor
      · intro _
        split
        · exact Nat.lt_succ_self n
        · rcases Nat.eq_zero_or_pos n with rfl | hn
          · simp [maxElement]
          · exact (hlt hn).trans (Nat.lt_succ_self n)
      · intro v hv
        rcases Nat.lt_succ_iff_lt_or_eq.mp hv with hv | rfl
        · have := hle v hv
          split <;> omega
        · split <;> omega

/-! ## Well-formed graphs -/

namespace Csr

/-- Rows in ascending order without repetitions, one behind another, with vertices as entries. -/
structure WellFormed (c : Csr) : Prop where
  ascending : ∀ v < c.numVertices, (c.neighbors v).Pairwise (· < ·)
  neighbor_lt : ∀ v < c.numVertices, ∀ w ∈ c.neighbors v, w < c.numVertices
  offset_eq : ∀ v ≤ c.numVertices, c.offset v = starts c.degree v
  numEdges_eq : c.numEdges = starts c.degree c.numVertices

/-- A represented graph is well formed. -/
theorem Represents.wellFormed {c : Csr} {G : SimpleGraph ℕ} (h : c.Represents G) :
    c.WellFormed where
  ascending := h.ascending
  neighbor_lt v hv w hw := h.vertex_lt w v ((h.neighbor_iff v hv w).mp hw).symm
  offset_eq := h.offset_eq
  numEdges_eq := h.numEdges_eq

end Csr

/-- A well-formed graph whose metadata bound the degrees. -/
structure Graph.WellFormed {W : Type} (g : Graph W) : Prop extends g.toCsr.WellFormed where
  degree_le : ∀ v < g.numVertices, g.degree v ≤ g.maxDegree

/-- Collecting the metadata of well-formed rows makes a well-formed graph. -/
theorem Graph.collectMetadata_wellFormed {W : Type} {g : Graph W} (h : g.toCsr.WellFormed) :
    g.collectMetadata.WellFormed :=
  { h with degree_le := (maxElement_spec g.degree g.numVertices).2 }

/-- `load_edge_list` with the metadata collected at its end leaves a well-formed graph. -/
theorem load_edge_list_wellFormed {W : Type} (g : Graph W) {edgeList : List (ℕ × ℕ)}
    {maxVertexId : ℕ} {order : List ℕ}
    (hform : ∀ e ∈ edgeList, e.1 ≤ e.2 ∧ e.2 ≤ maxVertexId)
    (horder : order.Perm (List.range (maxVertexId + 1))) :
    ({ g with toCsr := loadEdgeList edgeList maxVertexId g.offset g.adj order } :
      Graph W).collectMetadata.WellFormed :=
  Graph.collectMetadata_wellFormed (represents_loadEdgeList hform horder).wellFormed

end RidgeWalker.Host
