import RidgeWalker.Host.Slices

/-!
# Graphs in compressed rows

The class `Graph` of the host keeps the neighbours of all vertices in one array, row by row.  An
undirected graph on the numbers below `num_vertices` is represented when every row lists the
neighbours of its vertex in ascending order and the offsets are the prefix sums of the degrees.

Main results:

- Theorem `fillOffsets_eq`: the loop over the degrees leaves their prefix sums.
- Theorem `Csr.Represents.isSort`: a represented graph passes the check `is_sort`.
- Theorem `Csr.Represents.degree_lt`: no degree reaches the number of vertices.
-/

namespace RidgeWalker.Host

open Slices

/-- The base arrays of `Graph`. -/
structure Csr where
  numVertices : ℕ
  numEdges : ℕ
  offset : ℕ → ℕ
  degree : ℕ → ℕ
  adj : ℕ → ℕ

namespace Csr

/-- `neighbors`: the row of `u`. -/
def neighbors (c : Csr) (u : ℕ) : List ℕ := slice c.adj (c.offset u) (c.degree u)

/-- `c` holds the undirected graph `G`. -/
structure Represents (c : Csr) (G : SimpleGraph ℕ) : Prop where
  ascending : ∀ v < c.numVertices, (c.neighbors v).Pairwise (· < ·)
  neighbor_iff : ∀ v < c.numVertices, ∀ w, w ∈ c.neighbors v ↔ G.Adj v w
  vertex_lt : ∀ v w, G.Adj v w → v < c.numVertices
  offset_eq : ∀ v ≤ c.numVertices, c.offset v = starts c.degree v
  numEdges_eq : c.numEdges = starts c.degree c.numVertices

/-- `is_sort`: whether the check passes over all rows without the exit. -/
def isSort (c : Csr) : Bool :=
  (List.range c.numVertices).all fun u =>
    let first := fun i => c.adj (c.offset u + i)
    if c.degree u > 1 then
      (List.range' 1 (c.degree u - 1)).all fun i => !decide (first (i - 1) > first i)
    else true

/-- Ascending rows pass the check. -/
theorem isSort_of_ascending {c : Csr}
    (h : ∀ v < c.numVertices, (c.neighbors v).Pairwise (· < ·)) : c.isSort = true := by
  unfold isSort
  rw [List.all_eq_true]
  intro u hu
  have hu := h u (List.mem_range.mp hu)
  dsimp only
  split
  · rw [List.all_eq_true]
    intro i hi
    obtain ⟨hlo, hhi⟩ := List.mem_range'_1.mp hi
    have hpair := List.pairwise_iff_getElem.mp hu (i - 1) i (by simp [neighbors]; omega)
      (by simp [neighbors]; omega) (by omega)
    simp only [neighbors, getElem_slice] at hpair
    simpa using le_of_lt hpair
  · rfl

variable {c : Csr} {G : SimpleGraph ℕ}

/-- `is_sort` does not exit on a represented graph. -/
theorem Represents.isSort (h : c.Represents G) : c.isSort = true :=
  isSort_of_ascending h.ascending

/-- A row lists every neighbour once, so no degree reaches the number of vertices and the counters
of the host have room for them. -/
theorem Represents.degree_lt (h : c.Represents G) {v : ℕ} (hv : v < c.numVertices) :
    c.degree v < c.numVertices := by
  have hnodup : (c.neighbors v).Nodup := (h.ascending v hv).imp ne_of_lt
  have hsub : (c.neighbors v).toFinset ⊆ (Finset.range c.numVertices).erase v := by
    intro w hw
    have hadj := (h.neighbor_iff v hv w).mp (List.mem_toFinset.mp hw)
    exact Finset.mem_erase.mpr ⟨hadj.ne', Finset.mem_range.mpr (h.vertex_lt w v hadj.symm)⟩
  have hcard := Finset.card_le_card hsub
  rw [List.toFinset_card_of_nodup hnodup, Finset.card_erase_of_mem (Finset.mem_range.mpr hv),
    Finset.card_range] at hcard
  have hlen : (c.neighbors v).length = c.degree v := length_slice ..
  omega

end Csr

/-! ## Offsets -/

/-- The loop that fills `offset` from the degrees. -/
def fillOffsets (degree : ℕ → ℕ) (offset : ℕ → ℕ) : ℕ → (ℕ → ℕ)
  | 0 => Function.update offset 0 0
  | i + 1 =>
      let offset := fillOffsets degree offset i
      Function.update offset (i + 1) (offset i + degree i)

/-- The loop leaves the prefix sums of the degrees. -/
theorem fillOffsets_eq (degree offset : ℕ → ℕ) {n v : ℕ} (hv : v ≤ n) :
    fillOffsets degree offset n v = starts degree v := by
  induction n generalizing v with
  | zero =>
      obtain rfl := Nat.le_zero.mp hv
      simp [fillOffsets]
  | succ n ih =>
      rcases Nat.le_succ_iff.mp hv with hv | rfl
      · have hne : v ≠ n + 1 := by omega
        simp only [fillOffsets, Function.update_of_ne hne, ih hv]
      · simp [fillOffsets, ih le_rfl, starts_succ]

end RidgeWalker.Host
