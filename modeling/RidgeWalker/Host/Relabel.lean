import RidgeWalker.Host.Graph
import RidgeWalker.Host.Sorting

/-!
# Relabelling

`relabel` renumbers the vertices by `new_to_old`.  Degrees and vertex data are permuted, the rows
are gathered in the new order with their entries renumbered, and so are the labels and weights of
the edges; then the labels and weights of every row are brought into the order of its renumbered
entries, and at last the offsets are recomputed and the rows sorted.

Main results:

- Theorem `oldToNew_newToOld`: the first loop inverts the permutation.
- Theorem `sortEdges_eq`: the pass over labels and weights handles every row once.
- Theorem `sortNeighbors_eq`: so does the last pass.
- Theorem `relabel_isomorphism`: the result is the image of the graph under the permutation.
-/

namespace RidgeWalker.Host

open Slices Sorting

variable {W : Type}

/-! ## The passes -/

/-- `old_to_new`, filled by the first loop. -/
def oldToNew (newToOld : ℕ → ℕ) (numVertices : ℕ) : ℕ → ℕ :=
  (List.range numVertices).foldl (fun a newId => Function.update a (newToOld newId) newId)
    fun _ => 0

/-- The loop over the vertices, for one of the arrays. -/
def permuteVertices {A : Type} (newToOld : ℕ → ℕ) (numVertices : ℕ) (old : ℕ → A) : ℕ → A :=
  (List.range numVertices).foldl (fun a newId => Function.update a newId (old (newToOld newId)))
    old

/-- The variables of the loop that reorders labels and weights. -/
structure EdgeData (W : Type) where
  edgeLabel : ℕ → ℤ
  edgeWeight : ℕ → W
  offset : ℕ

/-- One turn of that loop.  Its buffers have `max_degree` cells; a longer row would be written past
their end. -/
def sortEdgeData (isEdgeLabeled isEdgeWeighted : Bool) (maxDegree : ℕ) (degree adj : ℕ → ℕ)
    (s : EdgeData W) (newId : ℕ) : Option (EdgeData W) :=
  if degree newId ≤ maxDegree then
    let index := sortIndex (fun i => adj (s.offset + i)) (degree newId)
    some
      { edgeLabel :=
          if isEdgeLabeled then
            overwrite s.edgeLabel s.offset (index.map fun i => s.edgeLabel (s.offset + i))
          else s.edgeLabel
        edgeWeight :=
          if isEdgeWeighted then
            overwrite s.edgeWeight s.offset (index.map fun i => s.edgeWeight (s.offset + i))
          else s.edgeWeight
        offset := s.offset + degree newId }
  else none

/-- The last loop: the next offset, then the row between the two offsets is sorted. -/
def sortNeighbors (degree : ℕ → ℕ) (offset adj : ℕ → ℕ) (numVertices : ℕ) : (ℕ → ℕ) × (ℕ → ℕ) :=
  (List.range numVertices).foldl (fun s newId =>
    let offset := Function.update s.1 (newId + 1) (degree newId + s.1 newId)
    (offset, overwrite s.2 (offset newId)
      (sort (slice s.2 (offset newId) (offset (newId + 1) - offset newId)))))
    (Function.update offset 0 0, adj)

namespace Graph

/-- `degree_` after the loop over the vertices. -/
def newDegree (g : Graph W) (newToOld : ℕ → ℕ) : ℕ → ℕ :=
  permuteVertices newToOld g.numVertices g.degree

/-- A loop over the old rows in the new order, which copies `value` to the array `f`. -/
def gatherEdges {A : Type} (g : Graph W) (newToOld : ℕ → ℕ) (value f : ℕ → A) : ℕ → A :=
  (gatherRows (fun newId => g.offset (newToOld newId)) (g.newDegree newToOld) value
    g.numVertices f).1

/-- `adj_` after its loop: the old rows with the new numbers, not yet sorted. -/
def gatheredAdj (g : Graph W) (newToOld : ℕ → ℕ) : ℕ → ℕ :=
  g.gatherEdges newToOld (fun i => oldToNew newToOld g.numVertices (g.adj i)) g.adj

/-- The labels and weights of the edges after their loops. -/
def edgeData (g : Graph W) (newToOld : ℕ → ℕ) : Option (EdgeData W) :=
  let s : EdgeData W :=
    { edgeLabel :=
        if g.isEdgeLabeled then g.gatherEdges newToOld g.edgeLabel g.edgeLabel else g.edgeLabel
      edgeWeight :=
        if g.isEdgeWeighted then g.gatherEdges newToOld g.edgeWeight g.edgeWeight
        else g.edgeWeight
      offset := 0 }
  if g.isEdgeLabeled || g.isEdgeWeighted then
    (List.range g.numVertices).foldlM
      (sortEdgeData g.isEdgeLabeled g.isEdgeWeighted g.maxDegree (g.newDegree newToOld)
        (g.gatheredAdj newToOld)) s
  else some s

/-- `relabel`; no result when a row does not fit into the buffers. -/
def relabel (g : Graph W) (newToOld : ℕ → ℕ) : Option (Graph W) :=
  let n := g.numVertices
  let degree := g.newDegree newToOld
  (g.edgeData newToOld).map fun data =>
    let csr := sortNeighbors degree g.offset (g.gatheredAdj newToOld) n
    { g with
      degree
      vertexLabel :=
        if g.isVertexLabeled then permuteVertices newToOld n g.vertexLabel else g.vertexLabel
      vertexWeight :=
        if g.isVertexWeighted then permuteVertices newToOld n g.vertexWeight else g.vertexWeight
      edgeLabel := data.edgeLabel
      edgeWeight := data.edgeWeight
      offset := csr.1
      adj := csr.2 }

end Graph

/-! ## What each pass leaves -/

section Passes

variable {newToOld : ℕ → ℕ} {n : ℕ}

/-- The first loop inverts the permutation. -/
theorem oldToNew_newToOld (hinj : Set.InjOn newToOld (Set.Iio n)) {v : ℕ} (hv : v < n) :
    oldToNew newToOld n (newToOld v) = v :=
  foldl_update_inverse hinj _ hv

/-- The old number of the new number of an old vertex. -/
theorem newToOld_oldToNew (hperm : Set.BijOn newToOld (Set.Iio n) (Set.Iio n)) {w : ℕ}
    (hw : w < n) : oldToNew newToOld n w < n ∧ newToOld (oldToNew newToOld n w) = w := by
  obtain ⟨v, hv, rfl⟩ := hperm.surjOn (Set.mem_Iio.mpr hw)
  rw [oldToNew_newToOld hperm.injOn (Set.mem_Iio.mp hv)]
  exact ⟨Set.mem_Iio.mp hv, rfl⟩

theorem permuteVertices_apply {A : Type} (old : ℕ → A) {v : ℕ} (hv : v < n) :
    permuteVertices newToOld n old v = old (newToOld v) := by
  unfold permuteVertices
  rw [foldl_update_range, if_pos hv]

variable {degree adj : ℕ → ℕ}

/-- The row of labels or weights of vertex `v`, in the order of the row of `adj`. -/
def sortedRow {A : Type} (degree adj : ℕ → ℕ) (v : ℕ) (f : ℕ → A) : List A :=
  (sortIndex (fun i => adj (starts degree v + i)) (degree v)).map fun i => f (starts degree v + i)

theorem sortedRow_rowwise {A : Type} (order : List ℕ) :
    Rowwise degree (sortedRow (A := A) degree adj) order where
  length_eq v _ f := by simp [sortedRow]
  congr v _ f f' h := by
    apply List.map_congr_left
    intro i hi
    have hi : i < degree v := mem_sortIndex.mp hi
    exact cell_eq_of_slice_eq h hi

theorem sortRow_rowwise (order : List ℕ) :
    Rowwise degree (fun v f => sort (slice f (starts degree v) (degree v))) order where
  length_eq v _ f := by simp
  congr v _ f f' h := congrArg sort h

theorem rewriteRows_succ {A : Type} (base : ℕ → ℕ) (g : ℕ → (ℕ → A) → List A) (n : ℕ)
    (f : ℕ → A) : rewriteRows base g (List.range (n + 1)) f =
      overwrite (rewriteRows base g (List.range n) f) (base n)
        (g n (rewriteRows base g (List.range n) f)) := by
  unfold rewriteRows
  rw [List.range_succ, List.foldl_append]
  rfl

/-- When the rows fit into the buffers, every row of labels and of weights is brought into the order
of its entries. -/
theorem sortEdges_eq {isEdgeLabeled isEdgeWeighted : Bool} {maxDegree : ℕ} (edgeLabel : ℕ → ℤ)
    (edgeWeight : ℕ → W) (hmax : ∀ v < n, degree v ≤ maxDegree) :
    (List.range n).foldlM (sortEdgeData isEdgeLabeled isEdgeWeighted maxDegree degree adj)
        ⟨edgeLabel, edgeWeight, 0⟩ =
      some
        { edgeLabel :=
            if isEdgeLabeled then
              rewriteRows (starts degree) (sortedRow degree adj) (List.range n) edgeLabel
            else edgeLabel
          edgeWeight :=
            if isEdgeWeighted then
              rewriteRows (starts degree) (sortedRow degree adj) (List.range n) edgeWeight
            else edgeWeight
          offset := starts degree n } := by
  induction n with
  | zero => cases isEdgeLabeled <;> cases isEdgeWeighted <;> rfl
  | succ n ih =>
      have hlow := ih fun v hv => hmax v (Nat.lt_succ_of_lt hv)
      rw [List.range_succ, List.foldlM_append, hlow, ← List.range_succ]
      simp only [List.foldlM_cons, List.foldlM_nil, Option.bind_eq_bind, Option.bind_some,
        sortEdgeData, if_pos (hmax n (Nat.lt_succ_self n)), Option.pure_def, rewriteRows_succ,
        starts_succ]
      cases isEdgeLabeled <;> cases isEdgeWeighted <;> rfl

/-- The last pass leaves the prefix sums of the degrees and sorts every row. -/
theorem sortNeighbors_eq (n : ℕ) (degree offset adj : ℕ → ℕ) :
    (∀ v ≤ n, (sortNeighbors degree offset adj n).1 v = starts degree v) ∧
    (sortNeighbors degree offset adj n).2 =
      rewriteRows (starts degree) (fun v f => sort (slice f (starts degree v) (degree v)))
        (List.range n) adj := by
  induction n with
  | zero =>
      constructor
      · intro v hv
        obtain rfl := Nat.le_zero.mp hv
        simp [sortNeighbors]
      · rfl
  | succ n ih =>
      obtain ⟨hoffset, hadj⟩ := ih
      have hstep : sortNeighbors degree offset adj (n + 1) =
          let s := sortNeighbors degree offset adj n
          let offset := Function.update s.1 (n + 1) (degree n + s.1 n)
          (offset, overwrite s.2 (offset n)
            (sort (slice s.2 (offset n) (offset (n + 1) - offset n)))) := by
        unfold sortNeighbors
        rw [List.range_succ, List.foldl_append]
        rfl
      have hne : n ≠ n + 1 := by omega
      rw [hstep]
      dsimp only
      rw [Function.update_self, Function.update_of_ne hne, hoffset n le_rfl]
      constructor
      · intro v hv
        by_cases hvn : v = n + 1
        · subst hvn
          rw [Function.update_self, starts_succ, Nat.add_comm]
        · rw [Function.update_of_ne hvn]
          exact hoffset v (by omega)
      · rw [Nat.add_sub_cancel, hadj, rewriteRows_succ]

end Passes

/-! ## The rows of the result -/

/-- The positions of the old row of `newToOld v` in the order of their new numbers. -/
def rowOrder (g : Graph W) (newToOld : ℕ → ℕ) (v : ℕ) : List ℕ :=
  sortIndex (fun i => oldToNew newToOld g.numVertices (g.adj (g.offset (newToOld v) + i)))
    (g.degree (newToOld v))

/-- `g'` has the vertices of `g` in the new order, and its rows are the old rows, renumbered and
with labels and weights in their new order. -/
structure Relabelled (g g' : Graph W) (newToOld : ℕ → ℕ) : Prop where
  numVertices_eq : g'.numVertices = g.numVertices
  numEdges_eq : g'.numEdges = g.numEdges
  degree_eq : ∀ v < g.numVertices, g'.degree v = g.degree (newToOld v)
  offset_eq : ∀ v ≤ g.numVertices, g'.offset v = starts g'.degree v
  vertexLabel_eq : g.isVertexLabeled = true →
    ∀ v < g.numVertices, g'.vertexLabel v = g.vertexLabel (newToOld v)
  vertexWeight_eq : g.isVertexWeighted = true →
    ∀ v < g.numVertices, g'.vertexWeight v = g.vertexWeight (newToOld v)
  neighbors_eq : ∀ v < g.numVertices, g'.neighbors v = (rowOrder g newToOld v).map fun i =>
    oldToNew newToOld g.numVertices (g.adj (g.offset (newToOld v) + i))
  edgeLabel_eq : g.isEdgeLabeled = true → ∀ v < g.numVertices,
    slice g'.edgeLabel (g'.offset v) (g'.degree v) =
      (rowOrder g newToOld v).map fun i => g.edgeLabel (g.offset (newToOld v) + i)
  edgeWeight_eq : g.isEdgeWeighted = true → ∀ v < g.numVertices,
    slice g'.edgeWeight (g'.offset v) (g'.degree v) =
      (rowOrder g newToOld v).map fun i => g.edgeWeight (g.offset (newToOld v) + i)

section Result

variable {g : Graph W} {newToOld : ℕ → ℕ}

theorem newDegree_apply {v : ℕ} (hv : v < g.numVertices) :
    g.newDegree newToOld v = g.degree (newToOld v) :=
  permuteVertices_apply g.degree hv

/-- The rows of a gathered array. -/
theorem slice_gatherEdges {A : Type} (value f : ℕ → A) {v : ℕ} (hv : v < g.numVertices) :
    slice (g.gatherEdges newToOld value f) (starts (g.newDegree newToOld) v)
        (g.newDegree newToOld v) =
      slice value (g.offset (newToOld v)) (g.newDegree newToOld v) :=
  slice_gatherRows _ _ value hv f

/-- The positions of a gathered row are sorted like those of the old row. -/
theorem sortIndex_gatheredAdj {v : ℕ} (hv : v < g.numVertices) :
    sortIndex (fun i => g.gatheredAdj newToOld (starts (g.newDegree newToOld) v + i))
      (g.newDegree newToOld v) = rowOrder g newToOld v := by
  unfold rowOrder
  rw [← newDegree_apply hv]
  apply sortIndex_congr
  intro i hi
  exact cell_eq_of_slice_eq (slice_gatherEdges _ g.adj hv) hi

/-- The row of `adj_` in the end. -/
theorem sort_gatheredAdj {v : ℕ} (hv : v < g.numVertices) :
    sort (slice (g.gatheredAdj newToOld) (starts (g.newDegree newToOld) v)
        (g.newDegree newToOld v)) =
      (rowOrder g newToOld v).map fun i =>
        oldToNew newToOld g.numVertices (g.adj (g.offset (newToOld v) + i)) := by
  unfold rowOrder
  rw [map_sortIndex, ← newDegree_apply hv]
  exact congrArg sort (slice_gatherEdges _ g.adj hv)

/-- A row of labels or weights in the end. -/
theorem slice_sortedRow {A : Type} (value : ℕ → A) {v : ℕ} (hv : v < g.numVertices) :
    slice (rewriteRows (starts (g.newDegree newToOld))
        (sortedRow (g.newDegree newToOld) (g.gatheredAdj newToOld)) (List.range g.numVertices)
        (g.gatherEdges newToOld value value))
        (starts (g.newDegree newToOld) v) (g.newDegree newToOld v) =
      (rowOrder g newToOld v).map fun i => value (g.offset (newToOld v) + i) := by
  rw [slice_rewriteRows (sortedRow_rowwise _) List.nodup_range (List.mem_range.mpr hv)]
  unfold sortedRow
  rw [sortIndex_gatheredAdj hv]
  apply List.map_congr_left
  intro i hi
  have hi : i < g.newDegree newToOld v := by
    rw [newDegree_apply hv]
    exact mem_sortIndex.mp hi
  exact cell_eq_of_slice_eq (slice_gatherEdges value value hv) hi

/-- The labels and weights in the end, when the rows fit into the buffers. -/
theorem edgeData_eq (hmax : ∀ v < g.numVertices, g.newDegree newToOld v ≤ g.maxDegree) :
    ∃ offset, g.edgeData newToOld = some
      { edgeLabel :=
          if g.isEdgeLabeled then
            rewriteRows (starts (g.newDegree newToOld))
              (sortedRow (g.newDegree newToOld) (g.gatheredAdj newToOld))
              (List.range g.numVertices) (g.gatherEdges newToOld g.edgeLabel g.edgeLabel)
          else g.edgeLabel
        edgeWeight :=
          if g.isEdgeWeighted then
            rewriteRows (starts (g.newDegree newToOld))
              (sortedRow (g.newDegree newToOld) (g.gatheredAdj newToOld))
              (List.range g.numVertices) (g.gatherEdges newToOld g.edgeWeight g.edgeWeight)
          else g.edgeWeight
        offset } := by
  unfold Graph.edgeData
  dsimp only
  split
  · rw [sortEdges_eq _ _ hmax]
    refine ⟨starts (g.newDegree newToOld) g.numVertices, ?_⟩
    cases g.isEdgeLabeled <;> cases g.isEdgeWeighted <;> rfl
  · rename_i hflags
    refine ⟨0, ?_⟩
    have hlabel : g.isEdgeLabeled = false := by
      cases h : g.isEdgeLabeled <;> simp_all
    have hweight : g.isEdgeWeighted = false := by
      cases h : g.isEdgeWeighted <;> simp_all
    rw [hlabel, hweight]
    rfl

/-- With room in the buffers the function returns, and its result is the old graph row by row. -/
theorem relabel_spec (hg : g.WellFormed)
    (hperm : Set.BijOn newToOld (Set.Iio g.numVertices) (Set.Iio g.numVertices)) :
    ∃ g', g.relabel newToOld = some g' ∧ Relabelled g g' newToOld := by
  have hmax : ∀ v < g.numVertices, g.newDegree newToOld v ≤ g.maxDegree := by
    intro v hv
    rw [newDegree_apply hv]
    exact hg.degree_le _ (Set.mem_Iio.mp (hperm.mapsTo (Set.mem_Iio.mpr hv)))
  obtain ⟨offset, hdata⟩ := edgeData_eq hmax
  obtain ⟨hoffset, hadj⟩ := sortNeighbors_eq g.numVertices (g.newDegree newToOld) g.offset
    (g.gatheredAdj newToOld)
  refine ⟨_, by rw [Graph.relabel, hdata]; rfl, ?_⟩
  constructor
  · rfl
  · rfl
  · exact fun v hv => newDegree_apply hv
  · exact hoffset
  · intro hlabel v hv
    dsimp only
    rw [if_pos hlabel]
    exact permuteVertices_apply g.vertexLabel hv
  · intro hweight v hv
    dsimp only
    rw [if_pos hweight]
    exact permuteVertices_apply g.vertexWeight hv
  · intro v hv
    unfold Csr.neighbors
    dsimp only
    rw [hoffset v hv.le, hadj, slice_rewriteRows (sortRow_rowwise _) List.nodup_range
      (List.mem_range.mpr hv)]
    exact sort_gatheredAdj hv
  · intro hlabel v hv
    dsimp only
    rw [if_pos hlabel, hoffset v hv.le]
    exact slice_sortedRow g.edgeLabel hv
  · intro hweight v hv
    dsimp only
    rw [if_pos hweight, hoffset v hv.le]
    exact slice_sortedRow g.edgeWeight hv

/-! ## The image under the permutation -/

/-- A permutation of the rows keeps their total length. -/
theorem starts_perm {d : ℕ → ℕ} {n : ℕ} (hperm : Set.BijOn newToOld (Set.Iio n) (Set.Iio n)) :
    starts d n = starts (fun v => d (newToOld v)) n := by
  unfold starts
  refine (Finset.sum_nbij newToOld ?_ ?_ ?_ fun _ _ => rfl).symm
  · intro v hv
    exact Finset.mem_range.mpr (hperm.mapsTo (Finset.mem_range.mp hv))
  · simpa using hperm.injOn
  · simpa using hperm.surjOn

theorem mem_rowOrder {v i : ℕ} : i ∈ rowOrder g newToOld v ↔ i < g.degree (newToOld v) :=
  mem_sortIndex

variable {g' : Graph W}

/-- The members of a row are the new numbers of the old neighbours. -/
theorem Relabelled.mem_neighbors (h : Relabelled g g' newToOld) {x y : ℕ}
    (hx : x < g.numVertices) : y ∈ g'.neighbors x ↔
      ∃ w ∈ g.neighbors (newToOld x), oldToNew newToOld g.numVertices w = y := by
  rw [h.neighbors_eq x hx]
  simp only [List.mem_map, mem_rowOrder, Csr.neighbors, mem_slice]
  constructor
  · rintro ⟨i, hi, rfl⟩
    exact ⟨_, ⟨i, hi, rfl⟩, rfl⟩
  · rintro ⟨_, ⟨i, hi, rfl⟩, rfl⟩
    exact ⟨i, hi, rfl⟩

section Permutation

variable (hg : g.WellFormed)
  (hperm : Set.BijOn newToOld (Set.Iio g.numVertices) (Set.Iio g.numVertices))
  (h : Relabelled g g' newToOld)

include hg hperm h

/-- Renumbering keeps the neighbours. -/
theorem Relabelled.neighbor_iff {x y : ℕ} (hx : x < g.numVertices) (hy : y < g.numVertices) :
    y ∈ g'.neighbors x ↔ newToOld y ∈ g.neighbors (newToOld x) := by
  have hold : newToOld x < g.numVertices := Set.mem_Iio.mp (hperm.mapsTo (Set.mem_Iio.mpr hx))
  rw [h.mem_neighbors hx]
  constructor
  · rintro ⟨w, hw, rfl⟩
    rwa [(newToOld_oldToNew hperm (hg.neighbor_lt _ hold w hw)).2]
  · intro hmem
    exact ⟨newToOld y, hmem, oldToNew_newToOld hperm.injOn hy⟩

/-- The image is well formed. -/
theorem Relabelled.wellFormed : g'.toCsr.WellFormed := by
  have hold : ∀ {x}, x < g.numVertices → newToOld x < g.numVertices :=
    fun hx => Set.mem_Iio.mp (hperm.mapsTo (Set.mem_Iio.mpr hx))
  constructor
  · intro v hv
    rw [h.numVertices_eq] at hv
    rw [h.neighbors_eq v hv]
    unfold rowOrder
    rw [map_sortIndex]
    apply sort_pairwise_lt
    -- the old row has no repetition, and the new numbers of its entries are distinct
    have hnodup : (g.neighbors (newToOld v)).Nodup :=
      (hg.ascending _ (hold hv)).imp ne_of_lt
    have hmap : (g.neighbors (newToOld v)).map (oldToNew newToOld g.numVertices) = _ :=
      List.map_map
    refine hmap ▸ hnodup.map_on ?_
    intro a ha b hb hab
    have hab := congrArg newToOld hab
    rwa [(newToOld_oldToNew hperm (hg.neighbor_lt _ (hold hv) a ha)).2,
      (newToOld_oldToNew hperm (hg.neighbor_lt _ (hold hv) b hb)).2] at hab
  · intro v hv y hy
    rw [h.numVertices_eq] at hv ⊢
    obtain ⟨w, hw, rfl⟩ := (h.mem_neighbors hv).mp hy
    exact (newToOld_oldToNew hperm (hg.neighbor_lt _ (hold hv) w hw)).1
  · intro v hv
    rw [h.numVertices_eq] at hv
    exact h.offset_eq v hv
  · rw [h.numEdges_eq, h.numVertices_eq, hg.numEdges_eq, starts_perm hperm]
    exact starts_congr fun v hv => (h.degree_eq v hv).symm

/-- The label and the weight of an edge are found where its new row has it. -/
theorem Relabelled.edge_data {x i : ℕ} (hx : x < g.numVertices) (hi : i < g'.degree x) :
    ∃ j < g.degree (newToOld x),
      g.adj (g.offset (newToOld x) + j) = newToOld (g'.adj (g'.offset x + i)) ∧
      (g.isEdgeLabeled = true →
        g'.edgeLabel (g'.offset x + i) = g.edgeLabel (g.offset (newToOld x) + j)) ∧
      (g.isEdgeWeighted = true →
        g'.edgeWeight (g'.offset x + i) = g.edgeWeight (g.offset (newToOld x) + j)) := by
  have hold : newToOld x < g.numVertices := Set.mem_Iio.mp (hperm.mapsTo (Set.mem_Iio.mpr hx))
  have hlen : i < (rowOrder g newToOld x).length := by
    unfold rowOrder
    rw [length_sortIndex, ← h.degree_eq x hx]
    exact hi
  -- all three rows are read in the order `rowOrder`, so one old position serves them all
  have hj : (rowOrder g newToOld x)[i] < g.degree (newToOld x) :=
    mem_rowOrder.mp (List.getElem_mem hlen)
  refine ⟨(rowOrder g newToOld x)[i], hj, ?_, ?_, ?_⟩
  · have hcell := cell_of_slice_eq_map (h.neighbors_eq x hx) hi hlen
    rw [hcell, (newToOld_oldToNew hperm (hg.neighbor_lt _ hold _ (mem_slice.mpr ⟨_, hj, rfl⟩))).2]
  · intro hlabel
    exact cell_of_slice_eq_map (h.edgeLabel_eq hlabel x hx) hi hlen
  · intro hweight
    exact cell_of_slice_eq_map (h.edgeWeight_eq hweight x hx) hi hlen

/-- The undirected graph on the new numbers. -/
def relabelledGraph (G : SimpleGraph ℕ) (newToOld : ℕ → ℕ) (n : ℕ) : SimpleGraph ℕ where
  Adj x y := x < n ∧ y < n ∧ G.Adj (newToOld x) (newToOld y)
  symm := ⟨fun _ _ h => ⟨h.2.1, h.1, h.2.2.symm⟩⟩
  loopless := ⟨fun _ h => h.2.2.ne rfl⟩

/-- An undirected graph stays one. -/
theorem Relabelled.represents {G : SimpleGraph ℕ} (hG : g.toCsr.Represents G) :
    g'.toCsr.Represents (relabelledGraph G newToOld g.numVertices) := by
  have hwf := h.wellFormed hg hperm
  constructor
  · exact hwf.ascending
  · intro v hv w
    have hvn : v < g.numVertices := h.numVertices_eq ▸ hv
    have hold : newToOld v < g.numVertices :=
      Set.mem_Iio.mp (hperm.mapsTo (Set.mem_Iio.mpr hvn))
    constructor
    · intro hw
      have hwn : w < g.numVertices := h.numVertices_eq ▸ hwf.neighbor_lt v hv w hw
      have hmem := (h.neighbor_iff hg hperm hvn hwn).mp hw
      exact ⟨hvn, hwn, (hG.neighbor_iff _ hold _).mp hmem⟩
    · rintro ⟨-, hwn, hadj⟩
      exact (h.neighbor_iff hg hperm hvn hwn).mpr ((hG.neighbor_iff _ hold _).mpr hadj)
  · exact fun v w hvw => h.numVertices_eq.symm ▸ hvw.1
  · exact hwf.offset_eq
  · exact hwf.numEdges_eq

end Permutation

end Result

/-- For every well-formed graph and every permutation of its vertices, `relabel` returns the image
of the graph: degrees, labels and weights of the vertices move with their vertex, the new vertices
`x` and `y` are neighbours exactly when their old ones were, the rows are ascending, the offsets are
the prefix sums of the degrees, and the label and weight beside the entry of an edge are those
beside the entry of the old edge. -/
theorem relabel_isomorphism (g : Graph W) (newToOld : ℕ → ℕ) (hg : g.WellFormed)
    (hperm : Set.BijOn newToOld (Set.Iio g.numVertices) (Set.Iio g.numVertices)) :
    ∃ g', g.relabel newToOld = some g' ∧
      g'.numVertices = g.numVertices ∧ g'.numEdges = g.numEdges ∧
      (∀ v < g.numVertices,
        g'.degree v = g.degree (newToOld v) ∧
        (g.isVertexLabeled = true → g'.vertexLabel v = g.vertexLabel (newToOld v)) ∧
        (g.isVertexWeighted = true → g'.vertexWeight v = g.vertexWeight (newToOld v))) ∧
      (∀ x < g.numVertices, ∀ y < g.numVertices,
        (y ∈ g'.neighbors x ↔ newToOld y ∈ g.neighbors (newToOld x))) ∧
      (∀ x < g.numVertices, ∀ y ∈ g'.neighbors x, y < g.numVertices) ∧
      (∀ x < g.numVertices, (g'.neighbors x).Pairwise (· < ·)) ∧
      (∀ x ≤ g.numVertices, g'.offset x = starts g'.degree x) ∧
      (∀ x < g.numVertices, ∀ i < g'.degree x, ∃ j < g.degree (newToOld x),
        g.adj (g.offset (newToOld x) + j) = newToOld (g'.adj (g'.offset x + i)) ∧
        (g.isEdgeLabeled = true →
          g'.edgeLabel (g'.offset x + i) = g.edgeLabel (g.offset (newToOld x) + j)) ∧
        (g.isEdgeWeighted = true →
          g'.edgeWeight (g'.offset x + i) = g.edgeWeight (g.offset (newToOld x) + j))) := by
  obtain ⟨g', hrun, h⟩ := relabel_spec hg hperm
  have hwf := h.wellFormed hg hperm
  have hn := h.numVertices_eq
  refine ⟨g', hrun, hn, h.numEdges_eq, ?_, ?_, ?_, ?_, h.offset_eq, ?_⟩
  · intro v hv
    exact ⟨h.degree_eq v hv, fun hl => h.vertexLabel_eq hl v hv,
      fun hw => h.vertexWeight_eq hw v hv⟩
  · exact fun x hx y hy => h.neighbor_iff hg hperm hx hy
  · exact fun x hx y hy => hn ▸ hwf.neighbor_lt x (hn.symm ▸ hx) y hy
  · exact fun x hx => hwf.ascending x (hn.symm ▸ hx)
  · exact fun x hx i hi => h.edge_data hg hperm hx hi

/-- A path of three vertices, with the labels and weights of its edges beside the entries. -/
def pathGraph : Graph ℕ where
  numVertices := 3
  numEdges := 4
  offset v := [0, 1, 3, 4].getD v 0
  degree v := [1, 2, 1].getD v 0
  adj i := [1, 0, 2, 1].getD i 0
  isVertexLabeled := true
  isVertexWeighted := true
  isEdgeLabeled := true
  isEdgeWeighted := true
  isEdgeWeightPrefixSummed := true
  isEdgeWeightAliasGenerated := false
  isEdgeWeightRejectionGenerated := true
  isOffsetPair := true
  nodeWithMaxDegree := 1
  maxDegree := 2
  vertexLabel v := [7, 8, 9].getD v 0
  vertexWeight v := [1, 2, 3].getD v 0
  edgeLabel i := [4, 4, 5, 5].getD i 0
  edgeWeight i := [10, 10, 20, 20].getD i 0
  edgeWeightPrefixSum i := [10, 10, 30, 20].getD i 0
  offsetPair v := [(0, 1), (1, 3), (3, 4)].getD v (0, 0)
  edgeWeightAliasTable _ := ⟨0, 0, 0⟩
  edgeWeightRejectionMax v := [10, 20, 20].getD v 0

/-- The new numbers 0, 1 and 2 stand for the old numbers 1, 2 and 0. -/
def rotation (v : ℕ) : ℕ := (v + 1) % 3

theorem pathGraph_wellFormed : pathGraph.WellFormed where
  ascending := by decide
  neighbor_lt := by decide
  offset_eq := by decide
  numEdges_eq := by decide
  degree_le := by decide

theorem rotation_bijOn : Set.BijOn rotation (Set.Iio 3) (Set.Iio 3) := by
  refine ⟨fun v _ => ?_, fun v hv w hw h => ?_, fun w hw => ⟨(w + 2) % 3, ?_, ?_⟩⟩
  · exact Nat.mod_lt _ (by omega)
  · simp only [Set.mem_Iio, rotation] at *
    omega
  · exact Nat.mod_lt _ (by omega)
  · simp only [Set.mem_Iio, rotation] at *
    omega

/-- The path, renumbered. -/
theorem relabel_isomorphism_path :
    ∃ g', pathGraph.relabel rotation = some g' ∧ g'.numVertices = 3 ∧
      (∀ v < 3, g'.degree v = pathGraph.degree (rotation v)) ∧
      ∀ x < 3, ∀ y < 3, y ∈ g'.neighbors x ↔ rotation y ∈ pathGraph.neighbors (rotation x) := by
  obtain ⟨g', hrun, hn, -, hvertex, hadj, -⟩ :=
    relabel_isomorphism pathGraph rotation pathGraph_wellFormed rotation_bijOn
  exact ⟨g', hrun, hn, fun v hv => (hvertex v hv).1, hadj⟩

end RidgeWalker.Host
