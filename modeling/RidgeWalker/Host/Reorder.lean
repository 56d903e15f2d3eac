import RidgeWalker.Host.Slices
import RidgeWalker.Host.Sorting

/-!
# Ordering the vertices by degree

The tool `graph_reorder` reads a list of edges, numbers the vertices anew in the descending order of
their degrees and saves the rows of the renumbered graph.  The degrees are counted while the edges
are read; only afterwards, when the rows are built, are repeated neighbours removed.

Main results:

- Theorem `mem_outVid`, `length_outVid`: what the reading loop collects and counts.
- Theorem `map_pairwise`: the new order of the vertices.
- Theorem `row_eq`: the saved rows.
- Theorem `degree_reordering`: the renumbering is an isomorphism, and the saved degrees descend
  exactly when repeated edges do not upset the order.
-/

namespace RidgeWalker.Reorder

open Slices Sorting

/-! ## Reading the edges -/

/-- `getMaxIdx`; a list without edges has no first entry. -/
def getMaxIdx : List (ℕ × ℕ) → ℕ
  | [] => 0
  | e :: data => (e :: data).foldl (fun maxIdx e =>
      let maxIdx := if maxIdx ≤ e.1 then e.1 else maxIdx
      if maxIdx ≤ e.2 then e.2 else maxIdx) e.1

/-- The members of `Vertex` for all vertices. -/
structure Vertices where
  outVid : ℕ → List ℕ
  inVid : ℕ → List ℕ

/-- `vertices[src]->outVid.push_back(dst); vertices[dst]->inVid.push_back(src);`. -/
def Vertices.push (s : Vertices) (src dst : ℕ) : Vertices where
  outVid := Function.update s.outVid src (s.outVid src ++ [dst])
  inVid := Function.update s.inVid dst (s.inVid dst ++ [src])

/-- One turn of the reading loop; every graph is taken to be undirected. -/
def Vertices.addEdge (s : Vertices) (e : ℕ × ℕ) : Vertices :=
  let s := s.push e.1 e.2
  if e.1 ≠ e.2 then s.push e.2 e.1 else s

/-- The vertices after the loop. -/
def readEdges (data : List (ℕ × ℕ)) : Vertices :=
  data.foldl Vertices.addEdge ⟨fun _ => [], fun _ => []⟩

/-! ## The new numbers -/

/-- `sort_indexes`: the positions below `n` in the descending order of `v`, equal ones in their
order. -/
def sortIndexes (v : ℕ → ℕ) (n : ℕ) : List ℕ :=
  (List.range n).mergeSort fun i1 i2 => !decide (v i2 > v i1)

/-- The class `Graph` of the tool. -/
structure Graph where
  vertexNum : ℕ
  vertices : Vertices
  outDeg : ℕ → ℕ
  map : ℕ → ℕ
  remap : ℕ → ℕ

/-- The constructor of `Graph`. -/
def Graph.ofEdges (data : List (ℕ × ℕ)) : Graph :=
  let vertexNum := getMaxIdx data + 1
  let vertices := readEdges data
  let outDeg := fun v => (vertices.outVid v).length
  let index := sortIndexes outDeg vertexNum
  let map := fun i => index.getD i 0
  { vertexNum
    vertices
    outDeg
    map
    remap := (List.range vertexNum).foldl (fun remap i => Function.update remap (map i) i)
      fun _ => 0 }

/-! ## The rows -/

/-- `std::sort`, then `std::unique` and `erase`. -/
def unique (vid : List ℕ) : List ℕ := (sort vid).destutter (· ≠ ·)

/-- The loop of the constructor of `CSR` for the neighbours `vid`: row pointers and columns. -/
def buildRows (g : Graph) (vid : ℕ → List ℕ) (n : ℕ) : (ℕ → ℕ) × List ℕ :=
  (List.range n).foldl (fun s i =>
    let row := unique (vid (g.map i))
    (Function.update s.1 (i + 1) (s.1 i + row.length), s.2 ++ row.map g.remap)) (fun _ => 0, [])

/-- The class `CSR` of the tool. -/
structure Csr where
  vertexNum : ℕ
  edgeNum : ℕ
  rpao : ℕ → ℕ
  ciao : List ℕ
  rpai : ℕ → ℕ
  ciai : List ℕ

/-- The constructor of `CSR`. -/
def Csr.ofGraph (g : Graph) : Csr :=
  let out := buildRows g g.vertices.outVid g.vertexNum
  let in_ := buildRows g g.vertices.inVid g.vertexNum
  { vertexNum := g.vertexNum
    edgeNum := out.2.length + in_.2.length
    rpao := out.1
    ciao := out.2
    rpai := in_.1
    ciai := in_.2 }

/-- The degree of vertex `i` in the saved files. -/
def Csr.outDegree (c : Csr) (i : ℕ) : ℕ := c.rpao (i + 1) - c.rpao i

/-- The row of vertex `i` in the saved files. -/
def Csr.row (c : Csr) (i : ℕ) : List ℕ :=
  slice (fun k => c.ciao.getD k 0) (c.rpao i) (c.outDegree i)

/-! ## What the loops leave -/

/-- No edge names a vertex above the largest index. -/
theorem le_getMaxIdx {data : List (ℕ × ℕ)} {e : ℕ × ℕ} (he : e ∈ data) :
    e.1 ≤ getMaxIdx data ∧ e.2 ≤ getMaxIdx data := by
  have hfold : ∀ (l : List (ℕ × ℕ)) (m : ℕ),
      let top := l.foldl (fun maxIdx e =>
        let maxIdx := if maxIdx ≤ e.1 then e.1 else maxIdx
        if maxIdx ≤ e.2 then e.2 else maxIdx) m
      m ≤ top ∧ ∀ e ∈ l, e.1 ≤ top ∧ e.2 ≤ top := by
    intro l
    induction l with
    | nil => simp
    | cons d l ih =>
        intro m
        obtain ⟨hm, hl⟩ := ih
          (let maxIdx := if m ≤ d.1 then d.1 else m
          if maxIdx ≤ d.2 then d.2 else maxIdx)
        dsimp only [List.foldl_cons] at hm hl ⊢
        refine ⟨?_, fun e he => ?_⟩
        · split_ifs at hm ⊢ <;> omega
        · rcases List.mem_cons.mp he with rfl | he
          · split_ifs at hm ⊢ <;> omega
          · exact hl e he
  cases data with
  | nil => simp at he
  | cons d data => exact (hfold (d :: data) d.1).2 e he

/-- The two directions of an edge. -/
def Joins (data : List (ℕ × ℕ)) (v w : ℕ) : Prop := (v, w) ∈ data ∨ (w, v) ∈ data

instance (data : List (ℕ × ℕ)) (v w : ℕ) : Decidable (Joins data v w) :=
  inferInstanceAs (Decidable (_ ∨ _))

/-- How often the edges name a vertex. -/
def mentions (data : List (ℕ × ℕ)) (v : ℕ) : ℕ :=
  data.countP fun e => decide (e.1 = v ∨ e.2 = v)

/-- One turn of the loop appends the other end of the edge to both rows. -/
theorem outVid_addEdge (s : Vertices) (e : ℕ × ℕ) (v : ℕ) : (s.addEdge e).outVid v =
    s.outVid v ++
      if e.1 = v then [e.2] else if e.2 = v then [e.1] else [] := by
  obtain ⟨src, dst⟩ := e
  unfold Vertices.addEdge Vertices.push
  dsimp only
  by_cases hloop : src = dst
  · subst hloop
    by_cases hv : src = v
    · subst hv
      simp
    · simp [hv, Function.update_of_ne (Ne.symm hv)]
  · rw [if_pos hloop]
    by_cases hsrc : src = v
    · subst hsrc
      simp [Function.update_of_ne hloop]
    · by_cases hdst : dst = v
      · subst hdst
        simp [Function.update_of_ne (Ne.symm hloop), hsrc]
      · simp [hsrc, hdst, Function.update_of_ne (Ne.symm hsrc),
          Function.update_of_ne (Ne.symm hdst)]

theorem readEdges_concat (data : List (ℕ × ℕ)) (e : ℕ × ℕ) :
    readEdges (data ++ [e]) = (readEdges data).addEdge e := by
  simp [readEdges]

/-- The row of a vertex names the other ends of its edges. -/
theorem mem_outVid {data : List (ℕ × ℕ)} {v w : ℕ} :
    w ∈ (readEdges data).outVid v ↔ Joins data v w := by
  induction data using List.reverseRecOn with
  | nil => simp [readEdges, Joins]
  | append_singleton data e ih =>
      obtain ⟨src, dst⟩ := e
      rw [readEdges_concat, outVid_addEdge, List.mem_append, ih]
      unfold Joins
      simp only [List.mem_append, List.mem_singleton, Prod.mk.injEq]
      split_ifs <;> simp <;> grind

/-- The counted degree is the number of edges that name the vertex, repetitions included. -/
theorem length_outVid (data : List (ℕ × ℕ)) (v : ℕ) :
    ((readEdges data).outVid v).length = mentions data v := by
  induction data using List.reverseRecOn with
  | nil => rfl
  | append_singleton data e ih =>
      unfold mentions at ih ⊢
      rw [readEdges_concat, outVid_addEdge, List.length_append, ih, List.countP_append,
        List.countP_singleton]
      split_ifs <;> simp_all

/-! ## The order of the vertices -/

theorem sortIndexes_perm (v : ℕ → ℕ) (n : ℕ) : (sortIndexes v n).Perm (List.range n) :=
  List.mergeSort_perm ..

/-- Larger values come first, and of equal values the first position. -/
theorem sortIndexes_pairwise (v : ℕ → ℕ) (n : ℕ) :
    (sortIndexes v n).Pairwise fun i1 i2 => v i2 < v i1 ∨ v i1 = v i2 ∧ i1 < i2 := by
  have hstable : (sortIndexes v n).Pairwise fun i1 i2 =>
      (!decide (v i2 > v i1)) = true ∧ ((!decide (v i1 > v i2)) = true → i1 < i2) := by
    apply mergeSort_stable
    · intro a b c hab hbc
      simp only [Bool.not_eq_true', decide_eq_false_iff_not, not_lt] at hab hbc ⊢
      omega
    · intro a b
      simp only [Bool.or_eq_true, Bool.not_eq_true', decide_eq_false_iff_not, not_lt]
      omega
    · exact List.pairwise_lt_range
  refine hstable.imp ?_
  intro i1 i2 h
  simp only [Bool.not_eq_true', decide_eq_false_iff_not, not_lt] at h
  omega

/-- `u` comes before `v` in the new order. -/
def Before (data : List (ℕ × ℕ)) (u v : ℕ) : Prop :=
  mentions data v < mentions data u ∨ mentions data u = mentions data v ∧ u < v

instance (data : List (ℕ × ℕ)) (u v : ℕ) : Decidable (Before data u v) :=
  inferInstanceAs (Decidable (_ ∨ _))

section Numbers

variable (data : List (ℕ × ℕ))

/-- The number of vertices. -/
abbrev vertexCount : ℕ := getMaxIdx data + 1

theorem outDeg_eq (v : ℕ) : (Graph.ofEdges data).outDeg v = mentions data v :=
  length_outVid data v

/-- `map` reads the sorted positions. -/
theorem map_eq {i : ℕ} (hi : i < vertexCount data) :
    ∃ h : i < (sortIndexes (Graph.ofEdges data).outDeg (vertexCount data)).length,
      (Graph.ofEdges data).map i =
        (sortIndexes (Graph.ofEdges data).outDeg (vertexCount data))[i] := by
  have hlen : (sortIndexes (Graph.ofEdges data).outDeg (vertexCount data)).length =
      vertexCount data := by
    rw [(sortIndexes_perm _ _).length_eq, List.length_range]
  exact ⟨hlen.symm ▸ hi, List.getD_eq_getElem _ _ (hlen.symm ▸ hi)⟩

/-- The vertices stand in the new order. -/
theorem map_before {i j : ℕ} (hij : i < j) (hj : j < vertexCount data) :
    Before data ((Graph.ofEdges data).map i) ((Graph.ofEdges data).map j) := by
  obtain ⟨hi', hmapi⟩ := map_eq data (hij.trans hj)
  obtain ⟨hj', hmapj⟩ := map_eq data hj
  have hpair := List.pairwise_iff_getElem.mp
    (sortIndexes_pairwise (Graph.ofEdges data).outDeg (vertexCount data)) i j hi' hj' hij
  rw [hmapi, hmapj]
  simpa only [Before, outDeg_eq] using hpair

/-- `map` is a permutation of the vertices. -/
theorem map_bijOn : Set.BijOn (Graph.ofEdges data).map (Set.Iio (vertexCount data))
    (Set.Iio (vertexCount data)) := by
  have hperm := sortIndexes_perm (Graph.ofEdges data).outDeg (vertexCount data)
  refine ⟨?_, ?_, ?_⟩
  · intro i hi
    obtain ⟨hlen, hmap⟩ := map_eq data (Set.mem_Iio.mp hi)
    rw [hmap]
    exact Set.mem_Iio.mpr (List.mem_range.mp (hperm.mem_iff.mp (List.getElem_mem hlen)))
  · intro i hi j hj heq
    obtain ⟨hi', hmapi⟩ := map_eq data (Set.mem_Iio.mp hi)
    obtain ⟨hj', hmapj⟩ := map_eq data (Set.mem_Iio.mp hj)
    rw [hmapi, hmapj] at heq
    exact (hperm.nodup_iff.mpr List.nodup_range).getElem_inj_iff.mp heq
  · intro v hv
    have hmem := hperm.mem_iff.mpr (List.mem_range.mpr (Set.mem_Iio.mp hv))
    obtain ⟨i, hi, rfl⟩ := List.getElem_of_mem hmem
    have hin : i < vertexCount data := by
      rwa [hperm.length_eq, List.length_range] at hi
    exact ⟨i, Set.mem_Iio.mpr hin, (map_eq data hin).2⟩

/-- `remap` takes a vertex to its position in the new order. -/
theorem remap_map {i : ℕ} (hi : i < vertexCount data) :
    (Graph.ofEdges data).remap ((Graph.ofEdges data).map i) = i :=
  foldl_update_inverse (map_bijOn data).injOn _ hi

/-- Every vertex is found at its new number. -/
theorem map_remap {v : ℕ} (hv : v < vertexCount data) :
    (Graph.ofEdges data).remap v < vertexCount data ∧
      (Graph.ofEdges data).map ((Graph.ofEdges data).remap v) = v := by
  obtain ⟨i, hi, rfl⟩ := (map_bijOn data).surjOn (Set.mem_Iio.mpr hv)
  rw [remap_map data (Set.mem_Iio.mp hi)]
  exact ⟨Set.mem_Iio.mp hi, rfl⟩

/-- `remap` is a permutation too. -/
theorem remap_bijOn : Set.BijOn (Graph.ofEdges data).remap (Set.Iio (vertexCount data))
    (Set.Iio (vertexCount data)) := by
  refine ⟨?_, ?_, ?_⟩
  · intro v hv
    exact Set.mem_Iio.mpr (map_remap data (Set.mem_Iio.mp hv)).1
  · intro v hv w hw heq
    have hmap := congrArg (Graph.ofEdges data).map heq
    rwa [(map_remap data (Set.mem_Iio.mp hv)).2, (map_remap data (Set.mem_Iio.mp hw)).2] at hmap
  · intro i hi
    exact ⟨(Graph.ofEdges data).map i, (map_bijOn data).mapsTo hi, remap_map data (Set.mem_Iio.mp hi)⟩

end Numbers

/-! ## The saved rows -/

theorem unique_ascending (vid : List ℕ) : (unique vid).Pairwise (· < ·) :=
  unique_pairwise (sort_pairwise vid)

theorem mem_unique_iff {vid : List ℕ} {w : ℕ} : w ∈ unique vid ↔ w ∈ vid := by
  unfold unique
  rw [mem_unique, (sort_perm vid).mem_iff]

/-- The loop of the constructor: the row pointers are prefix sums, the columns the rows in turn. -/
theorem buildRows_eq (g : Graph) (vid : ℕ → List ℕ) (n : ℕ) :
    (∀ i ≤ n, (buildRows g vid n).1 i = starts (fun i => (unique (vid (g.map i))).length) i) ∧
    (buildRows g vid n).2 =
      (List.range n).flatMap fun i => (unique (vid (g.map i))).map g.remap := by
  unfold buildRows
  induction n with
  | zero =>
      constructor
      · intro i hi
        obtain rfl := Nat.le_zero.mp hi
        rfl
      · rfl
  | succ n ih =>
      obtain ⟨hptr, hcols⟩ := ih
      rw [List.range_succ, List.foldl_append, List.foldl_cons, List.foldl_nil]
      dsimp only
      constructor
      · intro i hi
        by_cases hin : i = n + 1
        · subst hin
          rw [Function.update_self, hptr n le_rfl, starts_succ]
        · rw [Function.update_of_ne hin]
          exact hptr i (by omega)
      · rw [hcols, List.flatMap_append]
        simp

section Rows

variable (data : List (ℕ × ℕ))

/-- The neighbours of a vertex, each once. -/
def distinct (v : ℕ) : List ℕ := unique ((readEdges data).outVid v)

/-- The length of the saved row of vertex `i`. -/
def rowLength (i : ℕ) : ℕ := (distinct data ((Graph.ofEdges data).map i)).length

theorem rpao_eq {i : ℕ} (hi : i ≤ vertexCount data) :
    (Csr.ofGraph (Graph.ofEdges data)).rpao i = starts (rowLength data) i :=
  (buildRows_eq (Graph.ofEdges data) (readEdges data).outVid (vertexCount data)).1 i hi

/-- The saved degree counts every neighbour once. -/
theorem outDegree_eq {i : ℕ} (hi : i < vertexCount data) :
    (Csr.ofGraph (Graph.ofEdges data)).outDegree i = rowLength data i := by
  unfold Csr.outDegree
  rw [rpao_eq data hi, rpao_eq data hi.le, starts_succ, Nat.add_sub_cancel_left]

/-- The saved row names the new numbers of the neighbours. -/
theorem row_eq {i : ℕ} (hi : i < vertexCount data) :
    (Csr.ofGraph (Graph.ofEdges data)).row i =
      (distinct data ((Graph.ofEdges data).map i)).map (Graph.ofEdges data).remap := by
  have hcols : (fun k => (Csr.ofGraph (Graph.ofEdges data)).ciao.getD k 0) =
      overwrite (fun _ => 0) 0 ((List.range (vertexCount data)).flatMap fun i =>
        (distinct data ((Graph.ofEdges data).map i)).map (Graph.ofEdges data).remap) := by
    funext k
    have hlist : (Csr.ofGraph (Graph.ofEdges data)).ciao = _ :=
      (buildRows_eq (Graph.ofEdges data) (readEdges data).outVid (vertexCount data)).2
    rw [hlist]
    simp [overwrite, distinct]
  unfold Csr.row
  rw [hcols, outDegree_eq data hi, rpao_eq data hi.le]
  exact slice_overwrite_flatMap _ (fun v _ => by simp [rowLength]) hi

theorem mem_distinct {v w : ℕ} : w ∈ distinct data v ↔ Joins data v w := by
  unfold distinct
  rw [mem_unique_iff, mem_outVid]

end Rows

/-! ## The result -/

/-- The ends of an edge are vertices. -/
theorem Joins.lt {data : List (ℕ × ℕ)} {v w : ℕ} (h : Joins data v w) :
    v < vertexCount data ∧ w < vertexCount data := by
  rcases h with h | h
  · exact ⟨Nat.lt_succ_of_le (le_getMaxIdx h).1, Nat.lt_succ_of_le (le_getMaxIdx h).2⟩
  · exact ⟨Nat.lt_succ_of_le (le_getMaxIdx h).2, Nat.lt_succ_of_le (le_getMaxIdx h).1⟩

/-- The saved rows are the symmetric closure of the edges under the permutation `remap`. -/
structure Isomorphic (data : List (ℕ × ℕ)) : Prop where
  remap_bijOn : Set.BijOn (Graph.ofEdges data).remap (Set.Iio (vertexCount data))
    (Set.Iio (vertexCount data))
  vertex_lt : ∀ v w, Joins data v w → v < vertexCount data ∧ w < vertexCount data
  mem_row : ∀ v < vertexCount data, ∀ w < vertexCount data,
    (Graph.ofEdges data).remap w ∈
      (Csr.ofGraph (Graph.ofEdges data)).row ((Graph.ofEdges data).remap v) ↔ Joins data v w
  row_nodup : ∀ i < vertexCount data, ((Csr.ofGraph (Graph.ofEdges data)).row i).Nodup
  row_lt : ∀ i < vertexCount data, ∀ j ∈ (Csr.ofGraph (Graph.ofEdges data)).row i,
    j < vertexCount data

/-- The saved degrees do not increase. -/
def Descending (data : List (ℕ × ℕ)) : Prop :=
  ∀ i j, i < j → j < vertexCount data →
    (Csr.ofGraph (Graph.ofEdges data)).outDegree j ≤ (Csr.ofGraph (Graph.ofEdges data)).outDegree i

/-- How many vertices an edge joins `v` with. -/
def neighborCount (data : List (ℕ × ℕ)) (v : ℕ) : ℕ :=
  ((Finset.range (vertexCount data)).filter fun w => Joins data v w).card

/-- A vertex that comes first because the edges name it more often, or as often under a smaller
number, has no fewer neighbours. -/
def RespectsDegrees (data : List (ℕ × ℕ)) : Prop :=
  ∀ u < vertexCount data, ∀ v < vertexCount data, Before data u v →
    neighborCount data v ≤ neighborCount data u

theorem length_distinct (data : List (ℕ × ℕ)) (v : ℕ) :
    (distinct data v).length = neighborCount data v := by
  have hnodup : (distinct data v).Nodup := (unique_ascending _).imp ne_of_lt
  have hset : (distinct data v).toFinset =
      (Finset.range (vertexCount data)).filter fun w => Joins data v w := by
    ext w
    rw [List.mem_toFinset, mem_distinct, Finset.mem_filter, Finset.mem_range]
    exact ⟨fun h => ⟨h.lt.2, h⟩, fun h => h.2⟩
  unfold neighborCount
  rw [← hset, List.toFinset_card_of_nodup hnodup]

/-- The renumbering is an isomorphism for every list. -/
theorem isomorphic (data : List (ℕ × ℕ)) : Isomorphic data := by
  have hmap : ∀ {i}, i < vertexCount data → (Graph.ofEdges data).map i < vertexCount data :=
    fun hi => Set.mem_Iio.mp ((map_bijOn data).mapsTo (Set.mem_Iio.mpr hi))
  have hinj := (remap_bijOn data).injOn
  constructor
  · exact remap_bijOn data
  · exact fun v w h => h.lt
  · intro v hv w hw
    obtain ⟨hnew, hold⟩ := map_remap data hv
    rw [row_eq data hnew, hold, List.mem_map]
    constructor
    · rintro ⟨w', hw', heq⟩
      have hjoin := (mem_distinct data).mp hw'
      rwa [hinj (Set.mem_Iio.mpr hjoin.lt.2) (Set.mem_Iio.mpr hw) heq] at hjoin
    · exact fun hjoin => ⟨w, (mem_distinct data).mpr hjoin, rfl⟩
  · intro i hi
    rw [row_eq data hi]
    refine List.Nodup.map_on ?_ ((unique_ascending _).imp ne_of_lt)
    intro v hv w hw heq
    exact hinj (Set.mem_Iio.mpr ((mem_distinct data).mp hv).lt.2)
      (Set.mem_Iio.mpr ((mem_distinct data).mp hw).lt.2) heq
  · intro i hi j hj
    rw [row_eq data hi] at hj
    obtain ⟨w, hw, rfl⟩ := List.mem_map.mp hj
    exact (map_remap data ((mem_distinct data).mp hw).lt.2).1

/-- No two vertices come before each other. -/
theorem Before.asymm {data : List (ℕ × ℕ)} {u v : ℕ} (h : Before data u v) :
    ¬ Before data v u := by
  unfold Before at h ⊢
  omega

/-- The saved degrees descend when, and only when, the order by counted degrees is one by the number
of neighbours too. -/
theorem descending_iff (data : List (ℕ × ℕ)) : Descending data ↔ RespectsDegrees data := by
  have hdegree : ∀ i < vertexCount data, (Csr.ofGraph (Graph.ofEdges data)).outDegree i =
      neighborCount data ((Graph.ofEdges data).map i) := by
    intro i hi
    rw [outDegree_eq data hi]
    exact length_distinct data _
  constructor
  · intro hdesc u hu v hv hbefore
    obtain ⟨hi, hmapu⟩ := map_remap data hu
    obtain ⟨hj, hmapv⟩ := map_remap data hv
    generalize (Graph.ofEdges data).remap u = i at hi hmapu
    generalize (Graph.ofEdges data).remap v = j at hj hmapv
    subst hmapu hmapv
    rcases Nat.lt_trichotomy i j with hij | rfl | hij
    · have hle := hdesc i j hij hj
      rwa [hdegree i hi, hdegree j hj] at hle
    · exact absurd hbefore hbefore.asymm
    · exact absurd hbefore (map_before data hij hi).asymm
  · intro hrespects i j hij hj
    have hi := hij.trans hj
    rw [hdegree i hi, hdegree j hj]
    exact hrespects _ (Set.mem_Iio.mp ((map_bijOn data).mapsTo (Set.mem_Iio.mpr hi))) _
      (Set.mem_Iio.mp ((map_bijOn data).mapsTo (Set.mem_Iio.mpr hj))) (map_before data hij hj)

end RidgeWalker.Reorder
