import RidgeWalker.Host.Csr
import RidgeWalker.Host.Tracing

/-!
# The loader of the accelerator

`acceleratorDataLoad` reads a graph as three files of row pointers and sources, drops the vertices
without outgoing edges together with the edges into them, numbers the others anew, and sizes the
chunks of every partition.  The counters are taken as unbounded integers.

Main results:

- Theorem `compressVertices_meets`: the new numbers are the positions among the kept vertices.
- Theorem `compressEdges_meets`: the kept edges, ordered by destination, under the new numbers.
- Theorem `acceleratorDataLoad_meets`: what is loaded, and that one access alone leaves its array.
- Theorem `past_rapo_mem`: this access is made for every graph.
-/

namespace RidgeWalker.Host

open Slices Tracing

/-! ## Arrays and parameters -/

/-- The arrays that the loader and `partitionFunction` index. -/
inductive HostArray
  | graphRapi
  | graphRapo
  | graphCiai
  | mappingVertexArray
  | vertexMapping
  | rpa
  | cia
  | destIndexList
  | chunkProp
  | chunkPropRow (p : ℕ)
  | chunkEdgeData
  | chunkEdgeDataRow (p : ℕ)
  | chunkEdges (p sp : ℕ)
  | edgeList
  | edgeListRow (p : ℕ)
deriving DecidableEq

/-- `PARTITION_SIZE`, `SUB_PARTITION_NUM` and `ALIGN_SIZE`. -/
structure PartitionConfig where
  partitionSize : ℕ
  subPartitionNum : ℕ
  alignSize : ℕ
  partitionSize_pos : 0 < partitionSize
  subPartitionNum_pos : 0 < subPartitionNum
  alignSize_pos : 0 < alignSize

/-- The contents of the three files, without the leading sizes. -/
structure GraphFiles where
  rapi : List ℤ
  rapo : List ℤ
  ciai : List ℤ

/-- `chunkInfo`. -/
structure ChunkInfo where
  edgeNumChunk : ℤ
  srcVertexNumChunk : ℤ
  destVertexNumChunk : ℤ

/-- The part of `graphInfo` that describes the graph and its chunks. -/
structure GraphInfo where
  vertexNum : ℕ
  edgeNum : ℕ
  compressedVertexNum : ℕ
  alignedCompressedVertexNum : ℕ
  compressedEdgeNum : ℕ
  outDeg : List ℤ
  vertexMapping : List ℤ
  outDegZeroIndex : List ℤ
  destIndexList : List ℤ
  rpa : List ℤ
  cia : List ℤ
  partitionNum : ℕ
  chunkProp : ℕ × ℕ → ChunkInfo
  chunkEdgeData : ℕ × ℕ → List ℤ

/-- The words that lie outside the arrays. -/
abbrev Beyond := HostArray → ℤ → ℤ

/-! ## The vertices -/

/-- The variables of the loop that drops vertices. -/
structure CompressLoop where
  mappingVertexArray : List ℤ
  outDeg : List ℤ
  vertexMapping : List ℤ
  outDegZeroIndex : List ℤ
  numMapped : ℕ
  numDeleted : ℕ

/-- One turn. -/
def CompressLoop.addVertex (beyond : Beyond) (graphRapo : List ℤ) (i : ℕ) (s : CompressLoop) :
    Traced HostArray CompressLoop := do
  let mapping ← write .mappingVertexArray s.mappingVertexArray i s.numMapped
  let next ← read beyond .graphRapo graphRapo (i + 1)
  let first ← read beyond .graphRapo graphRapo i
  let outdegTmp := next - first
  if outdegTmp > 0 then
    pure { s with
      mappingVertexArray := mapping
      outDeg := s.outDeg ++ [outdegTmp]
      vertexMapping := s.vertexMapping ++ [(i : ℤ)]
      numMapped := s.numMapped + 1 }
  else
    pure { s with
      mappingVertexArray := mapping
      outDegZeroIndex := s.outDegZeroIndex ++ [(i : ℤ)]
      numDeleted := s.numDeleted + 1 }

/-- The loop over `vertex_num` vertices, which is the number of row pointers.  The array of numbers
is new: its cells hold any words. -/
def compressVertices (beyond : Beyond) (graphRapo : List ℤ) : Traced HostArray CompressLoop :=
  let fresh := (List.range graphRapo.length).map fun i => beyond .mappingVertexArray i
  loop (CompressLoop.addVertex beyond graphRapo) graphRapo.length ⟨fresh, [], [], [], 0, 0⟩

/-! ## The edges -/

/-- The variables of the loop over the edges that stay. -/
structure CompressEdgeLoop where
  rpa : List ℤ
  cia : List ℤ
  destIndexList : List ℤ
  numCompressEdge : ℕ

/-- One turn of the inner loop. -/
def CompressEdgeLoop.addEdge (beyond : Beyond) (graphCiai mappingVertexArray : List ℤ) (bias : ℤ) (j k : ℕ)
    (s : CompressEdgeLoop) : Traced HostArray CompressEdgeLoop := do
  let source ← read beyond .graphCiai graphCiai (bias + k)
  let mapped ← read beyond .mappingVertexArray mappingVertexArray source
  pure { s with
    cia := s.cia ++ [mapped]
    destIndexList := s.destIndexList ++ [(j : ℤ)]
    numCompressEdge := s.numCompressEdge + 1 }

/-- One turn of the outer loop. -/
def CompressEdgeLoop.addRow (beyond : Beyond) (files : GraphFiles) (c : CompressLoop) (j : ℕ)
    (s : CompressEdgeLoop) : Traced HostArray CompressEdgeLoop := do
  let v ← read beyond .vertexMapping c.vertexMapping j
  let next ← read beyond .graphRapi files.rapi (v + 1)
  let first ← read beyond .graphRapi files.rapi v
  let inDegTmp := next - first
  let before ← read beyond .rpa s.rpa j
  let rpa ← write .rpa s.rpa (j + 1) (before + inDegTmp)
  let bias ← read beyond .graphRapi files.rapi v
  loop (CompressEdgeLoop.addEdge beyond files.ciai c.mappingVertexArray bias j) inDegTmp.toNat
    { s with rpa := rpa }

/-- The loop over the kept vertices. -/
def compressEdges (beyond : Beyond) (files : GraphFiles) (c : CompressLoop) :
    Traced HostArray CompressEdgeLoop := do
  let rpa ← write .rpa (List.replicate (c.numMapped + 1) 0) 0 0
  loop (CompressEdgeLoop.addRow beyond files c) c.numMapped ⟨rpa, [], [], 0⟩

/-! ## The sizes of the chunks -/

/-- The chunks of all partitions. -/
structure Chunks where
  chunkProp : ℕ × ℕ → ChunkInfo
  chunkEdgeData : ℕ × ℕ → List ℤ

/-- Replacing one chunk. -/
def Chunks.store (s : Chunks) (p sp : ℕ) (prop : ChunkInfo) (edgeData : List ℤ) : Chunks where
  chunkProp := Function.update s.chunkProp (p, sp) prop
  chunkEdgeData := Function.update s.chunkEdgeData (p, sp) edgeData

@[simp]
theorem Chunks.store_chunkProp (s : Chunks) (p sp : ℕ) (prop : ChunkInfo) (edgeData : List ℤ) :
    (s.store p sp prop edgeData).chunkProp (p, sp) = prop := Function.update_self ..

@[simp]
theorem Chunks.store_chunkEdgeData (s : Chunks) (p sp : ℕ) (prop : ChunkInfo)
    (edgeData : List ℤ) : (s.store p sp prop edgeData).chunkEdgeData (p, sp) = edgeData :=
  Function.update_self ..

/-- The other chunks stay. -/
theorem Chunks.store_of_ne (s : Chunks) {p sp : ℕ} (prop : ChunkInfo) (edgeData : List ℤ)
    {q : ℕ × ℕ} (h : q ≠ (p, sp)) :
    (s.store p sp prop edgeData).chunkProp q = s.chunkProp q ∧
    (s.store p sp prop edgeData).chunkEdgeData q = s.chunkEdgeData q :=
  ⟨Function.update_of_ne h .., Function.update_of_ne h ..⟩

namespace PartitionConfig

/-- The number of partitions of `n` vertices. -/
def partitionNum (cfg : PartitionConfig) (n : ℕ) : ℕ :=
  (n + cfg.partitionSize - 1) / cfg.partitionSize

/-- `vertex_index_start`. -/
def vertexIndexStart (cfg : PartitionConfig) (p : ℕ) : ℕ := p * cfg.partitionSize

/-- `vertex_index_end`. -/
def vertexIndexEnd (cfg : PartitionConfig) (n p : ℕ) : ℕ :=
  if (p + 1) * cfg.partitionSize > n then n else (p + 1) * cfg.partitionSize

/-- The length of a chunk of a partition with `edgeNum` edges. -/
def edgeNumTmp (cfg : PartitionConfig) (edgeNum : ℤ) : ℤ :=
  let perSub := (edgeNum + cfg.subPartitionNum - 1).tdiv cfg.subPartitionNum
  (perSub + cfg.alignSize - 1).tdiv cfg.alignSize * cfg.alignSize

end PartitionConfig

/-- The turn for one sub-partition. -/
def Chunks.allocate (cfg : PartitionConfig) (numMapped p : ℕ) (edgeNumTmp : ℤ) (sp : ℕ)
    (s : Chunks) : Traced HostArray Chunks := do
  touch .chunkProp p (cfg.partitionNum numMapped)
  touch (.chunkPropRow p) sp cfg.subPartitionNum
  touch .chunkEdgeData p (cfg.partitionNum numMapped)
  touch (.chunkEdgeDataRow p) sp cfg.subPartitionNum
  let vertices := cfg.vertexIndexEnd numMapped p - cfg.vertexIndexStart p
  pure (s.store p sp
    { s.chunkProp (p, sp) with
      edgeNumChunk := edgeNumTmp
      destVertexNumChunk := ((vertices + 1023) / 1024 * 1024 : ℕ) }
    (List.replicate (edgeNumTmp * 2).toNat 0))

/-- The turn for one partition. -/
def Chunks.allocatePartition (beyond : Beyond) (cfg : PartitionConfig) (numMapped : ℕ)
    (rpa : List ℤ) (p : ℕ) (s : Chunks) : Traced HostArray Chunks := do
  let last ← read beyond .rpa rpa (cfg.vertexIndexEnd numMapped p)
  let first ← read beyond .rpa rpa (cfg.vertexIndexStart p)
  loop (Chunks.allocate cfg numMapped p (cfg.edgeNumTmp (last - first))) cfg.subPartitionNum s

/-- The loop over the partitions. -/
def allocateChunks (beyond : Beyond) (cfg : PartitionConfig) (numMapped : ℕ) (rpa : List ℤ) :
    Traced HostArray Chunks :=
  loop (Chunks.allocatePartition beyond cfg numMapped rpa) (cfg.partitionNum numMapped)
    ⟨fun _ => ⟨0, 0, 0⟩, fun _ => []⟩

/-- `acceleratorDataLoad`, from the contents of the files on. -/
def acceleratorDataLoad (beyond : Beyond) (cfg : PartitionConfig) (files : GraphFiles) :
    Traced HostArray GraphInfo := do
  let c ← compressVertices beyond files.rapo
  let e ← compressEdges beyond files c
  let chunks ← allocateChunks beyond cfg c.numMapped e.rpa
  pure {
    vertexNum := files.rapo.length
    edgeNum := files.ciai.length
    compressedVertexNum := c.numMapped
    alignedCompressedVertexNum := (c.numMapped + 1023) / 1024 * 1024
    compressedEdgeNum := e.numCompressEdge
    outDeg := c.outDeg
    vertexMapping := c.vertexMapping
    outDegZeroIndex := c.outDegZeroIndex
    destIndexList := e.destIndexList
    rpa := e.rpa
    cia := e.cia
    partitionNum := cfg.partitionNum c.numMapped
    chunkProp := chunks.chunkProp
    chunkEdgeData := chunks.chunkEdgeData }

/-! ## Directed graphs -/

/-- A directed graph with parallel edges, as the rows of the incoming edges. -/
structure Digraph where
  numVertices : ℕ
  sources : ℕ → List ℕ
  source_lt : ∀ v < numVertices, ∀ u ∈ sources v, u < numVertices

namespace Digraph

variable (g : Digraph)

/-- The number of edges into `v`. -/
def inDegree (v : ℕ) : ℕ := (g.sources v).length

/-- The number of edges out of `u`. -/
def outDegree (u : ℕ) : ℕ := ((List.range g.numVertices).flatMap g.sources).count u

/-- The row pointers of both directions, one more than vertices, and the rows. -/
def files : GraphFiles where
  rapi := (List.range (g.numVertices + 1)).map fun v => (starts g.inDegree v : ℤ)
  rapo := (List.range (g.numVertices + 1)).map fun v => (starts g.outDegree v : ℤ)
  ciai := (List.range g.numVertices).flatMap fun v => (g.sources v).map fun u : ℕ => (u : ℤ)

/-- The vertices with outgoing edges. -/
def kept : List ℕ := (List.range g.numVertices).filter fun v => decide (0 < g.outDegree v)

/-- The position of a vertex among those. -/
def newId (u : ℕ) : ℕ := g.kept.idxOf u

/-- The edges into vertices with outgoing edges, under the new numbers. -/
def compressedEdges : List (ℤ × ℤ) :=
  g.kept.flatMap fun v => (g.sources v).map fun u => ((g.newId u : ℤ), (g.newId v : ℤ))

/-- The word behind the row pointers of the outgoing edges. -/
def pastRapo : Access HostArray := ⟨.graphRapo, g.numVertices + 1, g.numVertices + 1⟩

end Digraph

/-! ## The new numbers -/

namespace Digraph

variable {g : Digraph}

/-- The vertices below `i` with outgoing edges. -/
def keptBelow (g : Digraph) (i : ℕ) : List ℕ :=
  (List.range i).filter fun v => decide (0 < g.outDegree v)

theorem keptBelow_numVertices : g.keptBelow g.numVertices = g.kept := rfl

theorem keptBelow_succ (i : ℕ) :
    g.keptBelow (i + 1) = g.keptBelow i ++ if 0 < g.outDegree i then [i] else [] := by
  unfold keptBelow
  rw [List.range_succ, List.filter_append]
  by_cases h : 0 < g.outDegree i <;> simp [h]

theorem mem_kept {v : ℕ} : v ∈ g.kept ↔ v < g.numVertices ∧ 0 < g.outDegree v := by
  simp [kept]

/-- A vertex with an edge into `v` has an outgoing edge. -/
theorem source_kept {u v : ℕ} (hv : v < g.numVertices) (hu : u ∈ g.sources v) : u ∈ g.kept := by
  refine mem_kept.mpr ⟨g.source_lt v hv u hu, ?_⟩
  exact List.count_pos_iff.mpr (List.mem_flatMap.mpr ⟨v, List.mem_range.mpr hv, hu⟩)

/-- A number that is no vertex has no outgoing edge. -/
theorem outDegree_eq_zero {u : ℕ} (hu : g.numVertices ≤ u) : g.outDegree u = 0 := by
  apply List.count_eq_zero.mpr
  intro hmem
  obtain ⟨v, hv, huv⟩ := List.mem_flatMap.mp hmem
  have := g.source_lt v (List.mem_range.mp hv) u huv
  omega

/-- The new number of a kept vertex counts the kept vertices below it. -/
theorem length_keptBelow {v : ℕ} (hv : v ∈ g.kept) : (g.keptBelow v).length = g.newId v := by
  obtain ⟨hlt, hout⟩ := mem_kept.mp hv
  obtain ⟨m, hm⟩ := Nat.exists_eq_add_of_lt hlt
  have hsplit : g.kept = g.keptBelow v ++ v :: (List.range' (v + 1) m).filter
      fun v => decide (0 < g.outDegree v) := by
    unfold kept keptBelow
    rw [hm, Nat.add_assoc, List.range_add, List.filter_append, ← List.range'_eq_map_range,
      List.range'_succ, List.filter_cons, if_pos (by simpa using hout)]
  have hnot : v ∉ g.keptBelow v := by simp [keptBelow]
  unfold newId
  rw [hsplit, List.idxOf_append_of_notMem hnot, List.idxOf_cons_self, Nat.add_zero]

@[simp]
theorem length_rapo : g.files.rapo.length = g.numVertices + 1 := by simp [files]

@[simp]
theorem length_rapi : g.files.rapi.length = g.numVertices + 1 := by simp [files]

end Digraph

/-- The state of the loop before vertex `i`. -/
structure CompressLoop.Before (g : Digraph) (i : ℕ) (s : CompressLoop) : Prop where
  length_eq : s.mappingVertexArray.length = g.numVertices + 1
  mapped : ∀ k < i, s.mappingVertexArray[k]? = some ((g.keptBelow k).length : ℤ)
  vertexMapping_eq : s.vertexMapping = (g.keptBelow i).map fun v : ℕ => (v : ℤ)
  numMapped_eq : s.numMapped = (g.keptBelow i).length

section Vertices

variable {g : Digraph} {beyond : Beyond}

/-- Inside the files, or the word behind the row pointers. -/
def Digraph.LoadAccess (g : Digraph) (a : Access HostArray) : Prop := a.Inside ∨ a = g.pastRapo

/-- The difference that decides whether a vertex is kept. -/
theorem outdegTmp_pos_iff (hbeyond : beyond .graphRapo (g.numVertices + 1) ≤
      starts g.outDegree g.numVertices) {i : ℕ} (hi : i ≤ g.numVertices) :
    (read beyond .graphRapo g.files.rapo (i + 1)).value -
        (read beyond .graphRapo g.files.rapo i).value > 0 ↔ 0 < g.outDegree i := by
  have hfirst : (read beyond .graphRapo g.files.rapo i).value = starts g.outDegree i := by
    rw [value_read beyond _ rfl (by simpa using Nat.lt_succ_of_le hi)]
    simp [Digraph.files]
  rcases Nat.lt_or_eq_of_le hi with hlt | rfl
  · have hnext : (read beyond .graphRapo g.files.rapo (i + 1)).value =
        starts g.outDegree (i + 1) := by
      rw [value_read beyond _ (i := i + 1) (by push_cast; rfl) (by simpa using hlt)]
      simp [Digraph.files]
    rw [hnext, hfirst, starts_succ]
    push_cast
    omega
  · have hnext : (read beyond .graphRapo g.files.rapo ((g.numVertices : ℤ) + 1)).value =
        beyond .graphRapo ((g.numVertices : ℤ) + 1) := value_read_of_length_le beyond _ (by simp)
    rw [hnext, hfirst, Digraph.outDegree_eq_zero le_rfl]
    omega

/-- One turn of the loop over the vertices. -/
theorem addVertex_meets (hbeyond : beyond .graphRapo (g.numVertices + 1) ≤
      starts g.outDegree g.numVertices) {i : ℕ} (hi : i ≤ g.numVertices) {s : CompressLoop}
    (h : s.Before g i) :
    Meets (s.addVertex beyond g.files.rapo i) (CompressLoop.Before g (i + 1)) g.LoadAccess := by
  obtain ⟨hlength, hmapped, hmapping, hnum⟩ := h
  unfold CompressLoop.addVertex
  simp only [meets_bind, accesses_write, accesses_read, List.forall_mem_singleton]
  refine ⟨Or.inl (inside_of_lt rfl (by omega)), ?_,
    Or.inl (inside_of_lt rfl (by rw [Digraph.length_rapo]; omega)), ?_⟩
  · rcases Nat.lt_or_eq_of_le hi with hlt | rfl
    · exact Or.inl (inside_of_lt (i := i + 1) (by push_cast; rfl)
        (by rw [Digraph.length_rapo]; omega))
    · right
      simp [Digraph.pastRapo]
  · have hset : (s.mappingVertexArray.set i s.numMapped).length = g.numVertices + 1 := by
      rw [List.length_set, hlength]
    have hcells : ∀ k < i + 1, (s.mappingVertexArray.set i s.numMapped)[k]? =
        some ((g.keptBelow k).length : ℤ) := by
      intro k hk
      rcases Nat.lt_succ_iff_lt_or_eq.mp hk with hk | rfl
      · rw [List.getElem?_set_ne (by omega), hmapped k hk]
      · rw [List.getElem?_set_self (by omega), hnum]
    have hkept := g.keptBelow_succ i
    simp only [value_write _ _ rfl, outdegTmp_pos_iff hbeyond hi]
    split
    · rename_i hout
      rw [if_pos hout] at hkept
      apply meets_pure.mpr
      refine ⟨hset, hcells, ?_, ?_⟩
      · simp [hkept, hmapping]
      · simp [hkept, hnum]
    · rename_i hout
      rw [if_neg hout, List.append_nil] at hkept
      apply meets_pure.mpr
      refine ⟨hset, hcells, ?_, ?_⟩
      · rw [hkept, hmapping]
      · rw [hkept, hnum]

/-- The result of the loop over the vertices. -/
structure CompressLoop.Done (g : Digraph) (s : CompressLoop) : Prop where
  length_eq : s.mappingVertexArray.length = g.numVertices + 1
  mapped : ∀ v ∈ g.kept, s.mappingVertexArray[v]? = some (g.newId v : ℤ)
  vertexMapping_eq : s.vertexMapping = g.kept.map fun v : ℕ => (v : ℤ)
  numMapped_eq : s.numMapped = g.kept.length

/-- The new numbers are the positions among the kept vertices.  The number behind the last vertex is
visited too, and dropped when the word behind the row pointers is not larger than the last one. -/
theorem compressVertices_meets (hbeyond : beyond .graphRapo (g.numVertices + 1) ≤
      starts g.outDegree g.numVertices) :
    Meets (compressVertices beyond g.files.rapo) (CompressLoop.Done g) g.LoadAccess := by
  have hlast : g.keptBelow (g.numVertices + 1) = g.kept := by
    rw [g.keptBelow_succ, Digraph.outDegree_eq_zero le_rfl]
    simp [Digraph.keptBelow_numVertices]
  unfold compressVertices
  rw [Digraph.length_rapo]
  apply Meets.imp (Meets.loop (I := CompressLoop.Before g) ?_ ?_)
  · intro s h
    refine ⟨h.length_eq, fun v hv => ?_, ?_, ?_⟩
    · rw [h.mapped v (Nat.lt_succ_of_lt (Digraph.mem_kept.mp hv).1), Digraph.length_keptBelow hv]
    · rw [h.vertexMapping_eq, hlast]
    · rw [h.numMapped_eq, hlast]
  · constructor
    · simp
    · simp
    · rfl
    · rfl
  · exact fun i hi s h => addVertex_meets hbeyond (Nat.lt_succ_iff.mp hi) h

end Vertices

/-! ## The kept edges -/

namespace Digraph

variable {g : Digraph}

/-- The vertex with new number `j`. -/
def keptAt (g : Digraph) (j : ℕ) : ℕ := g.kept.getD j 0

/-- The number of edges into it. -/
def degree (g : Digraph) (j : ℕ) : ℕ := g.inDegree (g.keptAt j)

/-- The edges into it. -/
def row (g : Digraph) (j : ℕ) : List (ℤ × ℤ) :=
  (g.sources (g.keptAt j)).map fun u => ((g.newId u : ℤ), (j : ℤ))

theorem length_row (j : ℕ) : (g.row j).length = g.degree j := by
  simp [row, degree, inDegree]

theorem keptAt_mem {j : ℕ} (hj : j < g.kept.length) : g.keptAt j ∈ g.kept := by
  unfold keptAt
  rw [List.getD_eq_getElem _ _ hj]
  exact List.getElem_mem hj

theorem keptAt_lt {j : ℕ} (hj : j < g.kept.length) : g.keptAt j < g.numVertices :=
  (mem_kept.mp (keptAt_mem hj)).1

theorem newId_keptAt {j : ℕ} (hj : j < g.kept.length) : g.newId (g.keptAt j) = j := by
  have hnodup : g.kept.Nodup := List.nodup_range.filter _
  unfold newId keptAt
  rw [List.getD_eq_getElem _ _ hj]
  exact hnodup.idxOf_getElem j hj

/-- The compressed edges, destination by destination. -/
theorem compressedEdges_eq : g.compressedEdges = (List.range g.kept.length).flatMap g.row := by
  have hkept : g.kept = (List.range g.kept.length).map g.keptAt := by
    apply List.ext_getElem
    · simp
    · intro j hj _
      rw [List.getElem_map, List.getElem_range]
      exact (List.getD_eq_getElem _ _ hj).symm
  unfold compressedEdges
  conv_lhs => rw [hkept]
  rw [List.flatMap_map]
  apply List.flatMap_congr
  intro j hj
  rw [newId_keptAt (List.mem_range.mp hj)]
  rfl

theorem length_ciai : g.files.ciai.length = starts g.inDegree g.numVertices :=
  length_flatMap_rows g.numVertices fun v _ => by simp [inDegree]

/-- The sources of an edge in the file. -/
theorem ciai_cell {v k : ℕ} (hv : v < g.numVertices) (hk : k < (g.sources v).length) :
    g.files.ciai[starts g.inDegree v + k]? = some (((g.sources v)[k] : ℕ) : ℤ) := by
  have hcell : g.files.ciai[starts g.inDegree v + k]? =
      ((g.sources v).map fun u : ℕ => (u : ℤ))[k]? :=
    getElem?_flatMap_rows (fun v _ => by simp [inDegree]) hv hk
  rw [hcell]
  simp [hk]

end Digraph

/-- The state of the loop over the kept vertices before the one with new number `j`. -/
structure CompressEdgeLoop.Before (g : Digraph) (j : ℕ) (s : CompressEdgeLoop) : Prop where
  length_eq : s.rpa.length = g.kept.length + 1
  rpa_cell : ∀ k ≤ j, s.rpa[k]? = some (starts g.degree k : ℤ)
  cia_eq : s.cia = ((List.range j).flatMap g.row).map Prod.fst
  destIndexList_eq : s.destIndexList = ((List.range j).flatMap g.row).map Prod.snd

section Edges

variable {g : Digraph} {beyond : Beyond} {c : CompressLoop}

/-- The row that the inner loop has copied up to edge `k`. -/
structure CompressEdgeLoop.Within (g : Digraph) (s₀ : CompressEdgeLoop) (j k : ℕ) (s : CompressEdgeLoop) : Prop where
  rpa_eq : s.rpa = s₀.rpa
  cia_eq : s.cia = s₀.cia ++ ((g.row j).take k).map Prod.fst
  destIndexList_eq : s.destIndexList = s₀.destIndexList ++ ((g.row j).take k).map Prod.snd

/-- One turn of the inner loop. -/
theorem addEdge_meets (hc : c.Done g) {j k : ℕ} (hj : j < g.kept.length) (hk : k < g.degree j)
    {s₀ s : CompressEdgeLoop} (h : CompressEdgeLoop.Within g s₀ j k s) :
    Meets (s.addEdge beyond g.files.ciai c.mappingVertexArray (starts g.inDegree (g.keptAt j)) j k)
      (CompressEdgeLoop.Within g s₀ j (k + 1)) g.LoadAccess := by
  have hv := Digraph.keptAt_lt hj
  have hk : k < (g.sources (g.keptAt j)).length := hk
  have hcell := Digraph.ciai_cell hv hk
  obtain ⟨hlen, hsource⟩ := List.getElem?_eq_some_iff.mp hcell
  have hread : (read beyond .graphCiai g.files.ciai
      ((starts g.inDegree (g.keptAt j) : ℤ) + k)).value = (g.sources (g.keptAt j))[k] := by
    rw [value_read beyond _ (i := starts g.inDegree (g.keptAt j) + k) (by push_cast; rfl) hlen]
    exact hsource
  have hu : (g.sources (g.keptAt j))[k] ∈ g.sources (g.keptAt j) := List.getElem_mem hk
  have hkept := Digraph.source_kept hv hu
  obtain ⟨hbound, hmapped⟩ := List.getElem?_eq_some_iff.mp (hc.mapped _ hkept)
  have hrow : (g.row j)[k]? = some (((g.newId (g.sources (g.keptAt j))[k] : ℕ) : ℤ), (j : ℤ)) := by
    simp [Digraph.row, hk]
  unfold CompressEdgeLoop.addEdge
  simp only [meets_bind, accesses_read, List.forall_mem_singleton]
  refine ⟨Or.inl (inside_of_lt (by push_cast; rfl) hlen), Or.inl ?_, ?_⟩
  · rw [hread]
    exact inside_of_lt rfl hbound
  · rw [hread, value_read beyond _ rfl hbound, hmapped]
    apply meets_pure.mpr
    refine ⟨h.rpa_eq, ?_, ?_⟩
    · simp [h.cia_eq, List.take_add_one, hrow]
    · simp [h.destIndexList_eq, List.take_add_one, hrow]

/-- One turn of the outer loop. -/
theorem addRow_meets (hc : c.Done g) {j : ℕ} (hj : j < g.kept.length) {s : CompressEdgeLoop}
    (h : CompressEdgeLoop.Before g j s) :
    Meets (s.addRow beyond g.files c j) (CompressEdgeLoop.Before g (j + 1)) g.LoadAccess := by
  obtain ⟨hlength, hcell, hcia, hdest⟩ := h
  have hv := Digraph.keptAt_lt hj
  have hmapping : c.vertexMapping.length = g.kept.length := by
    rw [hc.vertexMapping_eq, List.length_map]
  have hvertex : (read beyond .vertexMapping c.vertexMapping j).value = g.keptAt j := by
    rw [value_read beyond _ rfl (by omega)]
    simp [hc.vertexMapping_eq, Digraph.keptAt, hj]
  have hfirst : (read beyond .graphRapi g.files.rapi (g.keptAt j)).value =
      starts g.inDegree (g.keptAt j) := by
    rw [value_read beyond _ rfl (by rw [Digraph.length_rapi]; omega)]
    simp [Digraph.files]
  have hnext : (read beyond .graphRapi g.files.rapi ((g.keptAt j : ℤ) + 1)).value =
      starts g.inDegree (g.keptAt j + 1) := by
    rw [value_read beyond _ (i := g.keptAt j + 1) (by push_cast; rfl)
      (by rw [Digraph.length_rapi]; omega)]
    simp [Digraph.files]
  have hdegree : ((starts g.inDegree (g.keptAt j + 1) : ℤ) - starts g.inDegree (g.keptAt j)) =
      g.degree j := by
    rw [starts_succ]
    push_cast
    exact add_sub_cancel_left _ _
  obtain ⟨hbound, hbefore⟩ := List.getElem?_eq_some_iff.mp (hcell j le_rfl)
  unfold CompressEdgeLoop.addRow
  simp only [meets_bind, accesses_read, accesses_write, List.forall_mem_singleton, hvertex, hfirst,
    hnext, hdegree, value_read beyond .rpa rfl hbound, hbefore]
  rw [value_write HostArray.rpa s.rpa (i := j + 1) (Nat.cast_succ j).symm]
  refine ⟨Or.inl (inside_of_lt rfl (by omega)),
    Or.inl (inside_of_lt (i := g.keptAt j + 1) (by push_cast; rfl)
      (by rw [Digraph.length_rapi]; omega)),
    Or.inl (inside_of_lt rfl (by rw [Digraph.length_rapi]; omega)),
    Or.inl (inside_of_lt rfl hbound),
    Or.inl (inside_of_lt (i := j + 1) (by push_cast; rfl) (by omega)),
    Or.inl (inside_of_lt rfl (by rw [Digraph.length_rapi]; omega)), ?_⟩
  rw [Int.toNat_natCast]
  apply Meets.imp (Meets.loop (I := CompressEdgeLoop.Within g _ j) ⟨rfl, by simp, by simp⟩
    fun k hk s h => addEdge_meets hc hj hk h)
  intro t ht
  have htake : (g.row j).take (g.degree j) = g.row j :=
    List.take_of_length_le (Digraph.length_row j).le
  refine ⟨?_, ?_, ?_, ?_⟩
  · rw [ht.rpa_eq, List.length_set, hlength]
  · intro k hk
    rw [ht.rpa_eq]
    rcases Nat.lt_succ_iff_lt_or_eq.mp (Nat.lt_succ_of_le hk) with hk | rfl
    · rw [List.getElem?_set_ne (by omega), hcell k (Nat.lt_succ_iff.mp hk)]
    · rw [List.getElem?_set_self (by omega), starts_succ]
      push_cast
      rfl
  · rw [ht.cia_eq, hcia, htake, List.range_succ, List.flatMap_append, List.map_append]
    simp
  · rw [ht.destIndexList_eq, hdest, htake, List.range_succ, List.flatMap_append, List.map_append]
    simp

/-- The result of the loop over the kept vertices. -/
structure CompressEdgeLoop.Done (g : Digraph) (s : CompressEdgeLoop) : Prop where
  length_eq : s.rpa.length = g.kept.length + 1
  rpa_cell : ∀ k ≤ g.kept.length, s.rpa[k]? = some (starts g.degree k : ℤ)
  cia_eq : s.cia = g.compressedEdges.map Prod.fst
  destIndexList_eq : s.destIndexList = g.compressedEdges.map Prod.snd

/-- The kept edges stand in the order of their destinations, behind one another. -/
theorem compressEdges_meets (hc : c.Done g) :
    Meets (compressEdges beyond g.files c) (CompressEdgeLoop.Done g) g.LoadAccess := by
  unfold compressEdges
  rw [meets_bind, hc.numMapped_eq]
  constructor
  · simp only [accesses_write, List.forall_mem_singleton, List.length_replicate]
    exact Or.inl (inside_of_lt (i := 0) rfl (Nat.succ_pos _))
  · rw [value_write HostArray.rpa _ (i := 0) Nat.cast_zero.symm]
    apply Meets.imp (Meets.loop (I := CompressEdgeLoop.Before g) ?_
      fun j hj s h => addRow_meets hc hj h)
    · intro s h
      refine ⟨h.length_eq, h.rpa_cell, ?_, ?_⟩
      · rw [h.cia_eq, Digraph.compressedEdges_eq]
      · rw [h.destIndexList_eq, Digraph.compressedEdges_eq]
    · refine ⟨by simp, ?_, rfl, rfl⟩
      intro k hk
      obtain rfl := Nat.le_zero.mp hk
      simp

end Edges

/-! ## The chunks -/

namespace PartitionConfig

variable {cfg : PartitionConfig} {n p : ℕ}

/-- A partition starts at a vertex. -/
theorem vertexIndexStart_lt (hp : p < cfg.partitionNum n) : cfg.vertexIndexStart p < n := by
  have hpos := cfg.partitionSize_pos
  have hle : (p + 1) * cfg.partitionSize ≤ n + cfg.partitionSize - 1 :=
    (Nat.le_div_iff_mul_le hpos).mp hp
  rw [Nat.add_mul, Nat.one_mul] at hle
  unfold vertexIndexStart
  omega

theorem vertexIndexEnd_le : cfg.vertexIndexEnd n p ≤ n := by
  unfold vertexIndexEnd
  split <;> omega

theorem vertexIndexStart_le_end (hp : p < cfg.partitionNum n) :
    cfg.vertexIndexStart p ≤ cfg.vertexIndexEnd n p := by
  have hlt := vertexIndexStart_lt hp
  have hmul : p * cfg.partitionSize ≤ (p + 1) * cfg.partitionSize :=
    Nat.mul_le_mul_right _ (Nat.le_succ p)
  unfold vertexIndexEnd
  unfold vertexIndexStart at *
  split <;> omega

/-- The numbers of a partition are those with its quotient. -/
theorem mem_partition_iff {j : ℕ} (hj : j < n) :
    cfg.vertexIndexStart p ≤ j ∧ j < cfg.vertexIndexEnd n p ↔ j / cfg.partitionSize = p := by
  have hlow : p ≤ j / cfg.partitionSize ↔ p * cfg.partitionSize ≤ j :=
    Nat.le_div_iff_mul_le cfg.partitionSize_pos
  have hhigh : j / cfg.partitionSize < p + 1 ↔ j < (p + 1) * cfg.partitionSize :=
    Nat.div_lt_iff_lt_mul cfg.partitionSize_pos
  unfold vertexIndexStart vertexIndexEnd
  split <;> omega

/-- Every number is in a partition. -/
theorem div_lt_partitionNum {j : ℕ} (hj : j < n) :
    j / cfg.partitionSize < cfg.partitionNum n := by
  have hpos := cfg.partitionSize_pos
  unfold partitionNum
  calc j / cfg.partitionSize
      < (j + cfg.partitionSize) / cfg.partitionSize := by
        rw [Nat.add_div_right _ hpos]
        exact Nat.lt_succ_self _
    _ ≤ (n + cfg.partitionSize - 1) / cfg.partitionSize := Nat.div_le_div_right (by omega)

/-- The length of the chunks, on natural numbers. -/
def chunkLen (cfg : PartitionConfig) (edgeNum : ℕ) : ℕ :=
  ((edgeNum + cfg.subPartitionNum - 1) / cfg.subPartitionNum + cfg.alignSize - 1) /
    cfg.alignSize * cfg.alignSize

theorem edgeNumTmp_eq (edgeNum : ℕ) : cfg.edgeNumTmp edgeNum = cfg.chunkLen edgeNum := by
  have hsub := cfg.subPartitionNum_pos
  have halign := cfg.alignSize_pos
  have hround (a b : ℕ) (hb : 0 < b) : ((a : ℤ) + b - 1).tdiv b = ((a + b - 1) / b : ℕ) := by
    have hcast : (a : ℤ) + b - 1 = (a + b - 1 : ℕ) := by omega
    rw [hcast, Int.tdiv_eq_ediv_of_nonneg (Int.natCast_nonneg _)]
    push_cast
    rfl
  unfold edgeNumTmp chunkLen
  dsimp only
  rw [hround _ _ hsub, hround _ _ halign]
  push_cast
  rfl

/-- The chunks have room for all edges. -/
theorem le_chunkLen (edgeNum : ℕ) : edgeNum ≤ cfg.subPartitionNum * cfg.chunkLen edgeNum := by
  have hround (a b : ℕ) (hb : 0 < b) : a ≤ (a + b - 1) / b * b := by
    have hmod := Nat.mod_lt (a + b - 1) hb
    have hdiv := Nat.div_add_mod (a + b - 1) b
    rw [Nat.mul_comm] at hdiv
    omega
  calc edgeNum
      ≤ (edgeNum + cfg.subPartitionNum - 1) / cfg.subPartitionNum * cfg.subPartitionNum :=
        hround _ _ cfg.subPartitionNum_pos
    _ ≤ cfg.chunkLen edgeNum * cfg.subPartitionNum :=
        Nat.mul_le_mul_right _ (hround _ _ cfg.alignSize_pos)
    _ = cfg.subPartitionNum * cfg.chunkLen edgeNum := Nat.mul_comm _ _

end PartitionConfig

namespace Digraph

/-- The number of compressed edges into partition `p`. -/
def edgeCount (g : Digraph) (cfg : PartitionConfig) (p : ℕ) : ℕ :=
  starts g.degree (cfg.vertexIndexEnd g.kept.length p) - starts g.degree (cfg.vertexIndexStart p)

/-- The length of its chunks. -/
def chunkLen (g : Digraph) (cfg : PartitionConfig) (p : ℕ) : ℕ := cfg.chunkLen (g.edgeCount cfg p)

end Digraph

/-- A chunk with its length and as many cells as two for every entry. -/
structure Chunks.Sized (g : Digraph) (cfg : PartitionConfig) (s : Chunks) (p sp : ℕ) : Prop where
  edgeNumChunk_eq : (s.chunkProp (p, sp)).edgeNumChunk = g.chunkLen cfg p
  length_eq : (s.chunkEdgeData (p, sp)).length = g.chunkLen cfg p * 2

section Allocation

variable {g : Digraph} {beyond : Beyond} {cfg : PartitionConfig}

/-- A chunk stays as it is when another one is replaced. -/
theorem Chunks.Sized.store {s : Chunks} {p sp p' sp' : ℕ} {prop : ChunkInfo} {edgeData : List ℤ}
    (h : s.Sized g cfg p' sp') (hne : (p', sp') ≠ (p, sp)) :
    (s.store p sp prop edgeData).Sized g cfg p' sp' := by
  obtain ⟨hprop, hdata⟩ := s.store_of_ne prop edgeData hne
  constructor
  · rw [hprop, h.edgeNumChunk_eq]
  · rw [hdata, h.length_eq]

/-- The turn for one sub-partition sizes its chunk and keeps the others. -/
theorem allocate_meets {p sp : ℕ} (hp : p < cfg.partitionNum g.kept.length)
    (hsp : sp < cfg.subPartitionNum) {s : Chunks}
    (h : (∀ p' < p, ∀ sp' < cfg.subPartitionNum, s.Sized g cfg p' sp') ∧
      ∀ sp' < sp, s.Sized g cfg p sp') :
    Meets (s.allocate cfg g.kept.length p (g.chunkLen cfg p) sp)
      (fun s => (∀ p' < p, ∀ sp' < cfg.subPartitionNum, s.Sized g cfg p' sp') ∧
        ∀ sp' < sp + 1, s.Sized g cfg p sp') g.LoadAccess := by
  unfold Chunks.allocate
  simp only [meets_bind, accesses_touch, List.forall_mem_singleton]
  refine ⟨Or.inl (inside_of_lt rfl hp), Or.inl (inside_of_lt rfl hsp),
    Or.inl (inside_of_lt rfl hp), Or.inl (inside_of_lt rfl hsp), ?_⟩
  apply meets_pure.mpr
  constructor
  · intro p' hp' sp' hsp'
    have hne : (p', sp') ≠ (p, sp) := fun heq => hp'.ne (congrArg Prod.fst heq)
    exact (h.1 p' hp' sp' hsp').store hne
  · intro sp' hsp'
    rcases Nat.lt_succ_iff_lt_or_eq.mp hsp' with hsp' | rfl
    · have hne : (p, sp') ≠ (p, sp) := fun heq => hsp'.ne (congrArg Prod.snd heq)
      exact (h.2 sp' hsp').store hne
    · constructor
      · rw [Chunks.store_chunkProp]
      · rw [Chunks.store_chunkEdgeData, List.length_replicate]
        omega

/-- The loop over the partitions sizes all chunks. -/
theorem allocateChunks_meets {rpa : List ℤ}
    (hrpa : ∀ k ≤ g.kept.length, rpa[k]? = some (starts g.degree k : ℤ)) :
    Meets (allocateChunks beyond cfg g.kept.length rpa)
      (fun s => ∀ p < cfg.partitionNum g.kept.length, ∀ sp < cfg.subPartitionNum,
        s.Sized g cfg p sp) g.LoadAccess := by
  unfold allocateChunks
  apply Meets.loop (I := fun p (s : Chunks) =>
    ∀ p' < p, ∀ sp' < cfg.subPartitionNum, s.Sized g cfg p' sp')
  · intro p hp
    omega
  · intro p hp s h
    have hend : cfg.vertexIndexEnd g.kept.length p ≤ g.kept.length :=
      PartitionConfig.vertexIndexEnd_le
    have hstart := PartitionConfig.vertexIndexStart_lt hp
    obtain ⟨hlast, hlastEq⟩ := List.getElem?_eq_some_iff.mp (hrpa _ hend)
    obtain ⟨hfirst, hfirstEq⟩ := List.getElem?_eq_some_iff.mp (hrpa _ hstart.le)
    have hmono : starts g.degree (cfg.vertexIndexStart p) ≤
        starts g.degree (cfg.vertexIndexEnd g.kept.length p) :=
      starts_mono (PartitionConfig.vertexIndexStart_le_end hp)
    unfold Chunks.allocatePartition
    simp only [meets_bind, accesses_read, List.forall_mem_singleton, value_read beyond _ rfl hlast,
      value_read beyond _ rfl hfirst, hlastEq, hfirstEq]
    rw [← Nat.cast_sub hmono, PartitionConfig.edgeNumTmp_eq]
    refine ⟨Or.inl (inside_of_lt rfl hlast), Or.inl (inside_of_lt rfl hfirst), ?_⟩
    apply Meets.imp (Meets.loop (I := fun sp s =>
        (∀ p' < p, ∀ sp' < cfg.subPartitionNum, Chunks.Sized g cfg s p' sp') ∧
          ∀ sp' < sp, Chunks.Sized g cfg s p sp')
      ⟨h, fun sp' hsp' => by omega⟩ fun sp hsp s h => allocate_meets hp hsp h)
    rintro s ⟨hbefore, hrow⟩ p' hp'
    rcases Nat.lt_succ_iff_lt_or_eq.mp hp' with hp' | rfl
    · exact hbefore p' hp'
    · exact hrow

end Allocation

/-! ## The loaded graph -/

/-- What the loader leaves: the prefix sums of the kept rows, the kept edges, and chunks of the
right size. -/
structure GraphInfo.Loaded (g : Digraph) (cfg : PartitionConfig) (info : GraphInfo) : Prop where
  compressedVertexNum_eq : info.compressedVertexNum = g.kept.length
  partitionNum_eq : info.partitionNum = cfg.partitionNum g.kept.length
  length_rpa : info.rpa.length = g.kept.length + 1
  rpa_cell : ∀ k ≤ g.kept.length, info.rpa[k]? = some (starts g.degree k : ℤ)
  cia_eq : info.cia = g.compressedEdges.map Prod.fst
  destIndexList_eq : info.destIndexList = g.compressedEdges.map Prod.snd
  sized : ∀ p < info.partitionNum, ∀ sp < cfg.subPartitionNum,
    (Chunks.mk info.chunkProp info.chunkEdgeData).Sized g cfg p sp

section Loader

variable {g : Digraph} {beyond : Beyond} {cfg : PartitionConfig}

/-- The loader, when the word behind the row pointers is not larger than the last of them. -/
theorem acceleratorDataLoad_meets (hbeyond : beyond .graphRapo (g.numVertices + 1) ≤
      starts g.outDegree g.numVertices) :
    Meets (acceleratorDataLoad beyond cfg g.files) (GraphInfo.Loaded g cfg) g.LoadAccess := by
  unfold acceleratorDataLoad
  apply Meets.bind (compressVertices_meets hbeyond)
  intro c hc
  apply Meets.bind (compressEdges_meets hc)
  intro e he
  rw [hc.numMapped_eq]
  apply Meets.bind (allocateChunks_meets he.rpa_cell)
  intro chunks hchunks
  apply meets_pure.mpr
  exact ⟨rfl, rfl, he.length_eq, he.rpa_cell, he.cia_eq, he.destIndexList_eq, hchunks⟩

/-- For every graph, and whatever lies outside the arrays: the loader reads the word behind the row
pointers. -/
theorem pastRapo_mem (g : Digraph) (beyond : Beyond) (cfg : PartitionConfig) :
    g.pastRapo ∈ (acceleratorDataLoad beyond cfg g.files).accesses := by
  have hloop : g.pastRapo ∈ (compressVertices beyond g.files.rapo).accesses := by
    unfold compressVertices
    rw [Digraph.length_rapo]
    apply mem_accesses_loop (I := fun _ _ => True) (i := g.numVertices)
    · trivial
    · exact Nat.lt_succ_self _
    · intro s _
      unfold CompressLoop.addVertex
      simp [Digraph.pastRapo]
  exact List.mem_append_left _ hloop

/-- It lies outside. -/
theorem pastRapo_outside (g : Digraph) : ¬ g.pastRapo.Inside := by
  rintro ⟨-, hlt⟩
  simp [Digraph.pastRapo] at hlt

end Loader

end RidgeWalker.Host
