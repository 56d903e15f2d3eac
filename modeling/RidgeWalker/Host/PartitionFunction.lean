import RidgeWalker.Host.DataLoad

/-!
# Edges in chunks

`partitionFunction` sorts the edges of every partition by their source and deals them out to the
chunks of its sub-partitions, one chunk after another.  What remains of the chunks is padding: the
source of the entry before, and a destination that no vertex has.

Main results:

- Theorem `collectEdges_meets`: the multimap of a partition holds its edges in the order of their
  sources.
- Theorem `fillEntry_meets`: what one turn writes, and which cell before the chunk it may read.
- Theorem `partitionFunction_meets`: the chunks of a loaded graph.
- Theorem `edge_partition_reads_outside`: for every graph two kinds of accesses leave their arrays,
  and no others.
-/

namespace RidgeWalker.Host

open Slices Tracing

/-! ## The edges of a partition -/

/-- `insert` of the multimap: behind the entries with a smaller or an equal key. -/
def insertEdge (e : ℤ × ℤ) (edges : List (ℤ × ℤ)) : List (ℤ × ℤ) :=
  edges.orderedInsert (fun a b => a.1 < b.1) e

/-- The loop that fills `edge_list[p]`. -/
def collectEdges (beyond : Beyond) (cfg : PartitionConfig) (info : GraphInfo) (p : ℕ) :
    Traced HostArray (List (ℤ × ℤ)) := do
  let first ← read beyond .rpa info.rpa (cfg.vertexIndexStart p)
  let last ← read beyond .rpa info.rpa (cfg.vertexIndexEnd info.compressedVertexNum p)
  loop (fun k edges => do
    touch .edgeList p info.partitionNum
    let source ← read beyond .cia info.cia (first + k)
    let dest ← read beyond .destIndexList info.destIndexList (first + k)
    pure (insertEdge (source, dest) edges)) (last - first).toNat []

/-! ## The chunks -/

/-- `ENDFLAG`. -/
def endFlag : BitVec 32 := 0xffffffff

/-- The destination of the padding, as the `int` that is stored. -/
def paddingDest : ℤ := (endFlag - 1).toInt

/-- The variables of the loop over the entries of a chunk. -/
structure FillLoop where
  it : ℕ
  edgeData : List ℤ
  max : ℤ
  min : ℤ
  numE : ℤ

/-- One turn.  The iterator is a position in the edges of the partition. -/
def FillLoop.fillEntry (beyond : Beyond) (cfg : PartitionConfig) (info : GraphInfo)
    (edges : List (ℤ × ℤ)) (p sp : ℕ) (edgeNumChunk : ℤ) (ii : ℕ) (s : FillLoop) :
    Traced HostArray FillLoop := do
  let last ← read beyond .rpa info.rpa (cfg.vertexIndexEnd info.compressedVertexNum p)
  let first ← read beyond .rpa info.rpa (cfg.vertexIndexStart p)
  touch .chunkEdgeData p info.partitionNum
  touch (.chunkEdgeDataRow p) sp cfg.subPartitionNum
  if last ≤ sp * edgeNumChunk + ii + first then
    let before ← read beyond (.chunkEdges p sp) s.edgeData ((ii - 1) * 2)
    let edgeData ← write (.chunkEdges p sp) s.edgeData (ii * 2) before
    let edgeData ← write (.chunkEdges p sp) edgeData (ii * 2 + 1) paddingDest
    pure { s with edgeData := edgeData, numE := s.numE + 1 }
  else
    touch (.edgeListRow p) s.it edges.length
    let edge := edges.getD s.it (beyond (.edgeListRow p) s.it, beyond (.edgeListRow p) s.it)
    let edgeData ← write (.chunkEdges p sp) s.edgeData (ii * 2) edge.1
    let edgeData ← write (.chunkEdges p sp) edgeData (ii * 2 + 1) edge.2
    pure {
      it := s.it + 1
      edgeData := edgeData
      max := if edge.1 > s.max then edge.1 else s.max
      min := if edge.1 > s.min then s.min else edge.1
      numE := s.numE + 1 }

/-- The turn for one sub-partition.  The iterator goes on where the last chunk left it. -/
def fillChunk (beyond : Beyond) (cfg : PartitionConfig) (info : GraphInfo)
    (edges : List (ℤ × ℤ)) (p sp : ℕ) (s : Chunks × ℕ) : Traced HostArray (Chunks × ℕ) := do
  touch .chunkProp p info.partitionNum
  touch (.chunkPropRow p) sp cfg.subPartitionNum
  let edgeNumChunk := (s.1.chunkProp (p, sp)).edgeNumChunk
  let f ← loop (FillLoop.fillEntry beyond cfg info edges p sp edgeNumChunk) edgeNumChunk.toNat
    ⟨s.2, s.1.chunkEdgeData (p, sp), 0, 0x7fffffff, 0⟩
  let prop := { s.1.chunkProp (p, sp) with
    edgeNumChunk := f.numE
    srcVertexNumChunk := f.max - f.min }
  pure (s.1.store p sp prop f.edgeData, f.it)

/-- The turn for one partition. -/
def fillPartition (beyond : Beyond) (cfg : PartitionConfig) (info : GraphInfo) (p : ℕ)
    (s : Chunks) : Traced HostArray Chunks := do
  let edges ← collectEdges beyond cfg info p
  let s ← loop (fillChunk beyond cfg info edges p) cfg.subPartitionNum (s, 0)
  pure s.1

/-- `partitionFunction`. -/
def partitionFunction (beyond : Beyond) (cfg : PartitionConfig) (info : GraphInfo) :
    Traced HostArray GraphInfo := do
  let chunks ← loop (fillPartition beyond cfg info) info.partitionNum
    ⟨info.chunkProp, info.chunkEdgeData⟩
  pure { info with
    chunkProp := chunks.chunkProp
    chunkEdgeData := chunks.chunkEdgeData }

/-- The loader, and `partitionFunction` on what it has loaded. -/
def loadAndPartition (beyond : Beyond) (cfg : PartitionConfig) (files : GraphFiles) :
    Traced HostArray GraphInfo := do
  let info ← acceleratorDataLoad beyond cfg files
  partitionFunction beyond cfg info

/-! ## What the partitioning is for -/

/-- Entry `k` of a chunk. -/
def entryOf (edgeData : List ℤ) (k : ℕ) : ℤ × ℤ :=
  (edgeData.getD (k * 2) 0, edgeData.getD (k * 2 + 1) 0)

/-- The entries of a chunk. -/
def GraphInfo.entries (info : GraphInfo) (p sp : ℕ) : List (ℤ × ℤ) :=
  (List.range (info.chunkProp (p, sp)).edgeNumChunk.toNat).map
    (entryOf (info.chunkEdgeData (p, sp)))

/-- The compressed edges whose destination lies in partition `p`. -/
def Digraph.edgesInto (g : Digraph) (cfg : PartitionConfig) (p : ℕ) : List (ℤ × ℤ) :=
  g.compressedEdges.filter fun e => decide (e.2 / (cfg.partitionSize : ℤ) = p)

/-- The chunks hold the compressed edges, partition by partition, in the order of their sources, and
padding behind them. -/
structure GraphInfo.Partitions (g : Digraph) (cfg : PartitionConfig) (info : GraphInfo) :
    Prop where
  covered : ∀ e ∈ g.compressedEdges, e.2 ≠ paddingDest ∧
    ∃ p < info.partitionNum, e ∈ g.edgesInto cfg p
  placed : ∀ p < info.partitionNum, ∃ real padding,
    (List.range cfg.subPartitionNum).flatMap (info.entries p) = real ++ padding ∧
    real.Perm (g.edgesInto cfg p) ∧ real.Pairwise (fun a b => a.1 ≤ b.1) ∧
    ∀ e ∈ padding, e.2 = paddingDest
  aligned : ∀ p < info.partitionNum, ∀ sp < cfg.subPartitionNum,
    ∃ k : ℕ, (info.chunkProp (p, sp)).edgeNumChunk = k * cfg.alignSize

/-! ## The edges of a partition, in order -/

/-- The multimap keeps its keys in ascending order. -/
theorem insertEdge_pairwise (e : ℤ × ℤ) {edges : List (ℤ × ℤ)}
    (h : edges.Pairwise fun a b => a.1 ≤ b.1) :
    (insertEdge e edges).Pairwise fun a b => a.1 ≤ b.1 := by
  unfold insertEdge
  induction edges with
  | nil => simp
  | cons b edges ih =>
      obtain ⟨hb, hedges⟩ := List.pairwise_cons.mp h
      rw [List.orderedInsert_cons]
      split
      · rename_i hlt
        refine List.pairwise_cons.mpr ⟨?_, h⟩
        intro c hc
        rcases List.mem_cons.mp hc with rfl | hc
        · exact hlt.le
        · exact hlt.le.trans (hb c hc)
      · rename_i hle
        refine List.pairwise_cons.mpr ⟨?_, ih hedges⟩
        intro c hc
        rcases (List.mem_orderedInsert _).mp hc with rfl | hc
        · exact not_lt.mp hle
        · exact hb c hc

theorem insertEdge_perm (e : ℤ × ℤ) (edges : List (ℤ × ℤ)) :
    (insertEdge e edges).Perm (e :: edges) := List.perm_orderedInsert ..

namespace Digraph

variable {g : Digraph} {cfg : PartitionConfig} {p : ℕ}

/-- The destinations of a row. -/
theorem snd_of_mem_row {j : ℕ} {e : ℤ × ℤ} (he : e ∈ g.row j) : e.2 = j := by
  obtain ⟨u, -, rfl⟩ := List.mem_map.mp he
  rfl

/-- The edges into a partition stand behind one another, at the positions that the prefix sums of
its first and last vertex name. -/
theorem edgesInto_eq (hp : p < cfg.partitionNum g.kept.length) :
    (g.compressedEdges.drop (starts g.degree (cfg.vertexIndexStart p))).take
      (g.edgeCount cfg p) = g.edgesInto cfg p := by
  have hstart := PartitionConfig.vertexIndexStart_le_end hp
  have hend : cfg.vertexIndexEnd g.kept.length p ≤ g.kept.length :=
    PartitionConfig.vertexIndexEnd_le
  unfold edgesInto edgeCount
  rw [compressedEdges_eq, take_drop_flatMap_rows (fun j _ => length_row j) hstart hend]
  symm
  apply filter_flatMap_rows hstart hend
  intro j hj e he
  rw [snd_of_mem_row he, PartitionConfig.mem_partition_iff hj, decide_eq_true_eq]
  norm_cast

end Digraph

/-- The edges of a partition in the order of their sources. -/
structure SortedEdges (g : Digraph) (cfg : PartitionConfig) (p : ℕ) (edges : List (ℤ × ℤ)) :
    Prop where
  perm : edges.Perm (g.edgesInto cfg p)
  ascending : edges.Pairwise fun a b => a.1 ≤ b.1

section Collection

variable {g : Digraph} {beyond : Beyond} {cfg : PartitionConfig} {info : GraphInfo} {p : ℕ}

/-- The prefix sum of the first vertex of a partition is read inside the array. -/
theorem GraphInfo.Loaded.first_cell (h : info.Loaded g cfg) (hp : p < info.partitionNum) :
    ∃ hlt : cfg.vertexIndexStart p < info.rpa.length,
      info.rpa[cfg.vertexIndexStart p] = starts g.degree (cfg.vertexIndexStart p) := by
  rw [h.partitionNum_eq] at hp
  exact List.getElem?_eq_some_iff.mp (h.rpa_cell _ (PartitionConfig.vertexIndexStart_lt hp).le)

/-- So is the one of its end. -/
theorem GraphInfo.Loaded.last_cell (h : info.Loaded g cfg) (p : ℕ) :
    ∃ hlt : cfg.vertexIndexEnd g.kept.length p < info.rpa.length,
      info.rpa[cfg.vertexIndexEnd g.kept.length p] =
        starts g.degree (cfg.vertexIndexEnd g.kept.length p) :=
  List.getElem?_eq_some_iff.mp (h.rpa_cell _ PartitionConfig.vertexIndexEnd_le)

/-- The difference of both counts the edges. -/
theorem Digraph.starts_add_edgeCount (g : Digraph) (hp : p < cfg.partitionNum g.kept.length) :
    starts g.degree (cfg.vertexIndexStart p) + g.edgeCount cfg p =
      starts g.degree (cfg.vertexIndexEnd g.kept.length p) :=
  Nat.add_sub_cancel' (starts_mono (PartitionConfig.vertexIndexStart_le_end hp))

/-- Both prefix sums are at most the number of edges. -/
theorem Digraph.add_edgeCount_le (g : Digraph) (hp : p < cfg.partitionNum g.kept.length) :
    starts g.degree (cfg.vertexIndexStart p) + g.edgeCount cfg p ≤ g.compressedEdges.length := by
  have hlen : g.compressedEdges.length = starts g.degree g.kept.length := by
    rw [Digraph.compressedEdges_eq]
    exact length_flatMap_rows _ fun j _ => Digraph.length_row j
  rw [g.starts_add_edgeCount hp, hlen]
  exact starts_mono PartitionConfig.vertexIndexEnd_le

/-- The number of edges of a partition. -/
theorem SortedEdges.length_eq (hp : p < cfg.partitionNum g.kept.length) {edges : List (ℤ × ℤ)}
    (h : SortedEdges g cfg p edges) : edges.length = g.edgeCount cfg p := by
  have hle := g.add_edgeCount_le hp
  rw [h.perm.length_eq, ← Digraph.edgesInto_eq hp, List.length_take, List.length_drop]
  omega

/-- The multimap of a partition. -/
theorem collectEdges_meets (hinfo : info.Loaded g cfg) (hp : p < info.partitionNum) :
    Meets (collectEdges beyond cfg info p) (SortedEdges g cfg p) Access.Inside := by
  obtain ⟨hfirst, hfirstEq⟩ := hinfo.first_cell hp
  obtain ⟨hlast, hlastEq⟩ := hinfo.last_cell p
  have hp' := hp
  rw [hinfo.partitionNum_eq] at hp'
  have hadd := g.starts_add_edgeCount hp'
  have hle := g.add_edgeCount_le hp'
  have hcount : ((starts g.degree (cfg.vertexIndexEnd g.kept.length p) : ℤ) -
      starts g.degree (cfg.vertexIndexStart p)).toNat = g.edgeCount cfg p := by omega
  unfold collectEdges
  simp only [meets_bind, accesses_read, List.forall_mem_singleton, hinfo.compressedVertexNum_eq,
    value_read beyond _ rfl hfirst, value_read beyond _ rfl hlast, hfirstEq, hlastEq, hcount]
  refine ⟨inside_of_lt rfl hfirst, inside_of_lt rfl hlast, ?_⟩
  -- the edges up to the counter are in the multimap
  apply Meets.imp (Meets.loop (I := fun k edges =>
    edges.Perm ((g.compressedEdges.drop (starts g.degree (cfg.vertexIndexStart p))).take k) ∧
      edges.Pairwise fun a b => a.1 ≤ b.1) ⟨by simp, by simp⟩ ?_)
  · rintro edges ⟨hperm, hsorted⟩
    rw [Digraph.edgesInto_eq hp'] at hperm
    exact ⟨hperm, hsorted⟩
  · rintro k hk edges ⟨hperm, hsorted⟩
    have hbound : starts g.degree (cfg.vertexIndexStart p) + k < g.compressedEdges.length := by
      omega
    have hcia : starts g.degree (cfg.vertexIndexStart p) + k < info.cia.length := by
      rw [hinfo.cia_eq, List.length_map]
      exact hbound
    have hdest : starts g.degree (cfg.vertexIndexStart p) + k < info.destIndexList.length := by
      rw [hinfo.destIndexList_eq, List.length_map]
      exact hbound
    have hindex : ((starts g.degree (cfg.vertexIndexStart p) : ℤ) + k) =
        (starts g.degree (cfg.vertexIndexStart p) + k : ℕ) := by push_cast; rfl
    simp only [meets_bind, accesses_touch, accesses_read, List.forall_mem_singleton]
    rw [value_read beyond _ hindex hcia, value_read beyond _ hindex hdest]
    refine ⟨inside_of_lt rfl hp, inside_of_lt hindex hcia, inside_of_lt hindex hdest, ?_⟩
    apply meets_pure.mpr
    refine ⟨?_, insertEdge_pairwise _ hsorted⟩
    have hedge : (info.cia[starts g.degree (cfg.vertexIndexStart p) + k],
        info.destIndexList[starts g.degree (cfg.vertexIndexStart p) + k]) =
          g.compressedEdges[starts g.degree (cfg.vertexIndexStart p) + k] := by
      simp [hinfo.cia_eq, hinfo.destIndexList_eq]
    have hcell : (g.compressedEdges.drop (starts g.degree (cfg.vertexIndexStart p)))[k]? =
        some g.compressedEdges[starts g.degree (cfg.vertexIndexStart p) + k] := by
      rw [List.getElem?_drop, List.getElem?_eq_getElem hbound]
    rw [hedge, List.take_add_one, hcell]
    exact (insertEdge_perm _ edges).trans ((hperm.cons _).trans
      (List.perm_append_singleton _ _).symm)

end Collection

/-! ## Filling the chunks -/

/-- Entry `q` of a partition: an edge, or padding behind the last one. -/
structure IsEntry (edges : List (ℤ × ℤ)) (q : ℕ) (e : ℤ × ℤ) : Prop where
  real : ∀ hq : q < edges.length, e = edges[q]
  padding : edges.length ≤ q → e.2 = paddingDest

namespace Digraph

variable (g : Digraph) (cfg : PartitionConfig)

/-- A sub-partition of a partition with edges that receives none of them. -/
structure Idle (p sp : ℕ) : Prop where
  partition_lt : p < cfg.partitionNum g.kept.length
  sub_lt : sp < cfg.subPartitionNum
  chunkLen_pos : 0 < g.chunkLen cfg p
  edgeCount_le : g.edgeCount cfg p ≤ sp * g.chunkLen cfg p

/-- The cell before the first entry of a chunk. -/
def beforeChunk (p sp : ℕ) : Access HostArray := ⟨.chunkEdges p sp, -2, g.chunkLen cfg p * 2⟩

/-- Inside the arrays, or before the chunk of a sub-partition without edges. -/
def FillAccess (a : Access HostArray) : Prop :=
  a.Inside ∨ ∃ p sp, g.Idle cfg p sp ∧ a = g.beforeChunk cfg p sp

end Digraph

/-- The state of the loop over the entries of chunk `sp` before entry `ii`. -/
structure FillLoop.Before (edges : List (ℤ × ℤ)) (len sp ii : ℕ) (s : FillLoop) : Prop where
  it_eq : s.it = Min.min edges.length (sp * len + ii)
  length_eq : s.edgeData.length = len * 2
  numE_eq : s.numE = ii
  entry : ∀ k < ii, IsEntry edges (sp * len + k) (entryOf s.edgeData k)

section Filling

variable {g : Digraph} {beyond : Beyond} {cfg : PartitionConfig} {info : GraphInfo} {p : ℕ}
  {edges : List (ℤ × ℤ)}

/-- Writing an entry. -/
theorem entryOf_set {data : List ℤ} {ii k : ℕ} (hii : ii * 2 + 1 < data.length) (src dest : ℤ) :
    entryOf ((data.set (ii * 2) src).set (ii * 2 + 1) dest) k =
      if k = ii then (src, dest) else entryOf data k := by
  unfold entryOf
  simp only [List.getD_eq_getElem?_getD, List.getElem?_set, List.length_set]
  by_cases hk : k = ii
  · subst hk
    rw [if_pos rfl]
    simp [hii, show k * 2 < data.length by omega]
  · rw [if_neg hk, if_neg (by omega), if_neg (by omega), if_neg (by omega), if_neg (by omega)]

/-- The test for padding. -/
theorem padding_iff (beyond : Beyond) (hinfo : info.Loaded g cfg) (hp : p < info.partitionNum) (q : ℕ) :
    (read beyond .rpa info.rpa (cfg.vertexIndexEnd info.compressedVertexNum p)).value ≤
        q + (read beyond .rpa info.rpa (cfg.vertexIndexStart p)).value ↔
      g.edgeCount cfg p ≤ q := by
  obtain ⟨hfirst, hfirstEq⟩ := hinfo.first_cell hp
  obtain ⟨hlast, hlastEq⟩ := hinfo.last_cell p
  rw [hinfo.partitionNum_eq] at hp
  have hadd := g.starts_add_edgeCount hp
  rw [hinfo.compressedVertexNum_eq, value_read beyond _ rfl hfirst, value_read beyond _ rfl hlast,
    hfirstEq, hlastEq]
  omega

/-- One turn of the loop over the entries. -/
theorem fillEntry_meets (hinfo : info.Loaded g cfg) (hp : p < info.partitionNum)
    (hedges : SortedEdges g cfg p edges) {sp ii : ℕ} (hsp : sp < cfg.subPartitionNum)
    (hii : ii < g.chunkLen cfg p) {s : FillLoop}
    (h : FillLoop.Before edges (g.chunkLen cfg p) sp ii s) :
    Meets (s.fillEntry beyond cfg info edges p sp (g.chunkLen cfg p) ii)
      (FillLoop.Before edges (g.chunkLen cfg p) sp (ii + 1)) (g.FillAccess cfg) := by
  obtain ⟨hit, hlength, hnumE, hentry⟩ := h
  obtain ⟨hfirst, hfirstEq⟩ := hinfo.first_cell hp
  obtain ⟨hlast, hlastEq⟩ := hinfo.last_cell p
  have hp' := hp
  rw [hinfo.partitionNum_eq] at hp'
  have hcount := hedges.length_eq hp'
  have hsum : (sp : ℤ) * g.chunkLen cfg p + ii = (sp * g.chunkLen cfg p + ii : ℕ) := by
    push_cast
    rfl
  have hlast' : cfg.vertexIndexEnd info.compressedVertexNum p < info.rpa.length := by
    rw [hinfo.compressedVertexNum_eq]
    exact hlast
  have hsrc : (ii : ℤ) * 2 = (ii * 2 : ℕ) := by
    push_cast
    rfl
  have hdest : (ii : ℤ) * 2 + 1 = (ii * 2 + 1 : ℕ) := by
    push_cast
    rfl
  unfold FillLoop.fillEntry
  simp only [meets_bind, accesses_read, accesses_touch, List.forall_mem_singleton, hsum,
    padding_iff beyond hinfo hp]
  refine ⟨Or.inl (inside_of_lt rfl hlast'), Or.inl (inside_of_lt rfl hfirst),
    Or.inl (inside_of_lt rfl hp), Or.inl (inside_of_lt rfl hsp), ?_⟩
  -- the entries written so far, and the one of this turn
  have hstep (src dest : ℤ)
      (hnew : IsEntry edges (sp * g.chunkLen cfg p + ii) (src, dest)) (k : ℕ) (hk : k < ii + 1) :
      IsEntry edges (sp * g.chunkLen cfg p + k)
        (entryOf ((s.edgeData.set (ii * 2) src).set (ii * 2 + 1) dest) k) := by
    rw [entryOf_set (by omega)]
    split
    · rename_i heq
      rw [heq]
      exact hnew
    · exact hentry k (by omega)
  split
  · rename_i hpad
    simp only [meets_bind, accesses_read, accesses_write, List.forall_mem_singleton,
      value_write _ s.edgeData hsrc, value_write _ _ hdest]
    refine ⟨?_, Or.inl (inside_of_lt hsrc (by omega)),
      Or.inl (inside_of_lt hdest (by rw [List.length_set]; omega)), ?_⟩
    · -- the copy of the entry before: for the first entry there is none
      rcases Nat.eq_zero_or_pos ii with rfl | hpos
      · refine Or.inr ⟨p, sp, ⟨hp', hsp, hii, by simpa using hpad⟩, ?_⟩
        unfold Digraph.beforeChunk
        rw [hlength]
        rfl
      · exact Or.inl (inside_of_lt (i := (ii - 1) * 2) (by push_cast [hpos]; rfl) (by omega))
    · apply meets_pure.mpr
      refine ⟨?_, ?_, ?_, ?_⟩
      · dsimp only
        omega
      · simp [hlength]
      · simp [hnumE]
      · exact hstep _ _ ⟨fun hq => by omega, fun _ => rfl⟩
  · rename_i hreal
    have hq : sp * g.chunkLen cfg p + ii < edges.length := by omega
    have hitEq : s.it = sp * g.chunkLen cfg p + ii := by omega
    simp only [meets_bind, accesses_touch, accesses_write, List.forall_mem_singleton,
      value_write _ s.edgeData hsrc, value_write _ _ hdest]
    rw [hitEq, List.getD_eq_getElem _ _ hq]
    refine ⟨Or.inl (inside_of_lt rfl hq),
      Or.inl (inside_of_lt hsrc (by omega)),
      Or.inl (inside_of_lt hdest (by rw [List.length_set]; omega)), ?_⟩
    apply meets_pure.mpr
    refine ⟨?_, ?_, ?_, ?_⟩
    · dsimp only
      omega
    · simp [hlength]
    · simp [hnumE]
    · exact hstep _ _ ⟨fun _ => rfl, fun hle => by omega⟩

/-- The first entry of a chunk without edges. -/
theorem fillEntry_beforeChunk (hinfo : info.Loaded g cfg) (hp : p < info.partitionNum) {sp : ℕ}
    (hcount : g.edgeCount cfg p ≤ sp * g.chunkLen cfg p) {s : FillLoop}
    (h : FillLoop.Before edges (g.chunkLen cfg p) sp 0 s) :
    g.beforeChunk cfg p sp ∈
      (s.fillEntry beyond cfg info edges p sp (g.chunkLen cfg p) 0).accesses := by
  have hpad := (padding_iff beyond hinfo hp (sp * g.chunkLen cfg p)).mpr hcount
  have hsum : (sp : ℤ) * g.chunkLen cfg p + (0 : ℕ) = (sp * g.chunkLen cfg p : ℕ) := by
    push_cast
    omega
  unfold FillLoop.fillEntry
  simp only [accesses_bind, List.mem_append]
  right; right; right; right
  rw [hsum, if_pos hpad]
  apply List.mem_append_left
  rw [accesses_read, h.length_eq]
  exact List.mem_singleton.mpr rfl

end Filling

/-! ## The loops over the chunks -/

/-- Every chunk has its size. -/
def Chunks.AllSized (g : Digraph) (cfg : PartitionConfig) (s : Chunks) : Prop :=
  ∀ p < cfg.partitionNum g.kept.length, ∀ sp < cfg.subPartitionNum, s.Sized g cfg p sp

/-- A chunk holds its entries. -/
def Chunks.Holds (s : Chunks) (edges : List (ℤ × ℤ)) (len p sp : ℕ) : Prop :=
  ∀ ii < len, IsEntry edges (sp * len + ii) (entryOf (s.chunkEdgeData (p, sp)) ii)

/-- All chunks of a partition hold their entries. -/
def Chunks.Filled (g : Digraph) (cfg : PartitionConfig) (s : Chunks) (p : ℕ) : Prop :=
  ∃ edges, SortedEdges g cfg p edges ∧
    ∀ sp < cfg.subPartitionNum, s.Holds edges (g.chunkLen cfg p) p sp

/-- The state before sub-partition `sp`: the iterator is behind the entries of the chunks before. -/
structure ChunksBefore (g : Digraph) (cfg : PartitionConfig) (edges : List (ℤ × ℤ)) (p sp : ℕ)
    (s : Chunks × ℕ) : Prop where
  sized : s.1.AllSized g cfg
  earlier : ∀ p' < p, s.1.Filled g cfg p'
  holds : ∀ sp' < sp, s.1.Holds edges (g.chunkLen cfg p) p sp'
  it_eq : s.2 = min edges.length (sp * g.chunkLen cfg p)

section Chunks

variable {g : Digraph} {beyond : Beyond} {cfg : PartitionConfig} {info : GraphInfo} {p : ℕ}
  {edges : List (ℤ × ℤ)}

/-- What another chunk holds stays. -/
theorem Chunks.Holds.store {s : Chunks} {len p' sp' sp : ℕ} {prop : ChunkInfo}
    {edgeData : List ℤ} (h : s.Holds edges len p' sp') (hne : (p', sp') ≠ (p, sp)) :
    (s.store p sp prop edgeData).Holds edges len p' sp' := by
  unfold Chunks.Holds
  rw [(s.store_of_ne prop edgeData hne).2]
  exact h

/-- The loop over the entries starts where the chunk before ended. -/
theorem ChunksBefore.fillLoop {sp : ℕ} {s : Chunks × ℕ} (h : ChunksBefore g cfg edges p sp s)
    (hp : p < cfg.partitionNum g.kept.length) (hsp : sp < cfg.subPartitionNum) (max min : ℤ) :
    FillLoop.Before edges (g.chunkLen cfg p) sp 0
      ⟨s.2, s.1.chunkEdgeData (p, sp), max, min, 0⟩ where
  it_eq := h.it_eq
  length_eq := (h.sized p hp sp hsp).length_eq
  numE_eq := rfl
  entry k hk := absurd hk (Nat.not_lt_zero k)

/-- The turn for one sub-partition. -/
theorem fillChunk_meets (hinfo : info.Loaded g cfg) (hp : p < info.partitionNum)
    (hedges : SortedEdges g cfg p edges) {sp : ℕ} (hsp : sp < cfg.subPartitionNum)
    {s : Chunks × ℕ} (h : ChunksBefore g cfg edges p sp s) :
    Meets (fillChunk beyond cfg info edges p sp s) (ChunksBefore g cfg edges p (sp + 1))
      (g.FillAccess cfg) := by
  have hp' := hp
  rw [hinfo.partitionNum_eq] at hp'
  obtain ⟨hprop, hlength⟩ := h.sized p hp' sp hsp
  unfold fillChunk
  rw [meets_bind, meets_bind, hprop]
  simp only [accesses_touch, List.forall_mem_singleton, Int.toNat_natCast]
  refine ⟨Or.inl (inside_of_lt rfl hp), Or.inl (inside_of_lt rfl hsp), ?_⟩
  apply Meets.bind (Meets.loop (h.fillLoop hp' hsp 0 0x7fffffff)
    fun ii hii f hf => fillEntry_meets hinfo hp hedges hsp hii hf)
  intro f hf
  apply meets_pure.mpr
  have hfst {p' sp' : ℕ} (hlt : p' < p) : (p', sp') ≠ (p, sp) :=
    fun heq => hlt.ne (congrArg Prod.fst heq)
  have hsnd {p' sp' : ℕ} (hlt : sp' < sp) : (p', sp') ≠ (p, sp) :=
    fun heq => hlt.ne (congrArg Prod.snd heq)
  refine ⟨?_, ?_, ?_, ?_⟩
  · intro p' hp' sp' hsp'
    by_cases heq : (p', sp') = (p, sp)
    · obtain ⟨rfl, rfl⟩ := Prod.mk.inj heq
      constructor
      · rw [Chunks.store_chunkProp]
        exact hf.numE_eq
      · rw [Chunks.store_chunkEdgeData]
        exact hf.length_eq
    · exact (h.sized p' hp' sp' hsp').store heq
  · intro p' hp'
    obtain ⟨edges', hsorted, hholds⟩ := h.earlier p' hp'
    exact ⟨edges', hsorted, fun sp' hsp' => (hholds sp' hsp').store (hfst hp')⟩
  · intro sp' hsp'
    rcases Nat.lt_succ_iff_lt_or_eq.mp hsp' with hlt | rfl
    · exact (h.holds sp' hlt).store (hsnd hlt)
    · unfold Chunks.Holds
      rw [Chunks.store_chunkEdgeData]
      exact hf.entry
  · rw [Nat.succ_mul]
    exact hf.it_eq

/-- The turn for one partition. -/
theorem fillPartition_meets (hinfo : info.Loaded g cfg) (hp : p < info.partitionNum) {s : Chunks}
    (hsized : s.AllSized g cfg) (hearlier : ∀ p' < p, s.Filled g cfg p') :
    Meets (fillPartition beyond cfg info p s)
      (fun s => s.AllSized g cfg ∧ ∀ p' < p + 1, s.Filled g cfg p') (g.FillAccess cfg) := by
  have hcollect : Meets (collectEdges beyond cfg info p) (SortedEdges g cfg p) Access.Inside :=
    collectEdges_meets hinfo hp
  unfold fillPartition
  rw [meets_bind]
  refine ⟨fun a ha => Or.inl (hcollect.accesses a ha), ?_⟩
  apply Meets.bind (Meets.loop (I := ChunksBefore g cfg _ p)
    ⟨hsized, hearlier, fun _ h => absurd h (Nat.not_lt_zero _), by simp⟩
    fun sp hsp s h => fillChunk_meets hinfo hp hcollect.value hsp h)
  intro s h
  apply meets_pure.mpr
  refine ⟨h.sized, fun p' hp' => ?_⟩
  rcases Nat.lt_succ_iff_lt_or_eq.mp hp' with hlt | rfl
  · exact h.earlier p' hlt
  · exact ⟨_, hcollect.value, h.holds⟩

/-- The loop over the first partitions. -/
theorem fillPartitions_meets (hinfo : info.Loaded g cfg) {n : ℕ} (hn : n ≤ info.partitionNum) :
    Meets (loop (fillPartition beyond cfg info) n ⟨info.chunkProp, info.chunkEdgeData⟩)
      (fun s => s.AllSized g cfg ∧ ∀ p < n, s.Filled g cfg p) (g.FillAccess cfg) := by
  apply Meets.loop (I := fun p (s : Chunks) => s.AllSized g cfg ∧ ∀ p' < p, s.Filled g cfg p')
  · refine ⟨fun p hp sp hsp => ?_, fun _ h => absurd h (Nat.not_lt_zero _)⟩
    exact hinfo.sized p (by rw [hinfo.partitionNum_eq]; exact hp) sp hsp
  · exact fun p hp s h => fillPartition_meets hinfo (by omega) h.1 h.2

end Chunks

/-! ## The result -/

section Result

variable {g : Digraph} {beyond : Beyond} {cfg : PartitionConfig} {info : GraphInfo} {p : ℕ}

/-- The entries of a filled partition, chunk behind chunk: its edges, and padding. -/
theorem Chunks.Filled.entries {s : Chunks} (hsized : s.AllSized g cfg) (h : s.Filled g cfg p)
    (hp : p < cfg.partitionNum g.kept.length)
    (hprop : info.chunkProp = s.chunkProp) (hdata : info.chunkEdgeData = s.chunkEdgeData) :
    ∃ real padding, (List.range cfg.subPartitionNum).flatMap (info.entries p) = real ++ padding ∧
      real.Perm (g.edgesInto cfg p) ∧ real.Pairwise (fun a b => a.1 ≤ b.1) ∧
      ∀ e ∈ padding, e.2 = paddingDest := by
  obtain ⟨edges, hedges, hholds⟩ := h
  have hlen : ∀ sp < cfg.subPartitionNum, (info.entries p sp).length = g.chunkLen cfg p := by
    intro sp hsp
    unfold GraphInfo.entries
    rw [List.length_map, List.length_range, hprop, (hsized p hp sp hsp).edgeNumChunk_eq,
      Int.toNat_natCast]
  have htotal : ((List.range cfg.subPartitionNum).flatMap (info.entries p)).length =
      cfg.subPartitionNum * g.chunkLen cfg p := by
    rw [length_flatMap_rows (d := fun _ => g.chunkLen cfg p) _ hlen]
    simp [starts]
  -- an entry is the one that its position names
  have hentry : ∀ q (hq : q < ((List.range cfg.subPartitionNum).flatMap (info.entries p)).length),
      IsEntry edges q ((List.range cfg.subPartitionNum).flatMap (info.entries p))[q] := by
    intro q hq
    rw [htotal] at hq
    have hlenPos : 0 < g.chunkLen cfg p := Nat.pos_of_mul_pos_left (Nat.zero_lt_of_lt hq)
    have hsp : q / g.chunkLen cfg p < cfg.subPartitionNum :=
      (Nat.div_lt_iff_lt_mul hlenPos).mpr hq
    have hii := Nat.mod_lt q hlenPos
    have hsplit : q / g.chunkLen cfg p * g.chunkLen cfg p + q % g.chunkLen cfg p = q := by
      rw [Nat.mul_comm]
      exact Nat.div_add_mod q _
    have hcell := getElem?_flatMap_rows (d := fun _ => g.chunkLen cfg p) hlen hsp hii
    have hstart : starts (fun _ => g.chunkLen cfg p) (q / g.chunkLen cfg p) =
        q / g.chunkLen cfg p * g.chunkLen cfg p := by simp [starts]
    rw [hstart, hsplit] at hcell
    have hholds := hholds _ hsp _ hii
    rw [hsplit] at hholds
    have hvalue : (info.entries p (q / g.chunkLen cfg p))[q % g.chunkLen cfg p]? =
        some (entryOf (s.chunkEdgeData (p, q / g.chunkLen cfg p)) (q % g.chunkLen cfg p)) := by
      unfold GraphInfo.entries
      rw [hprop, hdata, (hsized p hp _ hsp).edgeNumChunk_eq, Int.toNat_natCast]
      simp [hii]
    rw [hvalue] at hcell
    rw [(List.getElem?_eq_some_iff.mp hcell).2]
    exact hholds
  have hroom : edges.length ≤ ((List.range cfg.subPartitionNum).flatMap (info.entries p)).length := by
    rw [htotal, hedges.length_eq hp]
    exact PartitionConfig.le_chunkLen _
  refine ⟨edges, ((List.range cfg.subPartitionNum).flatMap (info.entries p)).drop edges.length,
    ?_, hedges.perm, hedges.ascending, ?_⟩
  · conv_lhs => rw [← List.take_append_drop edges.length
      ((List.range cfg.subPartitionNum).flatMap (info.entries p))]
    congr 1
    apply List.ext_getElem
    · rw [List.length_take]
      omega
    · intro q hq hq'
      rw [List.getElem_take]
      exact (hentry q (by omega)).real hq'
  · intro e he
    obtain ⟨q, hq, rfl⟩ := List.mem_iff_getElem.mp he
    rw [List.length_drop] at hq
    rw [List.getElem_drop]
    exact (hentry _ (by omega)).padding (by omega)

/-- Every compressed edge lies in a partition. -/
theorem Digraph.edge_covered (cfg : PartitionConfig) {e : ℤ × ℤ} (he : e ∈ g.compressedEdges) :
    e.2 ≠ paddingDest ∧ ∃ p < cfg.partitionNum g.kept.length, e ∈ g.edgesInto cfg p := by
  have hmem := he
  rw [Digraph.compressedEdges_eq] at hmem
  obtain ⟨j, hj, hrow⟩ := List.mem_flatMap.mp hmem
  have hdest := Digraph.snd_of_mem_row hrow
  constructor
  · have hpadding : paddingDest = -2 := by decide
    omega
  · refine ⟨j / cfg.partitionSize,
      PartitionConfig.div_lt_partitionNum (List.mem_range.mp hj), ?_⟩
    unfold Digraph.edgesInto
    rw [List.mem_filter, decide_eq_true_eq, hdest]
    exact ⟨he, by norm_cast⟩

/-- `partitionFunction` on a loaded graph. -/
theorem partitionFunction_meets (hinfo : info.Loaded g cfg) :
    Meets (partitionFunction beyond cfg info) (GraphInfo.Partitions g cfg) (g.FillAccess cfg) := by
  unfold partitionFunction
  apply Meets.bind (fillPartitions_meets hinfo le_rfl)
  rintro s ⟨hsized, hfilled⟩
  apply meets_pure.mpr
  have hnum := hinfo.partitionNum_eq
  refine ⟨fun e he => ?_, fun p hp => ?_, fun p hp sp hsp => ?_⟩
  · obtain ⟨hne, p, hp, hinto⟩ := Digraph.edge_covered cfg he
    exact ⟨hne, p, by rwa [hnum], hinto⟩
  · exact (hfilled p hp).entries hsized (by rwa [hnum] at hp) rfl rfl
  · refine ⟨(((g.edgeCount cfg p + cfg.subPartitionNum - 1) / cfg.subPartitionNum +
      cfg.alignSize - 1) / cfg.alignSize), ?_⟩
    rw [(hsized p (by rwa [hnum] at hp) sp hsp).edgeNumChunk_eq]
    unfold Digraph.chunkLen PartitionConfig.chunkLen
    push_cast
    rfl

/-- A sub-partition without edges reads the cell before its chunk. -/
theorem beforeChunk_mem (hinfo : info.Loaded g cfg) {sp : ℕ} (hidle : g.Idle cfg p sp) :
    g.beforeChunk cfg p sp ∈ (partitionFunction beyond cfg info).accesses := by
  obtain ⟨hp, hsp, hlen, hcount⟩ := hidle
  have hp' : p < info.partitionNum := by rwa [hinfo.partitionNum_eq]
  unfold partitionFunction
  apply List.mem_append_left
  apply mem_accesses_loop
    (I := fun n (s : Chunks) => s.AllSized g cfg ∧ ∀ p' < n, s.Filled g cfg p')
    (fillPartitions_meets hinfo hp'.le).value hp'
  rintro s ⟨hsized, hearlier⟩
  have hcollect : Meets (collectEdges beyond cfg info p) (SortedEdges g cfg p) Access.Inside :=
    collectEdges_meets hinfo hp'
  unfold fillPartition
  apply List.mem_append_right
  apply List.mem_append_left
  apply mem_accesses_loop (Meets.loop (I := ChunksBefore g cfg _ p)
    ⟨hsized, hearlier, fun _ h => absurd h (Nat.not_lt_zero _), by simp⟩
    fun sp' hsp' s h => fillChunk_meets hinfo hp' hcollect.value (by omega) h).value hsp
  intro s h
  unfold fillChunk
  rw [(h.sized p hp sp hsp).edgeNumChunk_eq]
  simp only [accesses_bind, Int.toNat_natCast, List.mem_append]
  right
  right
  left
  apply mem_accesses_loop (I := FillLoop.Before _ (g.chunkLen cfg p) sp)
    (h.fillLoop hp hsp 0 0x7fffffff) hlen
  intro f hf
  exact fillEntry_beforeChunk hinfo hp' hcount hf

/-- What the loader and `partitionFunction` are for: the chunks are right, and every index was one
of its array. -/
structure EdgePartitioning (g : Digraph) (cfg : PartitionConfig)
    (r : Traced HostArray GraphInfo) : Prop where
  partitions : r.value.Partitions g cfg
  inside : ∀ a ∈ r.accesses, a.Inside

/-- For every graph and all parameters, and whatever lies outside the arrays: the word behind the row
pointers is read.  When it is not larger than the last of them, the chunks are right all the same,
and the other accesses outside are exactly those before the chunks without edges. -/
theorem edge_partition_reads_outside (g : Digraph) (cfg : PartitionConfig) (beyond : Beyond) :
    let r := loadAndPartition beyond cfg g.files
    ¬ EdgePartitioning g cfg r ∧
    (beyond .graphRapo (g.numVertices + 1) ≤ starts g.outDegree g.numVertices →
      r.value.Partitions g cfg ∧
      ∀ a, (a ∈ r.accesses ∧ ¬ a.Inside) ↔
        a = g.pastRapo ∨ ∃ p sp, g.Idle cfg p sp ∧ a = g.beforeChunk cfg p sp) := by
  intro r
  have hpast : g.pastRapo ∈ r.accesses :=
    List.mem_append_left _ (pastRapo_mem g beyond cfg)
  constructor
  · intro h
    exact pastRapo_outside g (h.inside _ hpast)
  · intro hbeyond
    have hload : Meets (acceleratorDataLoad beyond cfg g.files) (GraphInfo.Loaded g cfg)
        g.LoadAccess := acceleratorDataLoad_meets hbeyond
    have hfill : Meets (partitionFunction beyond cfg (acceleratorDataLoad beyond cfg g.files).value)
        (GraphInfo.Partitions g cfg) (g.FillAccess cfg) := partitionFunction_meets hload.value
    refine ⟨hfill.value, fun a => ⟨?_, ?_⟩⟩
    · rintro ⟨ha, houtside⟩
      rcases List.mem_append.mp ha with ha | ha
      · exact Or.inl ((hload.accesses a ha).resolve_left houtside)
      · exact Or.inr ((hfill.accesses a ha).resolve_left houtside)
    · rintro (rfl | ⟨p, sp, hidle, rfl⟩)
      · exact ⟨hpast, pastRapo_outside g⟩
      · refine ⟨List.mem_append_right _ (beforeChunk_mem hload.value hidle), ?_⟩
        rintro ⟨hpos, -⟩
        simp [Digraph.beforeChunk] at hpos

end Result

/-- A vertex with an edge to itself. -/
def selfLoop : Digraph := ⟨1, fun _ => [0], by decide⟩

/-- One vertex in a partition, and two sub-partitions. -/
def twoChunks : PartitionConfig := ⟨1, 2, 1, by decide, by decide, by decide⟩

/-- The edge is in the first chunk and padding in the second. -/
theorem edge_partition_reads_outside_selfLoop :
    (loadAndPartition (fun _ _ => 0) twoChunks selfLoop.files).value.Partitions selfLoop twoChunks ∧
    selfLoop.beforeChunk twoChunks 0 1 ∈
      (loadAndPartition (fun _ _ => 0) twoChunks selfLoop.files).accesses := by
  obtain ⟨hpartitions, houtside⟩ :=
    (edge_partition_reads_outside selfLoop twoChunks fun _ _ => 0).2 (by decide)
  refine ⟨hpartitions, ((houtside _).mpr (Or.inr ⟨0, 1, ?_, rfl⟩)).1⟩
  exact ⟨by decide, by decide, by decide, by decide⟩

/-- The second chunk receives no edge: its padding copies the cell before the chunk. -/
theorem edge_partition_empty_chunk :
    let r := loadAndPartition (fun _ _ => 0) twoChunks selfLoop.files
    r.accesses.filter (fun a => ¬ a.Inside) =
      [⟨.graphRapo, 2, 2⟩, ⟨.chunkEdges 0 1, -2, 2⟩] ∧
    ¬ EdgePartitioning selfLoop twoChunks r := by
  intro r
  have houtside : r.accesses.filter (fun a => ¬ a.Inside) =
      [⟨.graphRapo, 2, 2⟩, ⟨.chunkEdges 0 1, -2, 2⟩] := by decide
  refine ⟨houtside, fun h => ?_⟩
  have hmem : (⟨.chunkEdges 0 1, -2, 2⟩ : Access HostArray) ∈
      r.accesses.filter fun a => ¬ a.Inside := by
    rw [houtside]
    simp
  have hinside := h.inside _ (List.mem_of_mem_filter hmem)
  exact absurd hinside.1 (by decide)

end RidgeWalker.Host
