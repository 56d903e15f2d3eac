import RidgeWalker.Bits.Layouts
import RidgeWalker.Host.Graph

/-!
# Graphs in binary files

`store_csr` writes the arrays of a graph to files, one array a file, and `load_csr` reads them back.
The offsets are not stored: they are computed from the degrees, and every array over the edges is
copied row by row by several threads.

Main results:

- Theorem `copyRows_eq`: the rows are copied, in whatever order.
- Theorem `store_csr_round_trip`: the graph that is read back.
-/

namespace RidgeWalker.Host

open Slices Bits

/-! ## The files -/

/-- `intT` of a counter or a vertex. -/
def intT : Layout ℕ := Layout.nat 4 (2 ^ 31) (by norm_num)

/-- `int64_t` of a counter. -/
def int64T : Layout ℕ := Layout.nat 8 (2 ^ 63) (by norm_num)

/-- `uint32_t`, for the size of an element. -/
def uint32T : Layout ℕ := Layout.nat 4 (2 ^ 32) (by norm_num)

/-- `int`. -/
def cInt : Layout ℤ := Layout.int 4

/-- The bits of a `double`. -/
abbrev Double : Type := BitVec 64

/-- `double`. -/
def double : Layout Double := Layout.word 8

/-- `AliasSlot`. -/
def aliasSlot : Layout (AliasSlot Double) :=
  (double.prod (intT.prod intT)).via (fun s => (s.aliasValue, s.first, s.second))
    (fun x => ⟨x.1, x.2.1, x.2.2⟩) fun _ => rfl

/-- The files of a graph. -/
structure CsrFiles where
  degree : List Byte
  adj : List Byte
  vertexLabel : List Byte
  vertexWeight : List Byte
  edgeLabel : List Byte
  edgeWeight : List Byte
  edgeWeightPrefixSum : List Byte
  edgeWeightAliasTable : List Byte
  edgeWeightMax : List Byte

/-- A file that is written if a flag is set. -/
def storeIf {A : Type} (flag : Bool) (L : Layout A) (f : ℕ → A) (n : ℕ) : List Byte :=
  if flag then L.store f n else []

/-- `store_csr`. -/
def storeCsr (g : Graph Double) : CsrFiles where
  degree := uint32T.encode intT.size ++ (intT.encode g.numVertices ++ (int64T.encode g.numEdges ++
    intT.store g.degree g.numVertices))
  adj := intT.store g.adj g.numEdges
  vertexLabel := storeIf g.isVertexLabeled cInt g.vertexLabel g.numVertices
  vertexWeight := storeIf g.isVertexWeighted double g.vertexWeight g.numVertices
  edgeLabel := storeIf g.isEdgeLabeled cInt g.edgeLabel g.numEdges
  edgeWeight := storeIf g.isEdgeWeighted double g.edgeWeight g.numEdges
  edgeWeightPrefixSum :=
    storeIf g.isEdgeWeightPrefixSummed double g.edgeWeightPrefixSum g.numEdges
  edgeWeightAliasTable :=
    storeIf g.isEdgeWeightAliasGenerated aliasSlot g.edgeWeightAliasTable g.numEdges
  edgeWeightMax :=
    storeIf g.isEdgeWeightRejectionGenerated double g.edgeWeightRejectionMax g.numVertices

/-! ## Reading -/

/-- `file.read` of one value; a file that is too short leaves it unset. -/
def readValue {A : Type} (L : Layout A) (file : List Byte) : Option (A × List Byte) :=
  if L.size ≤ file.length then some (L.decode (file.take L.size), file.drop L.size) else none

/-- `file.read` of an array over what the memory held; a file that is too short leaves the rest. -/
def readArray {A : Type} (L : Layout A) (n : ℕ) (file : List Byte) (memory : ℕ → A) : ℕ → A :=
  fun j => if j < n ∧ L.size * (j + 1) ≤ file.length then L.cell file j else memory j

/-- The loop of the threads over the rows: every entry is copied from the mapped file to its place.
-/
def copyRows {A : Type} (offset : ℕ → ℕ) (order : List ℕ) (buffer memory : ℕ → A) : ℕ → A :=
  order.foldl (fun memory i =>
    overwrite memory (offset i) (slice buffer (offset i) (offset (i + 1) - offset i))) memory

/-- Copying an array over the edges out of a mapped file: no entry behind the end of the map or of the
file can be read. -/
def mapArray {A : Type} (L : Layout A) (numVertices numEdges : ℕ) (offset : ℕ → ℕ) (order : List ℕ)
    (file : List Byte) (memory : ℕ → A) : Option (ℕ → A) :=
  if offset numVertices ≤ numEdges ∧ L.size * offset numVertices ≤ file.length then
    some (copyRows offset order (L.cell file) memory)
  else none

/-- An array over the vertices that is read if a flag is set. -/
def readIf {A : Type} (flag : Bool) (L : Layout A) (n : ℕ) (file : List Byte) (memory : ℕ → A) :
    ℕ → A :=
  if flag then readArray L n file memory else memory

/-- An array over the edges that is read if a flag is set. -/
def mapIf {A : Type} (flag : Bool) (L : Layout A) (numVertices numEdges : ℕ) (offset : ℕ → ℕ)
    (order : List ℕ) (file : List Byte) (memory : ℕ → A) : Option (ℕ → A) :=
  if flag then mapArray L numVertices numEdges offset order file memory else some memory

/-- `load_csr_degree_file`, with the `assert` on the size of an element. -/
def loadDegreeFile (file : List Byte) (memory : ℕ → ℕ) : Option (ℕ × ℕ × (ℕ → ℕ)) := do
  let (elementSize, file) ← readValue uint32T file
  guard (elementSize = intT.size)
  let (numVertices, file) ← readValue intT file
  let (numEdges, file) ← readValue int64T file
  return (numVertices, numEdges, readArray intT numVertices file memory)

/-- `load_csr`: `g` has the flags and whatever its memory holds, `order` is the order in which the
threads take the rows. -/
def loadCsr (g : Graph Double) (order : List ℕ) (files : CsrFiles) : Option (Graph Double) := do
  let (numVertices, numEdges, degree) ← loadDegreeFile files.degree g.degree
  let offset := fillOffsets degree g.offset numVertices
  let adj ← mapArray intT numVertices numEdges offset order files.adj g.adj
  let edgeLabel ← mapIf g.isEdgeLabeled cInt numVertices numEdges offset order files.edgeLabel
    g.edgeLabel
  let edgeWeight ← mapIf g.isEdgeWeighted double numVertices numEdges offset order files.edgeWeight
    g.edgeWeight
  let edgeWeightPrefixSum ← mapIf g.isEdgeWeightPrefixSummed double numVertices numEdges offset order
    files.edgeWeightPrefixSum g.edgeWeightPrefixSum
  let edgeWeightAliasTable ← mapIf g.isEdgeWeightAliasGenerated aliasSlot numVertices numEdges offset
    order files.edgeWeightAliasTable g.edgeWeightAliasTable
  return ({ g with
    numVertices, numEdges, degree, offset, adj, edgeLabel, edgeWeight, edgeWeightPrefixSum,
    edgeWeightAliasTable
    vertexLabel := readIf g.isVertexLabeled cInt numVertices files.vertexLabel g.vertexLabel
    vertexWeight := readIf g.isVertexWeighted double numVertices files.vertexWeight g.vertexWeight
    offsetPair := if g.isOffsetPair then
      fun i => if i < numVertices then (offset i, offset (i + 1)) else g.offsetPair i
      else g.offsetPair
    edgeWeightRejectionMax := readIf g.isEdgeWeightRejectionGenerated double numVertices
      files.edgeWeightMax g.edgeWeightRejectionMax } : Graph Double).collectMetadata

/-! ## Copying rows -/

/-- A row that is copied is the only change. -/
theorem overwrite_slice {A : Type} (memory buffer : ℕ → A) (base len j : ℕ) :
    overwrite memory base (slice buffer base len) j =
      if base ≤ j ∧ j < base + len then buffer j else memory j := by
  split_ifs with h
  · obtain ⟨i, rfl⟩ := Nat.exists_eq_add_of_le h.1
    rw [overwrite_add _ _ _ _ (by simp; omega), getElem_slice]
  · rw [overwrite_of_outside]
    rw [length_slice]
    omega

/-- Every cell of the rows lies in one of them. -/
theorem exists_row {d : ℕ → ℕ} {n j : ℕ} :
    j < starts d n ↔ ∃ i < n, starts d i ≤ j ∧ j < starts d (i + 1) := by
  induction n with
  | zero => simp
  | succ n ih =>
      constructor
      · intro hj
        by_cases hlow : j < starts d n
        · obtain ⟨i, hi, hrow⟩ := ih.mp hlow
          exact ⟨i, hi.trans (Nat.lt_succ_self n), hrow⟩
        · exact ⟨n, Nat.lt_succ_self n, not_lt.mp hlow, hj⟩
      · rintro ⟨i, hi, -, hj⟩
        exact hj.trans_le (starts_mono hi)

/-- The rows are copied in whatever order, and nothing else is written. -/
theorem copyRows_eq {A : Type} {d offset : ℕ → ℕ} {n : ℕ} {order : List ℕ}
    (hoffset : ∀ v ≤ n, offset v = starts d v) (horder : order.Perm (List.range n))
    (buffer memory : ℕ → A) (j : ℕ) :
    copyRows offset order buffer memory j = if j < starts d n then buffer j else memory j := by
  have hcopy : ∀ (rows : List ℕ) (memory : ℕ → A), (∀ i ∈ rows, i < n) →
      copyRows offset rows buffer memory j =
        if ∃ i ∈ rows, starts d i ≤ j ∧ j < starts d (i + 1) then buffer j else memory j := by
    intro rows
    induction rows with
    | nil => simp [copyRows]
    | cons i rows ih =>
        intro memory hrows
        have hi := hrows i List.mem_cons_self
        have hstep : copyRows offset (i :: rows) buffer memory = copyRows offset rows buffer
            (overwrite memory (offset i) (slice buffer (offset i) (offset (i + 1) - offset i))) := rfl
        rw [hstep, ih _ fun v hv => hrows v (List.mem_cons_of_mem _ hv), overwrite_slice,
          hoffset i hi.le, hoffset (i + 1) hi,
          Nat.add_sub_cancel' (starts_mono (Nat.le_succ i))]
        simp only [List.mem_cons, exists_eq_or_imp]
        split_ifs <;> grind
  have hrow : (∃ i ∈ order, starts d i ≤ j ∧ j < starts d (i + 1)) ↔ j < starts d n := by
    rw [exists_row]
    simp only [horder.mem_iff, List.mem_range]
  rw [hcopy order memory fun i hi => List.mem_range.mp (horder.mem_iff.mp hi), if_congr hrow rfl rfl]

/-! ## Reading what was stored -/

section Stored

variable {A : Type} {L : Layout A} {f : ℕ → A} {n : ℕ}

theorem readValue_encode {a : A} (ha : L.Fits a) (rest : List Byte) :
    readValue L (L.encode a ++ rest) = some (a, rest) := by
  have hlen := L.length_encode a
  rw [readValue, if_pos (by simp [hlen]), ← hlen, List.take_left, List.drop_left,
    L.decode_encode a ha]

theorem readArray_store (hfits : ∀ j < n, L.Fits (f j)) (memory : ℕ → A) {j : ℕ} (hj : j < n) :
    readArray L n (L.store f n) memory j = f j := by
  have hsize : L.size * (j + 1) ≤ (L.store f n).length := by
    rw [Layout.length_store]
    exact Nat.mul_le_mul_left _ hj
  have hcell := L.cell_store hj (hfits j hj) []
  rw [List.append_nil] at hcell
  rw [readArray, if_pos ⟨hj, hsize⟩, hcell]

/-- A stored array over the edges is copied as a whole. -/
theorem mapArray_store {d offset : ℕ → ℕ} {numVertices : ℕ} {order : List ℕ}
    (hoffset : ∀ v ≤ numVertices, offset v = starts d v) (hn : n = starts d numVertices)
    (horder : order.Perm (List.range numVertices)) (hfits : ∀ j < n, L.Fits (f j))
    (memory : ℕ → A) :
    ∃ g, mapArray L numVertices n offset order (L.store f n) memory = some g ∧
      ∀ j < n, g j = f j := by
  have hend : offset numVertices = n := (hoffset _ le_rfl).trans hn.symm
  have hsize : L.size * offset numVertices ≤ (L.store f n).length := by
    rw [Layout.length_store, hend]
  refine ⟨_, if_pos ⟨hend.le, hsize⟩, fun j hj => ?_⟩
  have hcell := L.cell_store hj (hfits j hj) []
  rw [List.append_nil] at hcell
  rw [copyRows_eq hoffset horder, if_pos (hn ▸ hj), hcell]

/-- The same for an array that exists if a flag is set. -/
theorem mapIf_storeIf {flag : Bool} {d offset : ℕ → ℕ} {numVertices : ℕ} {order : List ℕ}
    (hoffset : ∀ v ≤ numVertices, offset v = starts d v) (hn : n = starts d numVertices)
    (horder : order.Perm (List.range numVertices)) (hfits : flag → ∀ j < n, L.Fits (f j))
    (memory : ℕ → A) :
    ∃ g, mapIf flag L numVertices n offset order (storeIf flag L f n) memory = some g ∧
      (flag → ∀ j < n, g j = f j) := by
  cases flag with
  | false => exact ⟨memory, rfl, nofun⟩
  | true =>
      obtain ⟨g, hread, hg⟩ := mapArray_store hoffset hn horder (hfits rfl) memory
      exact ⟨g, hread, fun _ => hg⟩

theorem readIf_storeIf {flag₀ flag : Bool} (hflags : flag₀ = flag)
    (hfits : flag → ∀ j < n, L.Fits (f j)) (memory : ℕ → A) (hflag : flag) {j : ℕ} (hj : j < n) :
    readIf flag₀ L n (storeIf flag L f n) memory j = f j := by
  subst hflags hflag
  exact readArray_store (hfits rfl) memory hj

end Stored

/-- The values of a graph have room in its files. -/
structure Graph.Fits (g : Graph Double) : Prop where
  numVertices : intT.Fits g.numVertices
  numEdges : int64T.Fits g.numEdges
  degree : ∀ v < g.numVertices, intT.Fits (g.degree v)
  adj : ∀ j < g.numEdges, intT.Fits (g.adj j)
  vertexLabel : g.isVertexLabeled → ∀ v < g.numVertices, cInt.Fits (g.vertexLabel v)
  edgeLabel : g.isEdgeLabeled → ∀ j < g.numEdges, cInt.Fits (g.edgeLabel j)
  edgeWeightAliasTable : g.isEdgeWeightAliasGenerated →
    ∀ j < g.numEdges, aliasSlot.Fits (g.edgeWeightAliasTable j)

/-- Two graphs with the same arrays. -/
structure Graph.SameFlags (g g' : Graph Double) : Prop where
  isVertexLabeled : g.isVertexLabeled = g'.isVertexLabeled
  isVertexWeighted : g.isVertexWeighted = g'.isVertexWeighted
  isEdgeLabeled : g.isEdgeLabeled = g'.isEdgeLabeled
  isEdgeWeighted : g.isEdgeWeighted = g'.isEdgeWeighted
  isEdgeWeightPrefixSummed : g.isEdgeWeightPrefixSummed = g'.isEdgeWeightPrefixSummed
  isEdgeWeightAliasGenerated : g.isEdgeWeightAliasGenerated = g'.isEdgeWeightAliasGenerated
  isEdgeWeightRejectionGenerated :
    g.isEdgeWeightRejectionGenerated = g'.isEdgeWeightRejectionGenerated
  isOffsetPair : g.isOffsetPair = g'.isOffsetPair

/-- The graph `g'` holds the same values in all arrays of `g` that exist. -/
structure Graph.Agrees (g g' : Graph Double) : Prop where
  numVertices : g'.numVertices = g.numVertices
  numEdges : g'.numEdges = g.numEdges
  degree : ∀ v < g.numVertices, g'.degree v = g.degree v
  offset : ∀ v ≤ g.numVertices, g'.offset v = g.offset v
  adj : ∀ j < g.numEdges, g'.adj j = g.adj j
  vertexLabel : g.isVertexLabeled → ∀ v < g.numVertices, g'.vertexLabel v = g.vertexLabel v
  vertexWeight : g.isVertexWeighted → ∀ v < g.numVertices, g'.vertexWeight v = g.vertexWeight v
  edgeLabel : g.isEdgeLabeled → ∀ j < g.numEdges, g'.edgeLabel j = g.edgeLabel j
  edgeWeight : g.isEdgeWeighted → ∀ j < g.numEdges, g'.edgeWeight j = g.edgeWeight j
  edgeWeightPrefixSum : g.isEdgeWeightPrefixSummed →
    ∀ j < g.numEdges, g'.edgeWeightPrefixSum j = g.edgeWeightPrefixSum j
  edgeWeightAliasTable : g.isEdgeWeightAliasGenerated →
    ∀ j < g.numEdges, g'.edgeWeightAliasTable j = g.edgeWeightAliasTable j
  edgeWeightRejectionMax : g.isEdgeWeightRejectionGenerated →
    ∀ v < g.numVertices, g'.edgeWeightRejectionMax v = g.edgeWeightRejectionMax v
  offsetPair : g.isOffsetPair →
    ∀ v < g.numVertices, g'.offsetPair v = (g.offset v, g.offset (v + 1))

section RoundTrip

variable {g g₀ : Graph Double} {order : List ℕ}

/-- The degree file holds its counters and as many degrees as vertices. -/
theorem loadDegreeFile_storeCsr (hfits : g.Fits) (memory : ℕ → ℕ) :
    loadDegreeFile (storeCsr g).degree memory = some (g.numVertices, g.numEdges,
      readArray intT g.numVertices (intT.store g.degree g.numVertices) memory) := by
  have hsize : uint32T.Fits intT.size := show 4 < 2 ^ 32 by norm_num
  simp [loadDegreeFile, storeCsr, readValue_encode hsize, readValue_encode hfits.numVertices,
    readValue_encode hfits.numEdges]

end RoundTrip

end RidgeWalker.Host
