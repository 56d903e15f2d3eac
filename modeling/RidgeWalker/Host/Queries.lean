import Mathlib

/-!
# The array of queries

`load_graph` collects the vertices with neighbours.  Its cursor is advanced between the read and the
exit test, and the test lets the number of vertices itself pass.

Main results:

- Theorem `fillQueries_result`: a run that ends has read one degree after another up to the limit.
- Theorem `fillQueries_terminates`: every run ends.
- Theorem `query_array_reads_past`: so the word behind the array is read for every graph.
-/

namespace RidgeWalker.Host

/-- The variables of the loop, and the indices of `degree_` that it has read. -/
structure QueryLoop where
  queryVertex : BitVec 32
  queryArray : List (BitVec 32)
  reads : List ℤ

/-- One turn of the loop without the exit test.  The memory is read at the cursor as an `int`. -/
def QueryLoop.turn (degree : ℤ → ℤ) (s : QueryLoop) : QueryLoop :=
  let index := s.queryVertex.toInt
  { queryVertex := s.queryVertex + 1
    queryArray := if degree index ≠ 0 then s.queryArray ++ [s.queryVertex] else s.queryArray
    reads := s.reads ++ [index] }

/-- The loop, for at most `fuel` turns. -/
def fillQueries (numVertices : BitVec 32) (degree : ℤ → ℤ) : ℕ → QueryLoop → Option QueryLoop
  | 0, _ => none
  | fuel + 1, s =>
      let s := s.turn degree
      if numVertices < s.queryVertex then some s else fillQueries numVertices degree fuel s

/-- The loop before its first turn. -/
def QueryLoop.start : QueryLoop := ⟨0, [], []⟩

section Run

variable {n : ℕ} {degree : ℤ → ℤ}

/-- The vertices from `k` on, `len` of them, that have neighbours. -/
def withNeighbors (degree : ℤ → ℤ) (k len : ℕ) : List (BitVec 32) :=
  ((List.range' k len).filter fun v : ℕ => decide (degree (v : ℤ) ≠ 0)).map (BitVec.ofNat 32)

theorem withNeighbors_succ (k len : ℕ) : withNeighbors degree k (len + 1) =
    (if degree (k : ℤ) ≠ 0 then [BitVec.ofNat 32 k] else []) ++
      withNeighbors degree (k + 1) len := by
  unfold withNeighbors
  rw [List.range'_succ, List.filter_cons]
  split <;> simp_all

/-- One turn at vertex `k`. -/
theorem turn_ofNat {k : ℕ} (hk : k < 2 ^ 31) (queryArray : List (BitVec 32)) (reads : List ℤ) :
    (QueryLoop.mk (BitVec.ofNat 32 k) queryArray reads).turn degree =
      { queryVertex := BitVec.ofNat 32 (k + 1)
        queryArray := queryArray ++ if degree (k : ℤ) ≠ 0 then [BitVec.ofNat 32 k] else []
        reads := reads ++ [(k : ℤ)] } := by
  have hindex : (BitVec.ofNat 32 k).toInt = (k : ℤ) := by
    rw [BitVec.toInt_eq_toNat_of_lt (by rw [BitVec.toNat_ofNat]; omega), BitVec.toNat_ofNat]
    omega
  unfold QueryLoop.turn
  dsimp only
  rw [hindex]
  split <;> simp [BitVec.ofNat_add]

/-- The exit test. -/
theorem exit_iff (hn : n < 2 ^ 31) {k : ℕ} (hk : k < 2 ^ 31) :
    BitVec.ofNat 32 n < BitVec.ofNat 32 (k + 1) ↔ n ≤ k := by
  rw [BitVec.lt_def, BitVec.toNat_ofNat, BitVec.toNat_ofNat, Nat.mod_eq_of_lt (by omega),
    Nat.mod_eq_of_lt (by omega)]
  omega

/-- A run that ends has read the degrees up to the limit, the limit included. -/
theorem fillQueries_result (hn : n < 2 ^ 31) {fuel k : ℕ} (hk : k ≤ n)
    {queryArray : List (BitVec 32)} {reads : List ℤ} {s : QueryLoop}
    (h : fillQueries (.ofNat 32 n) degree fuel ⟨.ofNat 32 k, queryArray, reads⟩ = some s) :
    s.reads = reads ++ (List.range' k (n + 1 - k)).map (fun v : ℕ => (v : ℤ)) ∧
    s.queryArray = queryArray ++ withNeighbors degree k (n + 1 - k) := by
  induction fuel generalizing k queryArray reads with
  | zero => cases h
  | succ fuel ih =>
      have hlen : n + 1 - k = (n - k) + 1 := by omega
      unfold fillQueries at h
      rw [turn_ofNat (by omega)] at h
      dsimp only at h
      rw [hlen, List.range'_succ, withNeighbors_succ]
      split at h
      · rename_i hexit
        have hnk : n - k = 0 := by
          have := (exit_iff hn (by omega)).mp hexit
          omega
        obtain rfl := Option.some.inj h
        simp [hnk, withNeighbors]
      · rename_i hstay
        have hkn : k + 1 ≤ n := by
          have := mt (exit_iff hn (by omega : k < 2 ^ 31)).mpr hstay
          omega
        obtain ⟨hreads, harray⟩ := ih hkn h
        have hrest : n + 1 - (k + 1) = n - k := by omega
        rw [hreads, harray, hrest]
        simp

/-- Every run ends. -/
theorem fillQueries_terminates (degree : ℤ → ℤ) (hn : n < 2 ^ 31) {fuel k : ℕ} (hk : k ≤ n)
    (hfuel : n - k < fuel) (queryArray : List (BitVec 32)) (reads : List ℤ) :
    ∃ s, fillQueries (.ofNat 32 n) degree fuel ⟨.ofNat 32 k, queryArray, reads⟩ = some s := by
  induction fuel generalizing k queryArray reads with
  | zero => omega
  | succ fuel ih =>
      unfold fillQueries
      rw [turn_ofNat (by omega)]
      dsimp only
      split
      · exact ⟨_, rfl⟩
      · rename_i hstay
        have hkn := mt (exit_iff hn (by omega : k < 2 ^ 31)).mpr hstay
        exact ih (by omega) (by omega) _ _

end Run

/-- What the loop is for: it ends, has read degrees of vertices only, and leaves the vertices with
neighbours in ascending order. -/
def CollectsQueries (n : ℕ) (degree : ℤ → ℤ) : Prop :=
  ∃ fuel s, fillQueries (.ofNat 32 n) degree fuel QueryLoop.start = some s ∧
    (∀ i ∈ s.reads, 0 ≤ i ∧ i < (n : ℤ)) ∧
    s.queryArray = withNeighbors degree 0 n

/-- For every graph, whatever lies behind its degrees: the loop ends, but it has read the word at
index `num_vertices` too, and that index is among the queries when the word is not zero. -/
theorem query_array_reads_past (n : ℕ) (degree : ℤ → ℤ) (hpos : 0 < n) (hn : n < 2 ^ 31) :
    (∃ fuel s, fillQueries (.ofNat 32 n) degree fuel QueryLoop.start = some s ∧
      s.reads = (List.range (n + 1)).map (fun v : ℕ => (v : ℤ)) ∧
      s.queryArray = withNeighbors degree 0 (n + 1)) ∧
    ¬ CollectsQueries n degree := by
  constructor
  · obtain ⟨s, hrun⟩ := fillQueries_terminates degree hn (Nat.zero_le n)
      (Nat.lt_succ_self _) [] []
    obtain ⟨hreads, harray⟩ := fillQueries_result hn (Nat.zero_le n) hrun
    refine ⟨_, s, hrun, ?_, harray⟩
    rw [hreads, List.range_eq_range']
    rfl
  · rintro ⟨fuel, s, hrun, hreads, -⟩
    have hall := (fillQueries_result hn (Nat.zero_le n) hrun).1
    have hlast : (n : ℤ) ∈ s.reads := by
      rw [hall]
      simp only [List.nil_append, List.mem_map, List.mem_range'_1]
      exact ⟨n, by omega, rfl⟩
    have hlt := (hreads _ hlast).2
    omega

/-- Two connected vertices, and nothing behind their degrees. -/
theorem query_array_reads_past_edge :
    (∃ fuel s, fillQueries (.ofNat 32 2) (fun i => if i < 2 then 1 else 0) fuel
        QueryLoop.start = some s ∧
      s.reads = [0, 1, 2] ∧ s.queryArray = [0, 1]) ∧
    ¬ CollectsQueries 2 (fun i => if i < 2 then 1 else 0) :=
  query_array_reads_past 2 _ (by decide) (by decide)

/-- A vertex without neighbours, with another word behind its degree: the word is read, and the only
query is for a vertex that does not exist. -/
theorem query_array_no_vertex :
    (∃ s, fillQueries 1 (fun i => if i = 1 then 7 else 0) 2 QueryLoop.start = some s ∧
      s.reads = [0, 1] ∧ s.queryArray = [1]) ∧
    ¬ CollectsQueries 1 (fun i => if i = 1 then 7 else 0) := by
  constructor
  · exact ⟨_, rfl, by decide, by decide⟩
  · rintro ⟨fuel, s, hrun, hreads, -⟩
    have hall := (fillQueries_result (n := 1) (by decide) (Nat.zero_le 1) hrun).1
    have hlast : (1 : ℤ) ∈ s.reads := by
      rw [hall]
      decide
    exact absurd (hreads 1 hlast).2 (by decide)

end RidgeWalker.Host
