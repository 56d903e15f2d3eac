import RidgeWalker.Host.Csr

/-!
# From an edge list to compressed rows

`load_edge_list` sorts the pairs, drops every pair that equals the one before it and every self
loop, and appends each end of the others to the row of the other end.  The rows are never sorted
themselves: their order comes from the order of the pairs.

Main results:

- Theorem `Built.addEdge`: what the loop over the sorted pairs keeps.
- Theorem `Built.foldl`: the whole loop.
- Theorem `load_edge_list_represents`: the rows are those of the undirected graph of the list.
- Theorem `load_edge_list_file`: the same for the lines of a file.
-/

namespace RidgeWalker.Host

open Slices

/-! ## Reading the file -/

/-- A line of the file. -/
inductive Line
  /-- It starts with the skip character. -/
  | skipped
  | edge (src dst : ℕ)
  /-- It does not begin with two numbers. -/
  | malformed

/-- One turn of the reading loop over the pairs and the largest vertex so far; a malformed line
ends the program. -/
def readLine (s : List (ℕ × ℕ) × ℕ) : Line → Option (List (ℕ × ℕ) × ℕ)
  | .skipped => some s
  | .malformed => none
  | .edge src dst =>
      let e := if src > dst then (dst, src) else (src, dst)
      let maxVertexId := if e.1 > s.2 then e.1 else s.2
      let maxVertexId := if e.2 > maxVertexId then e.2 else maxVertexId
      some (s.1 ++ [e], maxVertexId)

/-- `load_edge_list` on the lines of a file. -/
def readEdgeList (file : List Line) : Option (List (ℕ × ℕ) × ℕ) :=
  file.foldlM readLine ([], 0)

/-! ## Building the rows -/

/-- The comparison of `std::sort`. -/
def edgeLess (left right : ℕ × ℕ) : Bool :=
  if left.1 = right.1 then left.2 < right.2 else left.1 < right.1

/-- The sorted list. -/
def sortEdges (edgeList : List (ℕ × ℕ)) : List (ℕ × ℕ) :=
  edgeList.mergeSort fun left right => !edgeLess right left

/-- The variables of the loop over the sorted pairs. -/
structure EdgeLoop where
  prevEdge : ℕ × ℕ
  degreeArr : ℕ → ℕ
  adjArr : ℕ → List ℕ
  numEdges : ℕ

/-- One end of an edge: `degree_arr[src] += 1; adj_arr[src].emplace_back(dst);`. -/
def EdgeLoop.push (s : EdgeLoop) (src dst : ℕ) : EdgeLoop :=
  { s with
    degreeArr := Function.update s.degreeArr src (s.degreeArr src + 1)
    adjArr := Function.update s.adjArr src (s.adjArr src ++ [dst]) }

/-- One turn of the loop. -/
def EdgeLoop.addEdge (s : EdgeLoop) (edge : ℕ × ℕ) : EdgeLoop :=
  if s.prevEdge ≠ edge then
    let s := { s with prevEdge := edge }
    let (src, dst) := edge
    if src ≠ dst then
      let s := (s.push src dst).push dst src
      { s with numEdges := s.numEdges + 2 }
    else s
  else s

/-- The loop before the first pair. -/
def EdgeLoop.start (numVertices : ℕ) : EdgeLoop where
  prevEdge := (numVertices, numVertices)
  degreeArr := fun _ => 0
  adjArr := fun _ => []
  numEdges := 0

/-- `load_edge_list`.  The arrays `offset` and `adj` hold anything at first, and the threads copy
the rows in the order `order`. -/
def loadEdgeList (edgeList : List (ℕ × ℕ)) (maxVertexId : ℕ) (offset adj : ℕ → ℕ)
    (order : List ℕ) : Csr :=
  let numVertices := maxVertexId + 1
  let s := (sortEdges edgeList).foldl EdgeLoop.addEdge (EdgeLoop.start numVertices)
  let offset := fillOffsets s.degreeArr offset numVertices
  { numVertices
    numEdges := s.numEdges
    offset
    degree := s.degreeArr
    adj := order.foldl (fun adj i => overwrite adj (offset i) (s.adjArr i)) adj }

/-! ## The order of the pairs -/

/-- `left` does not come after `right`. -/
def EdgeLe (left right : ℕ × ℕ) : Prop :=
  left.1 < right.1 ∨ left.1 = right.1 ∧ left.2 ≤ right.2

theorem not_edgeLess {left right : ℕ × ℕ} :
    (!edgeLess right left) = true ↔ EdgeLe left right := by
  unfold edgeLess EdgeLe
  split <;> simp <;> omega

/-- A pair that is neither after nor before another one is that pair. -/
theorem EdgeLe.antisymm {left right : ℕ × ℕ} (h : EdgeLe left right) (h' : EdgeLe right left) :
    left = right := by
  unfold EdgeLe at h h'
  ext <;> omega

theorem sortEdges_perm (edgeList : List (ℕ × ℕ)) : (sortEdges edgeList).Perm edgeList :=
  List.mergeSort_perm ..

/-- Sorting sorts. -/
theorem sortEdges_pairwise (edgeList : List (ℕ × ℕ)) :
    (sortEdges edgeList).Pairwise EdgeLe := by
  have hsorted : (sortEdges edgeList).Pairwise fun left right => (!edgeLess right left) = true := by
    apply List.pairwise_mergeSort
    · intro a b c hab hbc
      rw [not_edgeLess] at hab hbc ⊢
      unfold EdgeLe at hab hbc ⊢
      omega
    · intro a b
      rw [Bool.or_eq_true, not_edgeLess, not_edgeLess]
      unfold EdgeLe
      omega
  exact hsorted.imp not_edgeLess.mp

/-! ## What the loop keeps -/

/-- The state after the pairs `done`: the rows so far are those of the graph of these pairs. -/
structure Built (n : ℕ) (done : List (ℕ × ℕ)) (s : EdgeLoop) : Prop where
  prev_last : s.prevEdge = done.getLast?.getD (n, n)
  ascending : ∀ v, (s.adjArr v).Pairwise (· < ·)
  mem_iff : ∀ v w, w ∈ s.adjArr v ↔ v ≠ w ∧ ((v, w) ∈ done ∨ (w, v) ∈ done)
  degree_eq : ∀ v, s.degreeArr v = (s.adjArr v).length
  numEdges_eq : s.numEdges = starts s.degreeArr n

theorem Built.start (n : ℕ) : Built n [] (EdgeLoop.start n) where
  prev_last := rfl
  ascending _ := List.Pairwise.nil
  mem_iff v w := by simp [EdgeLoop.start]
  degree_eq _ := rfl
  numEdges_eq := by simp [EdgeLoop.start, starts]

/-- One more cell in row `u`. -/
theorem starts_update_succ {d : ℕ → ℕ} {n u : ℕ} (hu : u < n) :
    starts (Function.update d u (d u + 1)) n = starts d n + 1 := by
  have hmem : u ∈ Finset.range n := Finset.mem_range.mpr hu
  unfold starts
  rw [Finset.sum_update_of_mem hmem, ← Finset.add_sum_erase _ _ hmem, ← Finset.erase_eq]
  omega

section Push

variable {s : EdgeLoop} {src dst : ℕ}

theorem EdgeLoop.push_adjArr (v : ℕ) : (s.push src dst).adjArr v =
    s.adjArr v ++ if v = src then [dst] else [] := by
  by_cases h : v = src
  · subst h
    simp [EdgeLoop.push]
  · simp [EdgeLoop.push, h]

theorem EdgeLoop.push_degreeArr (h : ∀ v, s.degreeArr v = (s.adjArr v).length) (v : ℕ) :
    (s.push src dst).degreeArr v = ((s.push src dst).adjArr v).length := by
  by_cases hv : v = src
  · subst hv
    simp [EdgeLoop.push, h]
  · simp [EdgeLoop.push, hv, h]

theorem EdgeLoop.push_starts {n : ℕ} (h : src < n) :
    starts (s.push src dst).degreeArr n = starts s.degreeArr n + 1 :=
  starts_update_succ h

end Push

/-- The pair before is the largest so far. -/
theorem le_getLast {done : List (ℕ × ℕ)} {edge last : ℕ × ℕ} (hsorted : done.Pairwise EdgeLe)
    (hlast : done.getLast? = some last) (hmem : edge ∈ done) : EdgeLe edge last := by
  obtain ⟨init, rfl⟩ := List.getLast?_eq_some_iff.mp hlast
  rcases List.mem_append.mp hmem with hmem | hmem
  · exact (List.pairwise_append.mp hsorted).2.2 edge hmem last (List.mem_singleton_self last)
  · obtain rfl := List.mem_singleton.mp hmem
    exact Or.inr ⟨rfl, le_rfl⟩

/-- In a sorted list, comparing with the pair before finds all repetitions. -/
theorem Built.prev_eq_iff {n : ℕ} {done : List (ℕ × ℕ)} {s : EdgeLoop} {edge : ℕ × ℕ}
    (h : Built n done s) (hsorted : (done ++ [edge]).Pairwise EdgeLe) (hlt : edge.1 < n) :
    s.prevEdge = edge ↔ edge ∈ done := by
  obtain ⟨hdone, -, hle⟩ := List.pairwise_append.mp hsorted
  rw [h.prev_last]
  cases hlast : done.getLast? with
  | none =>
      rw [List.getLast?_eq_none_iff] at hlast
      subst hlast
      constructor
      · rintro rfl
        exact absurd hlt (lt_irrefl n)
      · intro hmem
        simp at hmem
  | some last =>
      have hmem : last ∈ done := List.mem_of_getLast? hlast
      constructor
      · rintro rfl
        exact hmem
      · intro hedge
        exact (hle last hmem edge (List.mem_singleton_self edge)).antisymm
          (le_getLast hdone hlast hedge)

/-- One turn of the loop: a pair behind all others is added to both rows, or it is a repetition or
a self loop and the rows stay. -/
theorem Built.addEdge {n : ℕ} {done : List (ℕ × ℕ)} {s : EdgeLoop} {edge : ℕ × ℕ}
    (h : Built n done s) (hsorted : (done ++ [edge]).Pairwise EdgeLe)
    (hform : ∀ e ∈ done ++ [edge], e.1 ≤ e.2 ∧ e.2 < n) :
    Built n (done ++ [edge]) (s.addEdge edge) := by
  obtain ⟨src, dst⟩ := edge
  obtain ⟨hle, hlt⟩ := hform (src, dst) (by simp)
  have hbehind := (List.pairwise_append.mp hsorted).2.2
  have hrepeat := h.prev_eq_iff hsorted (lt_of_le_of_lt hle hlt)
  unfold EdgeLoop.addEdge
  split
  · rename_i hnew
    have hnew : (src, dst) ∉ done := fun hmem => hnew (hrepeat.mpr hmem)
    -- the pairs before are smaller, since none of them equals the new one
    have hsmaller : ∀ e ∈ done, e.1 < src ∨ e.1 = src ∧ e.2 < dst := by
      rintro ⟨a, b⟩ he
      have hle := hbehind (a, b) he (src, dst) (List.mem_singleton_self _)
      have hne : (a, b) ≠ (src, dst) := fun heq => hnew (heq ▸ he)
      unfold EdgeLe at hle
      simp only [ne_eq, Prod.mk.injEq] at hne
      dsimp only at hle ⊢
      omega
    dsimp only
    split
    · rename_i hloop
      have hdst : src < dst := lt_of_le_of_ne hle hloop
      constructor
      · simp [EdgeLoop.push]
      · intro v
        simp only [EdgeLoop.push_adjArr]
        have hrow := h.ascending v
        have hrow_mem := h.mem_iff v
        by_cases hv : v = src
        · subst hv
          simp only [if_true, if_neg hloop, List.append_nil]
          refine List.pairwise_append.mpr ⟨hrow, List.pairwise_singleton .., ?_⟩
          intro w hw z hz
          obtain rfl := List.mem_singleton.mp hz
          rcases ((hrow_mem w).mp hw).2 with hw | hw
          · have := hsmaller _ hw
            dsimp only at this
            omega
          · have := hform _ (List.mem_append_left _ hw)
            dsimp only at this
            omega
        · by_cases hv' : v = dst
          · subst hv'
            simp only [if_neg hv, if_true, List.append_nil]
            refine List.pairwise_append.mpr ⟨hrow, List.pairwise_singleton .., ?_⟩
            intro w hw z hz
            obtain rfl := List.mem_singleton.mp hz
            rcases ((hrow_mem w).mp hw).2 with hw | hw
            · have := hsmaller _ hw
              dsimp only at this
              omega
            · have := hsmaller _ hw
              dsimp only at this
              omega
          · simpa [hv, hv'] using hrow
      · intro v w
        simp only [EdgeLoop.push_adjArr, List.mem_append, h.mem_iff v w]
        grind
      · exact EdgeLoop.push_degreeArr (EdgeLoop.push_degreeArr h.degree_eq)
      · rw [EdgeLoop.push_starts hlt, EdgeLoop.push_starts (hdst.trans hlt), ← h.numEdges_eq]
        rfl
    · rename_i hloop
      obtain rfl : src = dst := not_not.mp hloop
      refine ⟨by simp, h.ascending, ?_, h.degree_eq, h.numEdges_eq⟩
      intro v w
      rw [h.mem_iff v w]
      grind
  · rename_i hold
    have hold : s.prevEdge = (src, dst) := not_not.mp hold
    refine ⟨by simpa using hold, h.ascending, ?_, h.degree_eq, h.numEdges_eq⟩
    intro v w
    rw [h.mem_iff v w]
    have hmem := hrepeat.mp hold
    grind

/-- The loop over all pairs. -/
theorem Built.foldl {n : ℕ} {done rest : List (ℕ × ℕ)} {s : EdgeLoop} (h : Built n done s)
    (hsorted : (done ++ rest).Pairwise EdgeLe)
    (hform : ∀ e ∈ done ++ rest, e.1 ≤ e.2 ∧ e.2 < n) :
    Built n (done ++ rest) (rest.foldl EdgeLoop.addEdge s) := by
  induction rest generalizing done s with
  | nil => simpa using h
  | cons edge rest ih =>
      rw [List.append_cons] at hsorted hform ⊢
      have hstep := h.addEdge (hsorted.sublist (List.sublist_append_left ..))
        (fun e he => hform e (List.mem_append_left _ he))
      exact ih hstep hsorted hform

/-! ## The rows in the array -/

section Rows

variable {edgeList : List (ℕ × ℕ)} {maxVertexId : ℕ} {offset adj : ℕ → ℕ} {order : List ℕ}

/-- The loop over the sorted pairs. -/
theorem built_sorted (hform : ∀ e ∈ edgeList, e.1 ≤ e.2 ∧ e.2 ≤ maxVertexId) :
    Built (maxVertexId + 1) (sortEdges edgeList)
      ((sortEdges edgeList).foldl EdgeLoop.addEdge (EdgeLoop.start (maxVertexId + 1))) := by
  apply (Built.start (maxVertexId + 1)).foldl
  · exact sortEdges_pairwise edgeList
  · intro e he
    have he : e ∈ edgeList := (sortEdges_perm edgeList).mem_iff.mp he
    exact ⟨(hform e he).1, Nat.lt_succ_of_le (hform e he).2⟩

/-- The threads copy every row to its place, in any order. -/
theorem neighbors_loadEdgeList (hform : ∀ e ∈ edgeList, e.1 ≤ e.2 ∧ e.2 ≤ maxVertexId)
    (horder : order.Perm (List.range (maxVertexId + 1))) {v : ℕ} (hv : v < maxVertexId + 1) :
    (loadEdgeList edgeList maxVertexId offset adj order).neighbors v =
      ((sortEdges edgeList).foldl EdgeLoop.addEdge
        (EdgeLoop.start (maxVertexId + 1))).adjArr v := by
  have hbuilt := built_sorted hform
  unfold loadEdgeList Csr.neighbors
  dsimp only
  generalize (sortEdges edgeList).foldl EdgeLoop.addEdge (EdgeLoop.start (maxVertexId + 1)) = s
    at hbuilt ⊢
  have hmem : v ∈ order := horder.mem_iff.mpr (List.mem_range.mpr hv)
  have hnodup : order.Nodup := horder.nodup_iff.mpr List.nodup_range
  have hoffsets : ∀ u ∈ order, fillOffsets s.degreeArr offset (maxVertexId + 1) u =
      starts s.degreeArr u := by
    intro u hu
    exact fillOffsets_eq _ _ (List.mem_range.mp (horder.mem_iff.mp hu)).le
  rw [hoffsets v hmem, List.foldl_ext _ (fun adj i => overwrite adj (starts s.degreeArr i)
    (s.adjArr i)) adj fun adj u hu => by rw [hoffsets u hu]]
  have hrows : Rowwise s.degreeArr (fun u _ => s.adjArr u) order :=
    ⟨fun u _ _ => (hbuilt.degree_eq u).symm, fun _ _ _ _ _ => rfl⟩
  exact slice_rewriteRows hrows hnodup hmem adj

/-- The rows, offsets and counters are those of the graph of the list. -/
theorem represents_loadEdgeList (hform : ∀ e ∈ edgeList, e.1 ≤ e.2 ∧ e.2 ≤ maxVertexId)
    (horder : order.Perm (List.range (maxVertexId + 1))) :
    (loadEdgeList edgeList maxVertexId offset adj order).Represents
      (SimpleGraph.fromRel fun a b => (a, b) ∈ edgeList) := by
  have hbuilt := built_sorted hform
  constructor
  · intro v hv
    rw [neighbors_loadEdgeList hform horder hv]
    exact hbuilt.ascending v
  · intro v hv w
    rw [neighbors_loadEdgeList hform horder hv, hbuilt.mem_iff,
      (sortEdges_perm edgeList).mem_iff, (sortEdges_perm edgeList).mem_iff,
      SimpleGraph.fromRel_adj]
  · intro v w hvw
    rw [SimpleGraph.fromRel_adj] at hvw
    rcases hvw.2 with h | h
    · exact Nat.lt_succ_of_le ((hform _ h).1.trans (hform _ h).2)
    · exact Nat.lt_succ_of_le (hform _ h).2
  · exact fun v hv => fillOffsets_eq _ _ hv
  · exact hbuilt.numEdges_eq

end Rows

/-! ## The whole file -/

/-- The pairs read so far are ordered and below the largest vertex so far. -/
def Ordered (s : List (ℕ × ℕ) × ℕ) : Prop := ∀ e ∈ s.1, e.1 ≤ e.2 ∧ e.2 ≤ s.2

/-- One line keeps the order of the pairs and adds its own edge. -/
theorem readLine_ordered {s s' : List (ℕ × ℕ) × ℕ} {line : Line} (hs : Ordered s)
    (h : readLine s line = some s') : Ordered s' ∧
      ∀ a b, ((a, b) ∈ s'.1 ∨ (b, a) ∈ s'.1) ↔
        ((a, b) ∈ s.1 ∨ (b, a) ∈ s.1) ∨ (line = .edge a b ∨ line = .edge b a) := by
  cases line with
  | skipped =>
      obtain rfl := Option.some.inj h
      exact ⟨hs, fun a b => by simp⟩
  | malformed => cases h
  | edge src dst =>
      obtain rfl := Option.some.inj h
      constructor
      · intro e he
        rcases List.mem_append.mp he with he | he
        · have := hs e he
          dsimp only
          split_ifs <;> omega
        · obtain rfl := List.mem_singleton.mp he
          dsimp only
          split_ifs <;> dsimp only at * <;> omega
      · intro a b
        dsimp only
        split_ifs <;> grind

/-- All lines. -/
theorem foldlM_readLine {file : List Line} {s s' : List (ℕ × ℕ) × ℕ} (hs : Ordered s)
    (h : file.foldlM readLine s = some s') : Ordered s' ∧
      ∀ a b, ((a, b) ∈ s'.1 ∨ (b, a) ∈ s'.1) ↔
        ((a, b) ∈ s.1 ∨ (b, a) ∈ s.1) ∨ (Line.edge a b ∈ file ∨ Line.edge b a ∈ file) := by
  induction file generalizing s with
  | nil =>
      obtain rfl := Option.some.inj h
      exact ⟨hs, fun a b => by simp⟩
  | cons line file ih =>
      rw [List.foldlM_cons] at h
      obtain ⟨t, ht, h⟩ := Option.bind_eq_some_iff.mp h
      obtain ⟨htord, htmem⟩ := readLine_ordered hs ht
      obtain ⟨hord, hmem⟩ := ih htord h
      refine ⟨hord, fun a b => ?_⟩
      rw [hmem a b, htmem a b]
      simp only [List.mem_cons]
      grind

/-- The whole file: the pairs have the form that `load_edge_list_represents` asks for, so the rows
are those of the undirected graph whose edges are the lines, whichever end a line names first. -/
theorem load_edge_list_file {file : List Line} {edgeList : List (ℕ × ℕ)} {maxVertexId : ℕ}
    (hread : readEdgeList file = some (edgeList, maxVertexId)) (offset adj : ℕ → ℕ)
    {order : List ℕ} (horder : order.Perm (List.range (maxVertexId + 1))) :
    (loadEdgeList edgeList maxVertexId offset adj order).Represents
      (SimpleGraph.fromRel fun a b => Line.edge a b ∈ file) := by
  have hempty : Ordered ([], 0) := by
    intro e he
    simp at he
  obtain ⟨hform, hmem⟩ := foldlM_readLine hempty hread
  have hgraph : (SimpleGraph.fromRel fun a b => (a, b) ∈ edgeList) =
      SimpleGraph.fromRel fun a b => Line.edge a b ∈ file := by
    ext a b
    rw [SimpleGraph.fromRel_adj, SimpleGraph.fromRel_adj]
    simpa using fun _ => hmem a b
  rw [← hgraph]
  exact represents_loadEdgeList hform horder

end RidgeWalker.Host
