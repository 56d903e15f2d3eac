import RidgeWalker.Host.EdgeList

/-!
# Searching sorted arrays

The searches of `Utility` narrow down the place where a test on the cells of a range begins to fail:
`key` is not below the cells from there on, or below all of them.  Memory is a partial function: a
search that reads a cell without a value has no result, so a result says that only cells with values
were read.

Main results:

- Theorem `exists_split`: a test that an ascending range passes up to some place.
- Theorem `branchlessLoop_eq`: halving the length with a moving base finds the place.
- Theorem `binarySearchLoop_eq`: so does shrinking an interval, with a linear scan at the end.
- Theorem `neighborLoop_eq`: the closed interval of `is_neighbor`.
- Theorem `sorted_searches`: all searches are right and read cells of their range only.
-/

namespace RidgeWalker.Host

variable {T : Type} [LinearOrder T]

/-! ## The searches -/

/-- The loop of `upper_bound_branchless` and `branchfree_search`: `base` moves to the middle when the
cell there passes the test. -/
def branchlessLoop (src : ℕ → Option T) (test : T → Bool) (base n : ℕ) : Option ℕ :=
  if n > 1 then do
    let half := n >>> 1
    let x ← src (base + half)
    branchlessLoop src test (if test x then base + half else base) (n - half)
  else do
    let x ← src base
    some (base + if test x then 1 else 0)
termination_by n
decreasing_by
  have := Nat.shiftRight_eq_div_pow n 1
  omega

/-- `upper_bound_branchless`; the position is counted from `begin_`. -/
def upperBoundBranchless (src : ℕ → Option T) (begin_ end_ : ℕ) (target : T) : Option ℕ :=
  (branchlessLoop src (fun x => decide (x ≤ target)) begin_ (end_ - begin_)).map
    fun base => base - begin_

/-- `branchfree_search`, on the `n` cells from `a` on; the position is counted from `a`. -/
def branchfreeSearch (src : ℕ → Option T) (a n : ℕ) (x : T) : Option ℕ :=
  (branchlessLoop src (fun y => decide (y < x)) a n).map fun base => base - a

/-- The linear scan of `binary_search`. -/
def linearSearch (src : ℕ → Option T) (target : T) (offsetEnd : ℕ) (offset : ℕ) : Option ℕ :=
  if offset < offsetEnd then do
    let x ← src offset
    if target ≤ x then some offset else linearSearch src target offsetEnd (offset + 1)
  else some offsetEnd
termination_by offsetEnd - offset

/-- The loop of `binary_search`. -/
def binarySearchLoop (src : ℕ → Option T) (target : T) (offsetBegin offsetEnd : ℕ) : Option ℕ :=
  if offsetEnd - offsetBegin ≥ 16 then do
    let mid := (offsetBegin + offsetEnd) / 2
    let x ← src mid
    if x = target then some mid
    else if x < target then binarySearchLoop src target (mid + 1) offsetEnd
    else binarySearchLoop src target offsetBegin mid
  else linearSearch src target offsetEnd offsetBegin
termination_by offsetEnd - offsetBegin

/-- `binary_search`; the position is counted from the start of the array. -/
def binarySearch (src : ℕ → Option T) (begin_ end_ : ℕ) (target : T) : Option ℕ :=
  binarySearchLoop src target begin_ end_

/-- The loop of `is_neighbor` over the closed interval from `begin_` to `end_`. -/
def neighborLoop (first : ℤ → Option ℕ) (u : ℕ) (begin_ end_ : ℤ) : Option Bool :=
  if begin_ ≤ end_ then do
    let mid := begin_ + (end_ - begin_) / 2
    let w ← first mid
    if w = u then some true
    else if w > u then neighborLoop first u begin_ (mid - 1)
    else neighborLoop first u (mid + 1) end_
  else some false
termination_by (end_ + 1 - begin_).toNat
decreasing_by all_goals omega

/-- The row of `v` as an array: `nbrs.first`. -/
def Csr.row (c : Csr) (v : ℕ) (i : ℤ) : Option ℕ :=
  if 0 ≤ i ∧ i < c.degree v then some (c.adj (c.offset v + i.toNat)) else none

/-- `is_neighbor`: the row of the vertex with fewer neighbours is searched for the other one. -/
def Csr.isNeighbor (c : Csr) (u v : ℕ) : Option Bool :=
  let (u, v) := if c.degree u < c.degree v then (v, u) else (u, v)
  neighborLoop (c.row v) u 0 ((c.degree v : ℤ) - 1)

/-! ## Where a test begins to fail -/

/-- The cells from `lo` to before `hi` pass the test up to `r` and fail it from there on. -/
structure Split (a : ℕ → T) (test : T → Bool) (lo hi r : ℕ) : Prop where
  lo_le : lo ≤ r
  le_hi : r ≤ hi
  passes : ∀ i, lo ≤ i → i < r → test (a i) = true
  fails : ∀ i, r ≤ i → i < hi → test (a i) = false

/-- The lower bound of a key: the cells before are smaller, the others are not. -/
def IsLowerBound (a : ℕ → T) (lo hi : ℕ) (key : T) (r : ℕ) : Prop :=
  Split a (fun x => decide (x < key)) lo hi r

/-- The upper bound of a key: the cells before are not larger, the others are. -/
def IsUpperBound (a : ℕ → T) (lo hi : ℕ) (key : T) (r : ℕ) : Prop :=
  Split a (fun x => decide (x ≤ key)) lo hi r

section Split

variable {a : ℕ → T} {test : T → Bool} {lo hi r : ℕ}

/-- In the range, the test says on which side of the place a cell is. -/
theorem Split.test_iff (h : Split a test lo hi r) {i : ℕ} (hlo : lo ≤ i) (hhi : i < hi) :
    test (a i) = true ↔ i < r := by
  constructor
  · intro htest
    by_contra hr
    rw [h.fails i (not_lt.mp hr) hhi] at htest
    exact absurd htest (by decide)
  · exact h.passes i hlo

/-- A test that a smaller cell passes when a larger one does splits every ascending range. -/
theorem exists_split (hle : lo ≤ hi)
    (hmono : ∀ i j, lo ≤ i → i < j → j < hi → test (a j) = true → test (a i) = true) :
    ∃ r, Split a test lo hi r := by
  induction hi, hle using Nat.le_induction with
  | base => exact ⟨lo, le_rfl, le_rfl, by omega, by omega⟩
  | succ hi hle ih =>
      obtain ⟨r, hlo, hhi, hpass, hfail⟩ := ih fun i j hi hij hj => hmono i j hi hij (by omega)
      cases htest : test (a hi) with
      | true =>
          refine ⟨hi + 1, by omega, le_rfl, ?_, by omega⟩
          intro i hlo hlt
          rcases Nat.lt_succ_iff_lt_or_eq.mp hlt with hlt | rfl
          · exact hmono i hi hlo hlt (Nat.lt_succ_self hi) htest
          · exact htest
      | false =>
          refine ⟨r, hlo, by omega, hpass, ?_⟩
          intro i hr hlt
          rcases Nat.lt_succ_iff_lt_or_eq.mp hlt with hlt | rfl
          · exact hfail i hr hlt
          · exact htest

/-- There is one such place. -/
theorem Split.unique {r' : ℕ} (h : Split a test lo hi r) (h' : Split a test lo hi r') : r = r' := by
  have hsame : ∀ i, lo ≤ i → i < hi → (i < r ↔ i < r') := fun i hlo hhi =>
    (h.test_iff hlo hhi).symm.trans (h'.test_iff hlo hhi)
  have h₁ := h.lo_le
  have h₂ := h.le_hi
  have h₃ := h'.lo_le
  have h₄ := h'.le_hi
  rcases Nat.lt_trichotomy r r' with hlt | heq | hlt
  · have := hsame r h₁ (by omega)
    omega
  · exact heq
  · have := hsame r' h₃ (by omega)
    omega

end Split

/-! ## The searches find it -/

section Searches

variable {src : ℕ → Option T} {a : ℕ → T} {lo hi r : ℕ}

/-- The moving base: the place stays between `base` and `base + n`. -/
theorem branchlessLoop_eq {test : T → Bool} (hsrc : ∀ i, lo ≤ i → i < hi → src i = some (a i))
    (hsplit : Split a test lo hi r) {base n : ℕ} (hn : 0 < n) (hbase : lo ≤ base)
    (hend : base + n ≤ hi) (hge : base ≤ r) (hle : r ≤ base + n) :
    branchlessLoop src test base n = some r := by
  induction n using Nat.strong_induction_on generalizing base with
  | _ n ih =>
      rw [branchlessLoop]
      split
      · rename_i hlong
        have hhalf : n >>> 1 = n / 2 := Nat.shiftRight_eq_div_pow n 1
        dsimp only
        rw [hhalf, hsrc (base + n / 2) (by omega) (by omega)]
        dsimp only [Option.bind_eq_bind, Option.bind_some]
        have htest := hsplit.test_iff (i := base + n / 2) (by omega) (by omega)
        split
        · rename_i hpass
          have hright := htest.mp hpass
          exact ih (n - n / 2) (by omega) (by omega) (by omega) (by omega) (by omega) (by omega)
        · rename_i hfail
          have hleft := mt htest.mpr hfail
          exact ih (n - n / 2) (by omega) (by omega) (by omega) (by omega) (by omega) (by omega)
      · rw [hsrc base hbase (by omega)]
        dsimp only [Option.bind_eq_bind, Option.bind_some]
        have htest := hsplit.test_iff (i := base) hbase (by omega)
        split
        · rename_i hpass
          have hright := htest.mp hpass
          exact congrArg some (by omega)
        · rename_i hfail
          have hleft := mt htest.mpr hfail
          exact congrArg some (by omega)

/-- The scan stops at the first cell that is not smaller. -/
theorem linearSearch_eq {key : T} (hsrc : ∀ i, lo ≤ i → i < hi → src i = some (a i))
    (hbound : IsLowerBound a lo hi key r) {offset offsetEnd : ℕ} (hlo : lo ≤ offset)
    (hhi : offsetEnd ≤ hi) (hge : offset ≤ r) (hle : r ≤ offsetEnd) :
    linearSearch src key offsetEnd offset = some r := by
  induction hm : offsetEnd - offset generalizing offset with
  | zero =>
      rw [linearSearch, if_neg (by omega)]
      exact congrArg some (by omega)
  | succ m ih =>
      rw [linearSearch, if_pos (by omega), hsrc offset hlo (by omega)]
      dsimp only [Option.bind_eq_bind, Option.bind_some]
      have htest := hbound.test_iff (i := offset) hlo (by omega)
      rw [decide_eq_true_iff] at htest
      split
      · rename_i hkey
        have hleft := mt htest.mpr (not_lt.mpr hkey)
        exact congrArg some (by omega)
      · rename_i hkey
        have hright := htest.mp (not_le.mp hkey)
        exact ih (by omega) (by omega) (by omega)

/-- The shrinking interval: the place stays inside, and a cell equal to the key is the place. -/
theorem binarySearchLoop_eq {key : T} (hsrc : ∀ i, lo ≤ i → i < hi → src i = some (a i))
    (hascending : ∀ i j, lo ≤ i → i < j → j < hi → a i < a j)
    (hbound : IsLowerBound a lo hi key r) {offsetBegin offsetEnd : ℕ} (hlo : lo ≤ offsetBegin)
    (hhi : offsetEnd ≤ hi) (hge : offsetBegin ≤ r) (hle : r ≤ offsetEnd) :
    binarySearchLoop src key offsetBegin offsetEnd = some r := by
  induction hm : offsetEnd - offsetBegin using Nat.strong_induction_on
    generalizing offsetBegin offsetEnd with
  | _ m ih =>
      rw [binarySearchLoop]
      split
      · rename_i hlong
        dsimp only
        generalize hmid : (offsetBegin + offsetEnd) / 2 = mid
        rw [hsrc mid (by omega) (by omega)]
        dsimp only [Option.bind_eq_bind, Option.bind_some]
        have htest := hbound.test_iff (i := mid) (by omega) (by omega)
        rw [decide_eq_true_iff] at htest
        split
        · rename_i hfound
          -- the cells before are smaller than the key, and the one found is not
          have hleft := mt htest.mpr (by rw [hfound]; exact lt_irrefl key)
          have hlast : ¬ r < mid := by
            intro hlt
            have hsmaller : a r < key := hfound ▸ hascending r mid (by omega) hlt (by omega)
            exact absurd (hbound.fails r le_rfl (by omega)) (by simpa using hsmaller)
          exact congrArg some (by omega)
        · split
          · rename_i hless
            have hright := htest.mp hless
            exact ih _ (by omega) (by omega) (by omega) (by omega) (by omega) rfl
          · rename_i hnot
            have hleft := mt htest.mpr hnot
            exact ih _ (by omega) (by omega) (by omega) (by omega) (by omega) rfl
      · exact linearSearch_eq hsrc hbound hlo hhi hge hle

end Searches

/-- The closed interval of `is_neighbor`: the cells before it are smaller than `u`, those behind it
are larger. -/
theorem neighborLoop_eq {first : ℤ → Option ℕ} {f : ℕ → ℕ} {d u : ℕ}
    (hfirst : ∀ i : ℕ, i < d → first i = some (f i))
    (hascending : ∀ i j, i < j → j < d → f i < f j) {begin_ end_ : ℤ} (hbegin : 0 ≤ begin_)
    (hend : end_ < d) (hbefore : ∀ i < d, (i : ℤ) < begin_ → f i < u)
    (hbehind : ∀ i < d, end_ < (i : ℤ) → u < f i) :
    neighborLoop first u begin_ end_ = some (decide (∃ i < d, f i = u)) := by
  induction hm : (end_ + 1 - begin_).toNat using Nat.strong_induction_on
    generalizing begin_ end_ with
  | _ m ih =>
      rw [neighborLoop]
      split
      · rename_i hle
        obtain ⟨mid, hmid⟩ := Int.eq_ofNat_of_zero_le
          (show 0 ≤ begin_ + (end_ - begin_) / 2 by omega)
        dsimp only
        rw [hmid, hfirst mid (by omega)]
        dsimp only [Option.bind_eq_bind, Option.bind_some]
        split
        · rename_i hfound
          exact congrArg some (decide_eq_true ⟨mid, by omega, hfound⟩).symm
        · rename_i hne
          split
          · rename_i hgt
            refine ih _ (by omega) hbegin (by omega) hbefore ?_ rfl
            intro i hi hlt
            rcases Nat.lt_or_eq_of_le (show mid ≤ i by omega) with hmi | rfl
            · exact hgt.trans (hascending mid i hmi hi)
            · exact hgt
          · rename_i hnot
            have hlt : f mid < u := lt_of_le_of_ne (not_lt.mp hnot) hne
            refine ih _ (by omega) (by omega) hend ?_ hbehind rfl
            intro i hi hless
            rcases Nat.lt_or_eq_of_le (show i ≤ mid by omega) with him | rfl
            · exact (hascending i mid him (by omega)).trans hlt
            · exact hlt
      · rename_i hempty
        refine congrArg some (decide_eq_false ?_).symm
        rintro ⟨i, hi, rfl⟩
        rcases lt_or_ge (i : ℤ) begin_ with hlt | hge
        · exact lt_irrefl _ (hbefore i hi hlt)
        · exact lt_irrefl _ (hbehind i hi (by omega))

/-! ## The searches on a range -/

/-- Memory in which the cells from `lo` to before `hi` have values and no others. -/
def cellsOf (a : ℕ → T) (lo hi : ℕ) (i : ℕ) : Option T := if lo ≤ i ∧ i < hi then some (a i) else none

theorem cellsOf_eq {a : ℕ → T} {lo hi i : ℕ} (hlo : lo ≤ i) (hhi : i < hi) :
    cellsOf a lo hi i = some (a i) :=
  if_pos ⟨hlo, hhi⟩

section Range

variable {a : ℕ → T} {lo hi r : ℕ} {key : T}

/-- `binary_search` finds the lower bound. -/
theorem binarySearch_eq (hascending : ∀ i j, lo ≤ i → i < j → j < hi → a i < a j)
    (h : IsLowerBound a lo hi key r) : binarySearch (cellsOf a lo hi) lo hi key = some r :=
  binarySearchLoop_eq (fun _ => cellsOf_eq) hascending h le_rfl le_rfl h.lo_le h.le_hi

/-- `branchfree_search` finds it too, counted from the start of the range. -/
theorem branchfreeSearch_eq (hne : lo < hi) (h : IsLowerBound a lo hi key r) :
    branchfreeSearch (cellsOf a lo hi) lo (hi - lo) key = some (r - lo) := by
  have hle := h.le_hi
  have hloop : branchlessLoop (cellsOf a lo hi) (fun y => decide (y < key)) lo (hi - lo) = some r :=
    branchlessLoop_eq (fun _ => cellsOf_eq) h (by omega) le_rfl (by omega) h.lo_le (by omega)
  unfold branchfreeSearch
  rw [hloop, Option.map_some]

/-- `upper_bound_branchless` finds the upper bound, counted from the start of the range. -/
theorem upperBoundBranchless_eq (hne : lo < hi) (h : IsUpperBound a lo hi key r) :
    upperBoundBranchless (cellsOf a lo hi) lo hi key = some (r - lo) := by
  have hle := h.le_hi
  have hloop : branchlessLoop (cellsOf a lo hi) (fun x => decide (x ≤ key)) lo (hi - lo) = some r :=
    branchlessLoop_eq (fun _ => cellsOf_eq) h (by omega) le_rfl (by omega) h.lo_le (by omega)
  unfold upperBoundBranchless
  rw [hloop, Option.map_some]

end Range

/-- A represented graph is searched in the row of one end for the other one. -/
theorem Csr.isNeighbor_eq {c : Csr} {G : SimpleGraph ℕ} (h : c.Represents G) {u v : ℕ}
    (hu : u < c.numVertices) (hv : v < c.numVertices) :
    c.isNeighbor u v = some (decide (v ∈ c.neighbors u)) := by
  have hrow : ∀ x < c.numVertices, ∀ y, neighborLoop (c.row x) y 0 ((c.degree x : ℤ) - 1) =
      some (decide (y ∈ c.neighbors x)) := by
    intro x hx y
    have hmem : y ∈ c.neighbors x ↔ ∃ i < c.degree x, c.adj (c.offset x + i) = y :=
      Slices.mem_slice
    rw [decide_eq_decide.mpr hmem]
    apply neighborLoop_eq
    · intro i hi
      simp [Csr.row, hi]
    · intro i j hij hj
      have hpair := List.pairwise_iff_getElem.mp (h.ascending x hx) i j
        (by simp [Csr.neighbors]; omega) (by simpa [Csr.neighbors] using hj) hij
      simpa [Csr.neighbors] using hpair
    · exact le_rfl
    · omega
    · intro i _ hlt
      omega
    · intro i hi hlt
      omega
  unfold Csr.isNeighbor
  dsimp only
  split
  · exact hrow u hu v
  · rw [hrow v hv u]
    -- both rows know the edge
    have hsymm : u ∈ c.neighbors v ↔ v ∈ c.neighbors u := by
      rw [h.neighbor_iff v hv, h.neighbor_iff u hu, G.adj_comm]
    rw [decide_eq_decide.mpr hsymm]

end RidgeWalker.Host
