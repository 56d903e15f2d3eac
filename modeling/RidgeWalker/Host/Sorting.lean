import Mathlib

/-!
# Sorting indices

Sorting the positions of an array by their keys, in place of the keys themselves.

Main results:

- Theorem `sortIndex_perm`: every position occurs once.
- Theorem `mergeSort_stable`: a stable sort keeps the order of equal keys.
- Theorem `unique_pairwise`: a sorted list without its repetitions is strictly ascending.
- Theorem `map_sortIndex`: the keys read in the order of the sorted positions are the sorted keys.
-/

namespace RidgeWalker.Sorting

/-- The numbers in ascending order. -/
def sort (l : List ℕ) : List ℕ := l.mergeSort

theorem sort_perm (l : List ℕ) : (sort l).Perm l := List.mergeSort_perm ..

theorem sort_pairwise (l : List ℕ) : (sort l).Pairwise (· ≤ ·) := by
  have hsorted : (sort l).Pairwise fun a b => decide (a ≤ b) = true := by
    apply List.pairwise_mergeSort
    · intro a b c hab hbc
      simp only [decide_eq_true_eq] at hab hbc ⊢
      omega
    · intro a b
      simp only [Bool.or_eq_true, decide_eq_true_eq]
      omega
  simpa only [decide_eq_true_eq] using hsorted

@[simp]
theorem length_sort (l : List ℕ) : (sort l).length = l.length := (sort_perm l).length_eq

/-- Two ascending lists with the same members, repetitions counted, are equal. -/
theorem eq_sort {l m : List ℕ} (hperm : m.Perm l) (hsorted : m.Pairwise (· ≤ ·)) :
    m = sort l :=
  (hperm.trans (sort_perm l).symm).eq_of_pairwise (fun _ _ _ _ => Nat.le_antisymm) hsorted
    (sort_pairwise l)

/-- Distinct numbers come out strictly ascending. -/
theorem sort_pairwise_lt {l : List ℕ} (h : l.Nodup) : (sort l).Pairwise (· < ·) := by
  have hnodup : (sort l).Nodup := (sort_perm l).nodup_iff.mpr h
  exact (sort_pairwise l).imp₂ (fun _ _ hle hne => lt_of_le_of_ne hle hne) hnodup

/-- The positions below `n` in the ascending order of their keys. -/
def sortIndex (key : ℕ → ℕ) (n : ℕ) : List ℕ :=
  (List.range n).mergeSort fun l r => !decide (key r < key l)

theorem sortIndex_perm (key : ℕ → ℕ) (n : ℕ) : (sortIndex key n).Perm (List.range n) :=
  List.mergeSort_perm ..

@[simp]
theorem length_sortIndex (key : ℕ → ℕ) (n : ℕ) : (sortIndex key n).length = n := by
  rw [(sortIndex_perm key n).length_eq, List.length_range]

theorem mem_sortIndex {key : ℕ → ℕ} {n i : ℕ} : i ∈ sortIndex key n ↔ i < n := by
  rw [(sortIndex_perm key n).mem_iff, List.mem_range]

/-- The positions of a later key come later. -/
theorem sortIndex_pairwise (key : ℕ → ℕ) (n : ℕ) :
    (sortIndex key n).Pairwise fun l r => key l ≤ key r := by
  have hsorted : (sortIndex key n).Pairwise fun l r => (!decide (key r < key l)) = true := by
    apply List.pairwise_mergeSort
    · intro a b c hab hbc
      simp only [Bool.not_eq_true', decide_eq_false_iff_not, not_lt] at hab hbc ⊢
      omega
    · intro a b
      simp only [Bool.or_eq_true, Bool.not_eq_true', decide_eq_false_iff_not, not_lt]
      omega
  simpa only [Bool.not_eq_true', decide_eq_false_iff_not, not_lt] using hsorted

/-- Reading the keys in the order of the sorted positions sorts the keys. -/
theorem map_sortIndex (key : ℕ → ℕ) (n : ℕ) :
    (sortIndex key n).map key = sort ((List.range n).map key) := by
  apply eq_sort
  · exact (sortIndex_perm key n).map key
  · exact List.pairwise_map.mpr (sortIndex_pairwise key n)

/-- Only the keys of the positions matter. -/
theorem sortIndex_congr {key key' : ℕ → ℕ} {n : ℕ} (h : ∀ i < n, key i = key' i) :
    sortIndex key n = sortIndex key' n := by
  have hmap := List.map_mergeSort (r := fun l r => !decide (key r < key l))
    (s := fun l r => !decide (key' r < key' l)) (f := id) (l := List.range n)
    (fun a ha b hb => by
      rw [h a (List.mem_range.mp ha), h b (List.mem_range.mp hb)]
      rfl)
  simpa [sortIndex] using hmap

/-! ## Stability -/

/-- In an ascending list a smaller member stands before a larger one. -/
theorem pair_sublist_of_lt {l : List ℕ} (h : l.Pairwise (· < ·)) {a b : ℕ} (ha : a ∈ l)
    (hb : b ∈ l) (hab : a < b) : [a, b].Sublist l := by
  obtain ⟨init, rest, rfl⟩ := List.append_of_mem ha
  have hrest : b ∈ rest := by
    rcases List.mem_append.mp hb with hb | hb
    · have := (List.pairwise_append.mp h).2.2 b hb a List.mem_cons_self
      omega
    · rcases List.mem_cons.mp hb with rfl | hb
      · omega
      · exact hb
  exact ((List.singleton_sublist.mpr hrest).cons_cons a).trans (List.sublist_append_right _ _)

/-- Two members of a list without repetitions stand in one order only. -/
theorem pair_sublist_asymm {l : List ℕ} (h : l.Nodup) {a b : ℕ} (hab : [a, b].Sublist l) :
    ¬ [b, a].Sublist l := by
  have hpos : l.Pairwise fun x y => l.idxOf x < l.idxOf y := by
    rw [List.pairwise_iff_getElem]
    intro i j hi hj hij
    rw [h.idxOf_getElem, h.idxOf_getElem]
    exact hij
  intro hba
  have h₁ := List.pairwise_iff_forall_sublist.mp hpos hab
  have h₂ := List.pairwise_iff_forall_sublist.mp hpos hba
  omega

/-- A stable sort of an ascending list: members that neither precedes stay in ascending order. -/
theorem mergeSort_stable {le : ℕ → ℕ → Bool} (htrans : ∀ a b c, le a b → le b c → le a c)
    (htotal : ∀ a b, le a b || le b a) {l : List ℕ} (hl : l.Pairwise (· < ·)) :
    (l.mergeSort le).Pairwise fun a b => le a b = true ∧ (le b a = true → a < b) := by
  have hsorted := List.pairwise_mergeSort htrans htotal l
  have hnodup : (l.mergeSort le).Nodup :=
    (List.mergeSort_perm l le).nodup_iff.mpr (hl.imp ne_of_lt)
  rw [List.pairwise_iff_forall_sublist]
  intro a b hab
  refine ⟨List.pairwise_iff_forall_sublist.mp hsorted hab, fun hba => ?_⟩
  have hne : a ≠ b := List.pairwise_iff_forall_sublist.mp hnodup hab
  have ha : a ∈ l := List.mem_mergeSort.mp (hab.subset (by simp))
  have hb : b ∈ l := List.mem_mergeSort.mp (hab.subset (by simp))
  by_contra hlt
  -- otherwise the sort would have kept them in the other order
  have hswapped : [b, a].Sublist (l.mergeSort le) :=
    List.pair_sublist_mergeSort htrans htotal hba
      (pair_sublist_of_lt hl hb ha (by omega))
  exact pair_sublist_asymm hnodup hab hswapped

/-- `std::unique` on a sorted list: the repetitions stand side by side. -/
theorem unique_pairwise {l : List ℕ} (h : l.Pairwise (· ≤ ·)) :
    (l.destutter (· ≠ ·)).Pairwise (· < ·) := by
  have hle : (l.destutter (· ≠ ·)).IsChain (· ≤ ·) :=
    (h.sublist (List.destutter_sublist _ l)).isChain
  have hlt : (l.destutter (· ≠ ·)).IsChain (· < ·) := by
    have hne := List.isChain_destutter (· ≠ ·) l
    rw [List.isChain_iff_getElem] at hle hne ⊢
    exact fun i hi => lt_of_le_of_ne (hle i hi) (hne i hi)
  exact List.isChain_iff_pairwise.mp hlt

/-- Removing consecutive repetitions keeps the members. -/
theorem mem_unique {l : List ℕ} {a : ℕ} : a ∈ l.destutter (· ≠ ·) ↔ a ∈ l := by
  have hmem : ∀ (l : List ℕ) (b : ℕ), a ∈ l.destutter' (· ≠ ·) b ↔ a = b ∨ a ∈ l := by
    intro l
    induction l with
    | nil => simp
    | cons c l ih =>
        intro b
        by_cases hbc : b = c
        · subst hbc
          rw [List.destutter'_cons_neg _ (by simp), ih]
          simp
        · rw [List.destutter'_cons_pos _ hbc, List.mem_cons, ih, List.mem_cons]
  cases l with
  | nil => simp
  | cons b l => rw [List.destutter_cons', hmem, List.mem_cons]

end RidgeWalker.Sorting
