import Mathlib

/-!
# Order-preserving interleavings

The relation between two sequences and a sequence that merges them without
reordering, losing or repeating any of their members.

Main results:

- Theorem `Interleave.perm`: a merge contains exactly the members of its two parts.
- Theorem `Interleave.filter`: filtering commutes with merging.
- Theorem `Interleave.eq_left`: a merge with nothing is the other part.
-/

namespace RidgeWalker.Dataflow

/-- `Interleave l r m`: the list `m` merges `l` and `r`, keeping the order of each. -/
inductive Interleave {α : Type} : List α → List α → List α → Prop where
  | nil : Interleave [] [] []
  | left {l r m} (h : Interleave l r m) (a : α) : Interleave (l ++ [a]) r (m ++ [a])
  | right {l r m} (h : Interleave l r m) (a : α) : Interleave l (r ++ [a]) (m ++ [a])

namespace Interleave

variable {α : Type} {l r m : List α}

/-- A merge contains exactly the members of its two parts. -/
theorem perm (h : Interleave l r m) : m.Perm (l ++ r) := by
  induction h with
  | nil => exact .refl _
  | @left l r m _ a ih =>
      calc (m ++ [a]).Perm ((l ++ r) ++ [a]) := ih.append_right _
        _ = l ++ (r ++ [a]) := List.append_assoc _ _ _
        _ |>.Perm (l ++ ([a] ++ r)) := List.perm_append_comm.append_left _
        _ = (l ++ [a]) ++ r := (List.append_assoc _ _ _).symm
  | @right l r m _ a ih =>
      calc (m ++ [a]).Perm ((l ++ r) ++ [a]) := ih.append_right _
        _ = l ++ (r ++ [a]) := List.append_assoc _ _ _

theorem mem_iff (h : Interleave l r m) {a : α} : a ∈ m ↔ a ∈ l ∨ a ∈ r := by
  rw [h.perm.mem_iff, List.mem_append]

/-- Filtering a merge merges the filtered parts. -/
theorem filter (h : Interleave l r m) (q : α → Bool) :
    Interleave (l.filter q) (r.filter q) (m.filter q) := by
  induction h with
  | nil => exact .nil
  | left _ a ih =>
      cases hq : q a
      · simpa [hq] using ih
      · simpa [hq] using ih.left a
  | right _ a ih =>
      cases hq : q a
      · simpa [hq] using ih
      · simpa [hq] using ih.right a

theorem comm (h : Interleave l r m) : Interleave r l m := by
  induction h with
  | nil => exact .nil
  | left _ a ih => exact ih.right a
  | right _ a ih => exact ih.left a

/-- Merging with nothing changes nothing. -/
theorem eq_left (h : Interleave l [] m) : m = l := by
  generalize hr : ([] : List α) = r at h
  induction h with
  | nil => rfl
  | left _ a ih => rw [ih hr]
  | right _ a _ => simp at hr

/-- What a merge begins with merges what its parts begin with. -/
theorem of_isPrefix (h : Interleave l r m) {m' : List α} (hm : m' <+: m) :
    ∃ l' r', l' <+: l ∧ r' <+: r ∧ Interleave l' r' m' := by
  induction h with
  | nil =>
      rw [List.prefix_nil.mp hm]
      exact ⟨[], [], List.prefix_rfl, List.prefix_rfl, .nil⟩
  | @left l r m h a ih =>
      rcases List.prefix_concat_iff.mp hm with rfl | hm
      · exact ⟨_, _, List.prefix_rfl, List.prefix_rfl, h.left a⟩
      · obtain ⟨l', r', hl, hr, hm'⟩ := ih hm
        exact ⟨l', r', hl.trans (List.prefix_append _ _), hr, hm'⟩
  | @right l r m h a ih =>
      rcases List.prefix_concat_iff.mp hm with rfl | hm
      · exact ⟨_, _, List.prefix_rfl, List.prefix_rfl, h.right a⟩
      · obtain ⟨l', r', hl, hr, hm'⟩ := ih hm
        exact ⟨l', r', hl, hr.trans (List.prefix_append _ _), hm'⟩

end Interleave

end RidgeWalker.Dataflow
