import Mathlib

/-!
# Deferred writes

Writes to the places of a store are decided on at one time and carried out, in order, at a later
one.  When every write is larger than what its place holds and no smaller than the writes to the
same place that are still to come before it, no place ever loses anything.

Main results:

- Theorem `Rising.push`: deciding on a write.
- Theorem `Rising.carryOut`: carrying out the oldest write keeps the invariant, and no place
  loses anything.
-/

namespace RidgeWalker.Dataflow

variable {W κ ν : Type} [Preorder ν]

/-- The writes that are still to be carried out, for a store that holds `low`: none is smaller
than what its place holds or than an earlier one to the same place. -/
structure Rising (place : W → κ) (value : W → ν) (low : κ → ν) (pending : List W) : Prop where
  above : ∀ w ∈ pending, low (place w) ≤ value w
  ordered : pending.Pairwise fun u w => place u = place w → value u ≤ value w

namespace Rising

variable {place : W → κ} {value : W → ν} {low low' : κ → ν} {pending : List W} {w : W}

theorem nil : Rising place value low [] := ⟨nofun, .nil⟩

/-- Deciding on a write. -/
theorem push (h : Rising place value low pending) (hlow : low (place w) ≤ value w)
    (hpending : ∀ u ∈ pending, place u = place w → value u ≤ value w) :
    Rising place value low (pending ++ [w]) := by
  refine ⟨fun u hu => ?_, List.pairwise_append.mpr ⟨h.ordered, List.pairwise_singleton _ _, ?_⟩⟩
  · rcases List.mem_append.mp hu with hu | hu
    · exact h.above u hu
    · rw [List.mem_singleton.mp hu]
      exact hlow
  · intro u hu x hx
    rw [List.mem_singleton.mp hx]
    exact hpending u hu

/-- A store that holds less. -/
theorem lower (h : Rising place value low pending) (hlow : ∀ k, low' k ≤ low k) :
    Rising place value low' pending :=
  ⟨fun w hw => (hlow _).trans (h.above w hw), h.ordered⟩

/-- The oldest write may be given up. -/
theorem giveUp (h : Rising place value low (w :: pending)) : Rising place value low pending :=
  ⟨fun u hu => h.above u (List.mem_cons_of_mem w hu), h.ordered.of_cons⟩

variable [DecidableEq κ]

/-- Carrying out the oldest write. -/
theorem carryOut (h : Rising place value low (w :: pending)) :
    Rising place value (Function.update low (place w) (value w)) pending := by
  refine ⟨fun u hu => ?_, h.ordered.of_cons⟩
  by_cases hplace : place u = place w
  · rw [hplace, Function.update_self]
    exact List.rel_of_pairwise_cons h.ordered hu hplace.symm
  · rw [Function.update_of_ne hplace]
    exact h.above u (List.mem_cons_of_mem w hu)

/-- No place loses anything when the oldest write is carried out. -/
theorem le_carryOut (h : Rising place value low (w :: pending)) (k : κ) :
    low k ≤ Function.update low (place w) (value w) k := by
  by_cases hk : k = place w
  · rw [hk, Function.update_self]
    exact h.above w List.mem_cons_self
  · rw [Function.update_of_ne hk]

end Rising

end RidgeWalker.Dataflow
