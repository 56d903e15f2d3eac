import Mathlib

/-!
# Removing repeats

A sequence without its consecutive repeats, computed from left to right with the element before as
the only state.

Main results:

- Theorem `destutter_eq_fresh`: this is `List.destutter`.
- Theorem `fresh_append`: a sequence in two parts.
- Theorem `fresh_flatMap`: removing the repeats inside the parts first changes nothing.
-/

namespace RidgeWalker.Dataflow

variable {A B : Type} [DecidableEq A]

/-- The elements that differ from the one before them; `prev` comes before the first. -/
def fresh : Option A → List A → List A
  | _, [] => []
  | prev, a :: l => if prev = some a then fresh prev l else a :: fresh (some a) l

theorem fresh_cons_self (a : A) (l : List A) : fresh (some a) (a :: l) = fresh (some a) l :=
  if_pos rfl

theorem fresh_cons_of_ne {prev : Option A} {a : A} (h : prev ≠ some a) (l : List A) :
    fresh prev (a :: l) = a :: fresh (some a) l :=
  if_neg h

/-- The running element is kept. -/
theorem destutter'_eq_fresh (a : A) (l : List A) :
    l.destutter' (· ≠ ·) a = a :: fresh (some a) l := by
  induction l generalizing a with
  | nil => rfl
  | cons b l ih =>
      by_cases h : a = b
      · subst h
        rw [List.destutter'_cons_neg _ (not_not.mpr rfl), fresh_cons_self, ih]
      · rw [List.destutter'_cons_pos _ h, fresh_cons_of_ne (by simpa using h), ih]

/-- Without an element before, this is `List.destutter`. -/
theorem destutter_eq_fresh (l : List A) : l.destutter (· ≠ ·) = fresh none l := by
  cases l with
  | nil => rfl
  | cons a l =>
      rw [List.destutter_cons', destutter'_eq_fresh]
      rfl

/-- The second part goes on from the last element of the first. -/
theorem fresh_append (prev : Option A) (l m : List A) :
    fresh prev (l ++ m) = fresh prev l ++ fresh (l.getLast?.or prev) m := by
  induction l generalizing prev with
  | nil => rfl
  | cons a l ih =>
      have hlast : (a :: l).getLast?.or prev = l.getLast?.or (some a) := by
        cases l <;> simp [List.getLast?_cons_cons, List.getLast?_cons]
      rw [hlast]
      by_cases h : prev = some a
      · subst h
        rw [List.cons_append, fresh_cons_self, fresh_cons_self, ih]
      · rw [List.cons_append, fresh_cons_of_ne h, fresh_cons_of_ne h, ih, List.cons_append]

/-- The last element is kept. -/
theorem getLast?_fresh (prev : Option A) (l : List A) :
    (fresh prev l).getLast?.or prev = l.getLast?.or prev := by
  induction l generalizing prev with
  | nil => rfl
  | cons a l ih =>
      have hlast : ∀ m : List A, (a :: m).getLast?.or prev = m.getLast?.or (some a) := by
        intro m
        cases m <;> simp [List.getLast?_cons_cons, List.getLast?_cons]
      rw [hlast]
      by_cases h : prev = some a
      · subst h
        rw [fresh_cons_self, ih]
      · rw [fresh_cons_of_ne h, hlast, ih]

/-- Removing the repeats twice, with the same element before or without one at first. -/
theorem fresh_fresh (prev : Option A) {first : Option A} (h : first = none ∨ first = prev)
    (l : List A) : fresh prev (fresh first l) = fresh prev l := by
  induction l generalizing prev first with
  | nil => rfl
  | cons a l ih =>
      by_cases hfirst : first = some a
      · have hprev : prev = some a := by
          rcases h with rfl | rfl
          · cases hfirst
          · exact hfirst
        subst hfirst hprev
        rw [fresh_cons_self, ih (some a) (.inr rfl)]
      · rw [fresh_cons_of_ne hfirst]
        by_cases hprev : prev = some a
        · subst hprev
          rw [fresh_cons_self, fresh_cons_self, ih (some a) (.inr rfl)]
        · rw [fresh_cons_of_ne hprev, fresh_cons_of_ne hprev, ih (some a) (.inr rfl)]

/-- Removing the repeats inside the parts of a sequence first changes nothing. -/
theorem fresh_flatMap (prev : Option A) (f : B → List A) (l : List B) :
    fresh prev (l.flatMap fun b => fresh none (f b)) = fresh prev (l.flatMap f) := by
  induction l generalizing prev with
  | nil => rfl
  | cons b l ih =>
      have hlast : (fresh none (f b)).getLast? = (f b).getLast? := by
        simpa using getLast?_fresh none (f b)
      rw [List.flatMap_cons, List.flatMap_cons, fresh_append, fresh_append,
        fresh_fresh prev (.inl rfl), hlast, ih]

/-- More elements do not change what was kept. -/
theorem fresh_isPrefix (prev : Option A) {l m : List A} (h : l <+: m) :
    fresh prev l <+: fresh prev m := by
  obtain ⟨rest, rfl⟩ := h
  rw [fresh_append]
  exact List.prefix_append _ _

end RidgeWalker.Dataflow
