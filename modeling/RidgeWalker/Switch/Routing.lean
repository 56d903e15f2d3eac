import RidgeWalker.Dataflow.Interleave

/-!
# Routing without reordering

What a switch owes to the streams around it, as a relation between what was read from
its inputs and what was written to its outputs, and how two stages of switches compose.

Main results:

- Definition `Delivers`: only words that belong to an output leave on it, and words
  that entered on one input leave in the order they entered.
- Theorem `Delivers.double`: two switches whose outputs are paired by switches of width
  two form a switch of twice the width.
-/

namespace RidgeWalker.Switch

variable {X w I J : Type} [DecidableEq J]

/-- `T` was read from the streams and `W` written to them.  The output a word belongs to
is `sel`. -/
structure Delivers (T W : X → List w) (ins : I → X) (outs : J → X) (sel : w → J) : Prop where
  /-- A word leaves on its own output and was read from some input. -/
  content : ∀ j, ∀ x ∈ W (outs j), sel x = j ∧ ∃ i, x ∈ T (ins i)
  /-- A class of words that enters on one input only leaves in the order it entered. -/
  order : ∀ i j (q : w → Bool), (∀ i', i' ≠ i → (T (ins i')).filter q = []) →
    (W (outs j)).filter q <+: (T (ins i)).filter fun x => q x && decide (sel x = j)

namespace Delivers

variable {T W : X → List w} {ins : I → X} {outs : J → X} {sel : w → J}

/-- The part of a class that `q` and `p` select together. -/
theorem filter_and (l : List w) (q p : w → Bool) :
    (l.filter q).filter p = l.filter fun x => q x && p x := by
  rw [List.filter_filter]
  exact List.filter_congr fun x _ => Bool.and_comm _ _

/-- A class of words that none of the inputs carries is carried by no output. -/
theorem filter_eq_nil (h : Delivers T W ins outs sel) {q : w → Bool}
    (hq : ∀ i, (T (ins i)).filter q = []) (j : J) : (W (outs j)).filter q = [] := by
  rw [List.filter_eq_nil_iff]
  intro x hx
  obtain ⟨-, i, hi⟩ := h.content j x hx
  exact (List.filter_eq_nil_iff.mp (hq i)) x hi

/-- The ports of a switch may be renumbered. -/
theorem reindex (h : Delivers T W ins outs sel) {I' J' : Type} [DecidableEq J']
    {ins' : I' → X} {outs' : J' → X} {sel' : w → J'} (e : I' ≃ I) (f : J' ≃ J)
    (hins : ∀ i, ins' i = ins (e i)) (houts : ∀ j, outs' j = outs (f j))
    (hsel : ∀ x, f (sel' x) = sel x) : Delivers T W ins' outs' sel' := by
  have hiff : ∀ x j, sel' x = j ↔ sel x = f j := fun x j => by
    rw [← hsel, f.injective.eq_iff]
  refine ⟨fun j x hx => ?_, fun i j q hq => ?_⟩
  · rw [houts] at hx
    obtain ⟨hj, i, hi⟩ := h.content (f j) x hx
    refine ⟨(hiff x j).mpr hj, e.symm i, ?_⟩
    rwa [hins, e.apply_symm_apply]
  · rw [houts, hins]
    simp only [hiff]
    refine h.order (e i) (f j) q fun i' hi' => ?_
    have hne : e.symm i' ≠ i := fun he => hi' (by rw [← he, e.apply_symm_apply])
    simpa [hins] using hq (e.symm i') hne

/-- Two switches whose outputs are paired by switches of width two: `half h` and `g h`
are the inputs and outputs of the first two, `out b` the outputs that the pairing
switches number `b`. -/
theorem double (hTW : ∀ c, T c <+: W c) {half : Fin 2 → I → X} {g out : Fin 2 → J → X}
    {bit : w → Fin 2} (hfirst : ∀ h, Delivers T W (half h) (g h) sel)
    (hlast : ∀ k, Delivers T W (fun h => g h k) (fun b => out b k) bit) :
    Delivers T W (fun i : Fin 2 × I => half i.1 i.2) (fun j : Fin 2 × J => out j.1 j.2)
      fun x => (bit x, sel x) := by
  refine ⟨fun ⟨b, k⟩ x hx => ?_, fun ⟨h, i⟩ ⟨b, k⟩ q hq => ?_⟩
  · obtain ⟨hb, h, hg⟩ := (hlast k).content b x hx
    obtain ⟨hk, i, hi⟩ := (hfirst h).content k x ((hTW _).subset hg)
    exact ⟨by rw [hb, hk], (h, i), hi⟩
  · -- The class enters one of the first switches on one input and the other one nowhere.
    have hsame : ∀ i', i' ≠ i → (T (half h i')).filter q = [] := fun i' hi' =>
      hq (h, i') fun he => hi' (congrArg Prod.snd he)
    have hother : ∀ h', h' ≠ h → ∀ i', (T (half h' i')).filter q = [] := fun h' hh i' =>
      hq (h', i') fun he => hh (congrArg Prod.fst he)
    have hempty : ∀ h', h' ≠ h → (T (g h' k)).filter q = [] := by
      intro h' hh
      have hnil := (hfirst h').filter_eq_nil (hother h' hh) k
      exact List.prefix_nil.mp (hnil ▸ (hTW (g h' k)).filter q)
    have hstage : (T (g h k)).filter q <+:
        (T (half h i)).filter fun x => q x && decide (sel x = k) :=
      ((hTW (g h k)).filter q).trans ((hfirst h).order i k q hsame)
    have hmid := hstage.filter fun x => decide (bit x = b)
    have hclass : ∀ x, (q x && decide (sel x = k) && decide (bit x = b)) =
        (q x && decide ((bit x, sel x) = (b, k))) := by
      intro x
      simp only [Prod.mk.injEq, Bool.decide_and, Bool.and_assoc,
        Bool.and_comm (decide (sel x = k))]
    simp only [filter_and, hclass] at hmid
    refine ((hlast k).order h b q hempty).trans ?_
    simpa only [filter_and] using hmid

end Delivers

end RidgeWalker.Switch
