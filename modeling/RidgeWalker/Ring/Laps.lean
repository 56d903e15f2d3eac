import Mathlib

/-!
# Walks in a ring

Walks go round a ring in order.  Each has a number of laps left; it leaves the ring when it
comes back from its last lap, and the ring is to be closed when the final walk leaves.  The
final walk is marked, and carries a flag on its last lap.

Main results:

- Theorem `Orderly.turn`: when the final walk enters with at least two laps to go, and with
  no walk in the ring that has more, every turn of the ring keeps it orderly.
- Theorem `Orderly.exited_iff`: an orderly ring is closed exactly when all walks have left.
-/

namespace RidgeWalker.Ring

/-- A walk: the laps it has left, whether it is the final one, and the flag of its last lap. -/
structure Walk where
  laps : ℕ
  final : Bool
  last : Bool
deriving DecidableEq

namespace Walk

/-- A walk that is not the final one. -/
structure Common (w : Walk) : Prop where
  laps : 0 < w.laps
  final : w.final = false
  last : w.last = false

/-- The walk on its next lap. -/
def again (w : Walk) : Walk := ⟨w.laps - 1, w.final, w.laps - 1 == 1 && w.final⟩

theorem Common.again {w : Walk} (h : w.Common) (hlaps : w.laps ≠ 1) : w.again.Common := by
  obtain ⟨hpos, hfinal, -⟩ := h
  refine ⟨?_, hfinal, ?_⟩
  · simp only [Walk.again]
    omega
  · simp [Walk.again, hfinal]

end Walk

/-- The final walk has not entered the ring. -/
def Filling (ring : List Walk) : Prop := ∀ w ∈ ring, w.Common

/-- The final walk `f` is in the ring, oldest walk first: no walk has more laps left than
it, and those behind it have fewer. -/
structure ClosingAt (ring before : List Walk) (f : Walk) (behind : List Walk) : Prop where
  ring : ring = before ++ f :: behind
  laps : 0 < f.laps
  final : f.final = true
  last : f.last = decide (f.laps = 1)
  before : ∀ w ∈ before, w.Common ∧ w.laps ≤ f.laps
  behind : ∀ w ∈ behind, w.Common ∧ w.laps < f.laps

/-- The final walk is in the ring and will be the last one to leave. -/
def Closing (ring : List Walk) : Prop := ∃ before f behind, ClosingAt ring before f behind

/-! ## A ring that is filling -/

theorem Filling.enter {ring : List Walk} (h : Filling ring) {w : Walk} (hw : w.Common) :
    Filling (ring ++ [w]) := by
  intro x hx
  rcases List.mem_append.mp hx with hx | hx
  · exact h x hx
  · rw [List.mem_singleton.mp hx]
    exact hw

theorem Filling.head {ring : List Walk} {w : Walk} (h : Filling (w :: ring)) : w.Common :=
  h w (List.mem_cons_self ..)

theorem Filling.leave {ring : List Walk} {w : Walk} (h : Filling (w :: ring)) : Filling ring :=
  fun x hx => h x (List.mem_cons_of_mem _ hx)

theorem Filling.again {ring : List Walk} {w : Walk} (h : Filling (w :: ring))
    (hlaps : w.laps ≠ 1) : Filling (ring ++ [w.again]) :=
  h.leave.enter (h.head.again hlaps)

/-! ## A ring that is closing -/

/-- Once the final walk has entered behind walks that have no more laps left than it has, it
is the last one to leave. -/
theorem Closing.of_final {ring : List Walk} (h : Filling ring) {f : Walk} (hlaps : 2 ≤ f.laps)
    (hfinal : f.final = true) (hlast : f.last = false) (hle : ∀ w ∈ ring, w.laps ≤ f.laps) :
    Closing (ring ++ [f]) := by
  refine ⟨ring, f, [], rfl, by omega, hfinal, ?_, fun w hw => ⟨h w hw, hle w hw⟩, by simp⟩
  rw [hlast, eq_comm, decide_eq_false_iff_not]
  omega

theorem Closing.ne_nil {ring : List Walk} (h : Closing ring) : ring ≠ [] := by
  obtain ⟨before, f, behind, hring, -⟩ := h
  simp [hring]

/-- The oldest walk comes back from its last lap: it is the final one exactly when it carries
the flag, and then the ring is empty without it. -/
theorem Closing.close {ring : List Walk} {w : Walk} (h : Closing (w :: ring))
    (hlast : w.last = true) : ring = [] := by
  obtain ⟨before, f, behind, hring, hlaps, hfinal, hflag, hbefore, hbehind⟩ := h
  cases before with
  | nil =>
      obtain ⟨rfl, rfl⟩ := List.cons.inj hring
      rw [hflag, decide_eq_true_iff] at hlast
      rw [List.eq_nil_iff_forall_not_mem]
      intro x hx
      obtain ⟨hcommon, hlt⟩ := hbehind x hx
      have hpos := hcommon.laps
      omega
  | cons a before =>
      obtain ⟨rfl, -⟩ := List.cons.inj hring
      have hcommon := (hbefore w (List.mem_cons_self ..)).1
      rw [hcommon.last] at hlast
      cases hlast

/-- A walk leaves that does not carry the flag. -/
theorem Closing.leave {ring : List Walk} {w : Walk} (h : Closing (w :: ring))
    (hlaps : w.laps = 1) (hlast : w.last = false) : Closing ring := by
  obtain ⟨before, f, behind, hring, hpos, hfinal, hflag, hbefore, hbehind⟩ := h
  cases before with
  | nil =>
      obtain ⟨rfl, -⟩ := List.cons.inj hring
      rw [hflag, decide_eq_false_iff_not] at hlast
      exact absurd hlaps hlast
  | cons a before =>
      obtain ⟨rfl, rfl⟩ := List.cons.inj hring
      exact ⟨before, f, behind, rfl, hpos, hfinal, hflag,
        fun x hx => hbefore x (List.mem_cons_of_mem _ hx), hbehind⟩

/-- The oldest walk goes on to its next lap. -/
theorem Closing.again {ring : List Walk} {w : Walk} (h : Closing (w :: ring))
    (hlaps : w.laps ≠ 1) : Closing (ring ++ [w.again]) := by
  obtain ⟨before, f, behind, hring, hpos, hfinal, hflag, hbefore, hbehind⟩ := h
  cases before with
  | nil =>
      -- The final walk itself: all others have fewer laps left, so they are in order.
      obtain ⟨rfl, rfl⟩ := List.cons.inj hring
      refine ⟨ring, w.again, [], rfl, ?_, hfinal, ?_, ?_, by simp⟩
      · simp only [Walk.again]
        omega
      · simp only [Walk.again, hfinal, Bool.and_true]
        rfl
      · intro x hx
        obtain ⟨hcommon, hlt⟩ := hbehind x hx
        refine ⟨hcommon, ?_⟩
        simp only [Walk.again]
        omega
  | cons a before =>
      obtain ⟨rfl, rfl⟩ := List.cons.inj hring
      obtain ⟨hcommon, hle⟩ := hbefore w (List.mem_cons_self ..)
      refine ⟨before, f, behind ++ [w.again], by simp, hpos, hfinal, hflag,
        fun x hx => hbefore x (List.mem_cons_of_mem _ hx), ?_⟩
      intro x hx
      rcases List.mem_append.mp hx with hx | hx
      · exact hbehind x hx
      · rw [List.mem_singleton.mp hx]
        refine ⟨hcommon.again hlaps, ?_⟩
        have hpos' := hcommon.laps
        simp only [Walk.again]
        omega

/-! ## Turns of the ring -/

/-- A ring: the walks in it, oldest first, those that have entered, how many have left, and
whether it has been closed. -/
structure Circuit where
  ring : List Walk
  entered : List Walk
  left : ℕ
  exited : Bool

/-- A walk enters, or the oldest one comes back. -/
inductive Turn (c : Circuit) : Circuit → Prop where
  | enter (w) : Turn c { c with ring := c.ring ++ [w], entered := c.entered ++ [w] }
  | again {w rest} (h : c.ring = w :: rest) (hlaps : w.laps ≠ 1) :
      Turn c { c with ring := rest ++ [w.again] }
  | leave {w rest} (h : c.ring = w :: rest) (hlaps : w.laps = 1) (hlast : w.last = false) :
      Turn c { c with ring := rest, left := c.left + 1 }
  | close {w rest} (h : c.ring = w :: rest) (hlaps : w.laps = 1) (hlast : w.last = true) :
      Turn c { c with ring := rest, left := c.left + 1, exited := true }

/-- The walks that are to go round: the final one comes last. -/
structure Batch where
  initial : List Walk
  final : Walk
  common : ∀ w ∈ initial, w.Common
  final_final : final.final = true
  final_last : final.last = false

/-- The walks of a batch in the order in which they enter. -/
def Batch.walks (batch : Batch) : List Walk := batch.initial ++ [batch.final]

/-- How far an orderly ring has come. -/
def Stage (batch : Batch) (c : Circuit) : Prop :=
  match c.exited with
  | true => c.entered = batch.walks ∧ c.ring = []
  | false => (c.entered <+: batch.initial ∧ Filling c.ring) ∨
      (c.entered = batch.walks ∧ Closing c.ring)

/-- Every walk that has entered is in the ring or has left. -/
structure Orderly (batch : Batch) (c : Circuit) : Prop where
  stage : Stage batch c
  account : c.left + c.ring.length = c.entered.length

/-- What enters after a proper part of the batch is the next walk of it. -/
theorem Batch.next {batch : Batch} {entered : List Walk} {w : Walk}
    (h : entered ++ [w] <+: batch.walks) :
    (entered ++ [w] <+: batch.initial ∧ w ∈ batch.initial) ∨
      (entered = batch.initial ∧ w = batch.final) := by
  rcases List.prefix_concat_iff.mp h with heq | hpre
  · obtain ⟨rfl, hw⟩ := List.append_inj' heq rfl
    exact .inr ⟨rfl, List.singleton_inj.mp hw⟩
  · refine .inl ⟨hpre, hpre.subset ?_⟩
    simp

/-- A ring with a walk in it has not been closed. -/
theorem Stage.running {batch : Batch} {c : Circuit} (h : Stage batch c) (hring : c.ring ≠ []) :
    c.exited = false ∧ ((c.entered <+: batch.initial ∧ Filling c.ring) ∨
      (c.entered = batch.walks ∧ Closing c.ring)) := by
  unfold Stage at h
  split at h
  · exact absurd h.2 hring
  · rename_i hexit
    exact ⟨hexit, h⟩

/-- A ring into which walks still enter has not been closed, and is filling. -/
theorem Stage.filling {batch : Batch} {c : Circuit} (h : Stage batch c)
    (hshort : c.entered ≠ batch.walks) : c.exited = false ∧ Filling c.ring := by
  unfold Stage at h
  split at h
  · exact absurd h.1 hshort
  · rename_i hexit
    rcases h with ⟨-, hfill⟩ | ⟨hall, -⟩
    · exact ⟨hexit, hfill⟩
    · exact absurd hall hshort

/-- A turn keeps a ring orderly when walks enter in the order of the batch, and the final one
with at least two laps to go and with no walk in the ring that has more. -/
theorem Orderly.turn {batch : Batch} {c c' : Circuit} (h : Orderly batch c) (ht : Turn c c')
    (hfeed : c'.entered <+: batch.walks)
    (hfinal : ∀ w, c'.entered = c.entered ++ [w] → w.final = true →
      2 ≤ w.laps ∧ ∀ x ∈ c.ring, x.laps ≤ w.laps) : Orderly batch c' := by
  obtain ⟨hstage, haccount⟩ := h
  cases ht with
  | enter w =>
      have hshort : c.entered ≠ batch.walks := by
        intro hall
        have hlen := hfeed.length_le
        simp [hall] at hlen
      obtain ⟨hexit, hfill⟩ := hstage.filling hshort
      refine ⟨?_, by simp only [List.length_append]; omega⟩
      simp only [Stage, hexit]
      rcases Batch.next hfeed with ⟨hpre, hw⟩ | ⟨hall, rfl⟩
      · exact .inl ⟨hpre, hfill.enter (batch.common w hw)⟩
      · obtain ⟨hlaps, hle⟩ := hfinal _ rfl batch.final_final
        rw [hall]
        exact .inr ⟨rfl, .of_final hfill hlaps batch.final_final batch.final_last hle⟩
  | @again w rest hring hlaps =>
      obtain ⟨hexit, hrun⟩ := hstage.running (by simp [hring])
      rw [hring] at hrun haccount
      refine ⟨?_, by simpa using haccount⟩
      simp only [Stage, hexit]
      rcases hrun with ⟨hpre, hfill⟩ | ⟨hall, hclose⟩
      · exact .inl ⟨hpre, hfill.again hlaps⟩
      · exact .inr ⟨hall, hclose.again hlaps⟩
  | @leave w rest hring hlaps hlast =>
      obtain ⟨hexit, hrun⟩ := hstage.running (by simp [hring])
      rw [hring, List.length_cons] at haccount
      rw [hring] at hrun
      refine ⟨?_, by simp only; omega⟩
      simp only [Stage, hexit]
      rcases hrun with ⟨hpre, hfill⟩ | ⟨hall, hclose⟩
      · exact .inl ⟨hpre, hfill.leave⟩
      · exact .inr ⟨hall, hclose.leave hlaps hlast⟩
  | @close w rest hring hlaps hlast =>
      obtain ⟨-, hrun⟩ := hstage.running (by simp [hring])
      rw [hring, List.length_cons] at haccount
      rw [hring] at hrun
      refine ⟨?_, by simp only; omega⟩
      rcases hrun with ⟨-, hfill⟩ | ⟨hall, hclose⟩
      · rw [hfill.head.last] at hlast
        cases hlast
      · exact ⟨hall, hclose.close hlast⟩

/-- Every walk in an orderly ring has a lap to go. -/
theorem Orderly.laps_pos {batch : Batch} {c : Circuit} (h : Orderly batch c) {w : Walk}
    (hw : w ∈ c.ring) : 0 < w.laps := by
  obtain ⟨-, hrun⟩ := h.stage.running (List.ne_nil_of_mem hw)
  rcases hrun with ⟨-, hfill⟩ | ⟨-, before, f, behind, hring, hlaps, -, -, hbefore, hbehind⟩
  · exact (hfill w hw).laps
  · rw [hring, List.mem_append, List.mem_cons] at hw
    rcases hw with hw | rfl | hw
    · exact (hbefore w hw).1.laps
    · exact hlaps
    · exact (hbehind w hw).1.laps

/-- An orderly ring is closed exactly when all walks have left. -/
theorem Orderly.exited_iff {batch : Batch} {c : Circuit} (h : Orderly batch c) :
    c.exited = true ↔ c.left = batch.walks.length := by
  obtain ⟨hstage, haccount⟩ := h
  unfold Stage at hstage
  constructor
  · intro hexit
    rw [hexit] at hstage
    obtain ⟨hall, hring⟩ := hstage
    rw [hring, hall] at haccount
    exact haccount
  · intro hleft
    by_contra hexit
    rw [Bool.not_eq_true] at hexit
    rw [hexit] at hstage
    rcases hstage with ⟨hpre, -⟩ | ⟨hall, hclose⟩
    · have hlen := hpre.length_le
      simp only [Batch.walks, List.length_append, List.length_singleton] at hleft
      omega
    · apply hclose.ne_nil
      rw [hall] at haccount
      exact List.length_eq_zero_iff.mp (by omega)

/-- A closed ring is empty, and the whole batch has entered. -/
theorem Orderly.drained {batch : Batch} {c : Circuit} (h : Orderly batch c)
    (hexit : c.exited = true) : c.entered = batch.walks ∧ c.ring = [] := by
  have hstage := h.stage
  unfold Stage at hstage
  rw [hexit] at hstage
  exact hstage

end RidgeWalker.Ring
