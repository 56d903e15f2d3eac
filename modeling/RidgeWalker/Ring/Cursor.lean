import RidgeWalker.Dataflow.Traces
import RidgeWalker.Ring.Manager

/-!
# The cursor of the ring

`ring_manager` looks for a free slot at `ring_counter` only, and moves `ring_counter` on only
when it has found one.  While the slot at `ring_counter` is occupied, the other slots are not
looked at, free or not.

Main results:

- Theorem `admits_iff`: a waiting query is admitted within a round exactly if the slot at
  `ring_counter` is free.
- Theorem `cursor_sticks`: a run after which it is not, although a slot is free.
-/

namespace RidgeWalker.Ring

open Dataflow

/-- An event of `ring_manager`. -/
abbrev RingAct : Type :=
  Event (fun _ : RingIn => StepMetadataPkg) (fun _ : Unit => StepMetadataPkg) Empty

/-- The old-query stream is found empty in every iteration, the new-query stream in none. -/
def Quiet (es : List RingAct) : Prop :=
  ∀ e ∈ es, e ≠ .readNone .new ∧ ∀ q, e ≠ .read .old q

/-- The event is the poll at the head of an iteration. -/
def headPoll : RingAct → Bool
  | .read .old _ => true
  | .readNone .old => true
  | _ => false

/-- The iterations that some events begin. -/
def iterations (es : List RingAct) : ℕ := es.countP headPoll

/-- Within any `RING_SIZE` iterations from here on in which no query comes back and new queries
wait, a new query is admitted. -/
def Admits (slots : Slots) : Prop :=
  ∀ es slots', ringManagerKernel.Trace (.poll slots) es (.poll slots') → Quiet es →
    iterations es = ringSize → ∃ q, .read .new q ∈ es

/-- The poll of the old-query stream when it is empty. -/
theorem poll_none (s : Slots) :
    ringManagerKernel.Local (.poll s) (.readNone .old) (ringInsertion s none) := by
  have hl := Kernel.Local.readNone (K := ringManagerKernel) (r := .poll s) rfl
  exact hl

theorem Quiet.init {es : List RingAct} {e : RingAct} (h : Quiet (es ++ [e])) : Quiet es :=
  fun e' he' => h e' (List.mem_append_left _ he')

theorem Quiet.last {es : List RingAct} {e : RingAct} (h : Quiet (es ++ [e])) :
    e ≠ .readNone .new ∧ ∀ q, e ≠ .read .old q :=
  h e (by simp)

/-! ## A free slot at the cursor -/

/-- How the first iteration goes when the slot at `ring_counter` is free. -/
def FirstIteration (slots : Slots) (es : List RingAct) (r : RingRegs) : Prop :=
  (es = [] ∧ r = .poll slots) ∨ (es = [.readNone .old] ∧ r = .insertion slots none) ∨
    ∃ q, .read .new q ∈ es

theorem firstIteration {slots : Slots} (hfree : slots.slotStatus slots.ringCounter = false)
    {es : List RingAct} {r : RingRegs}
    (h : ringManagerKernel.Trace (.poll slots) es r) : Quiet es → FirstIteration slots es r := by
  refine h.induct (I := fun (es : List RingAct) r => Quiet es → FirstIteration slots es r)
    (fun _ => .inl ⟨rfl, rfl⟩) ?_
  intro es r e r' ih hl hquiet
  have hy := hl.yields
  rcases ih hquiet.init with ⟨rfl, rfl⟩ | ⟨rfl, rfl⟩ | ⟨q, hq⟩
  · rcases hy with ⟨rfl, rfl⟩ | ⟨q, rfl, rfl⟩
    · exact .inr (.inl ⟨rfl, if_pos hfree⟩)
    · exact absurd rfl (hquiet.last.2 q)
  · rcases hy with ⟨rfl, rfl⟩ | ⟨q, rfl, rfl⟩
    · exact absurd rfl hquiet.last.1
    · exact .inr (.inr ⟨q, List.mem_append_right _ (List.mem_singleton_self _)⟩)
  · exact .inr (.inr ⟨q, List.mem_append_left _ hq⟩)

/-- A waiting query takes the free slot at `ring_counter`. -/
theorem admits_of_free {slots : Slots} (hfree : slots.slotStatus slots.ringCounter = false) :
    Admits slots := by
  intro es slots' h hquiet hround
  rcases firstIteration hfree h hquiet with ⟨rfl, -⟩ | ⟨-, hr⟩ | hadmitted
  · exact absurd hround (by decide)
  · cases hr
  · exact hadmitted

/-! ## An occupied slot at the cursor -/

/-- An iteration changes nothing when the slot at `ring_counter` is occupied. -/
theorem idle_iterations {slots : Slots} (hused : slots.slotStatus slots.ringCounter = true)
    (n : ℕ) :
    ringManagerKernel.Trace (.poll slots) (List.replicate n (.readNone .old)) (.poll slots) := by
  induction n with
  | zero => exact .nil
  | succ n ih =>
      have hstay : ringInsertion slots none = .poll slots := if_neg (by simp [hused])
      have hl := poll_none slots
      rw [hstay] at hl
      rw [List.replicate_succ']
      exact ih.snoc hl

/-- Nothing is admitted while the slot at `ring_counter` is occupied. -/
theorem not_admits_of_used {slots : Slots} (hused : slots.slotStatus slots.ringCounter = true) :
    ¬Admits slots := by
  intro h
  have hquiet : Quiet (List.replicate ringSize (.readNone .old)) := by
    intro e he
    rw [List.eq_of_mem_replicate he]
    exact ⟨nofun, nofun⟩
  have hround : iterations (List.replicate ringSize (.readNone .old)) = ringSize := by
    rw [iterations, List.countP_replicate]
    rfl
  obtain ⟨q, hq⟩ := h _ _ (idle_iterations hused ringSize) hquiet hround
  exact absurd (List.eq_of_mem_replicate hq) nofun

/-- In every run and at the head of every iteration: with a free slot somewhere, a waiting query
is admitted within `RING_SIZE` iterations exactly if the slot at `ring_counter` is free. -/
theorem admits_iff {es : List RingAct} {slots : Slots}
    (_hr : ringManagerKernel.Trace ringManagerKernel.start es (.poll slots))
    (_hfree : ∃ i, slots.slotStatus i = false) :
    Admits slots ↔ slots.slotStatus slots.ringCounter = false := by
  constructor
  · intro h
    by_contra hused
    exact not_admits_of_used (Bool.eq_true_of_not_eq_false hused) h
  · exact admits_of_free

/-- The first iteration of all admits a waiting query. -/
theorem admits_first : Admits ⟨fun _ => false, 0⟩ :=
  (admits_iff (.nil : ringManagerKernel.Trace ringManagerKernel.start [] _) ⟨0, rfl⟩).mpr rfl

/-! ## A run after which the cursor sticks -/

/-- A query with five steps to go. -/
def waiting : StepMetadataPkg := ⟨⟨0, 5, 0, 0, 0⟩, false⟩

/-- The query in slot 5 when it has made its last step. -/
def finishedInSlot5 : StepMetadataPkg := ⟨⟨0, 0, 0, 5, 0⟩, false⟩

/-- The slots after `k` insertions. -/
def filledUpTo (k : ℕ) : Slots := ⟨fun i => decide (i.toNat < k), .ofNat 8 k⟩

/-- One more query is inserted. -/
theorem filledUpTo_next {k : ℕ} (hk : k < ringSize) :
    ∃ es, ringManagerKernel.Trace (.poll (filledUpTo k)) es (.poll (filledUpTo (k + 1))) := by
  have hcounter : (BitVec.ofNat 8 k).toNat = k := by
    rw [BitVec.toNat_ofNat]
    exact Nat.mod_eq_of_lt hk
  have hfree : (filledUpTo k).slotStatus (filledUpTo k).ringCounter = false := by
    simp [filledUpTo, Nat.mod_eq_of_lt hk]
  have hnext : endIteration { filledUpTo k with ringCounter := (filledUpTo k).ringCounter + 1 }
      (some ((filledUpTo k).ringCounter, true)) = .poll (filledUpTo (k + 1)) := by
    have hstatus : Function.update (filledUpTo k).slotStatus (filledUpTo k).ringCounter true =
        (filledUpTo (k + 1)).slotStatus := by
      funext i
      rcases eq_or_ne i (.ofNat 8 k) with rfl | hne
      · simp [filledUpTo, Nat.mod_eq_of_lt hk]
      · have hnat : i.toNat ≠ k := fun h => hne (BitVec.eq_of_toNat_eq (h.trans hcounter.symm))
        have hother : i ≠ (filledUpTo k).ringCounter := hne
        rw [Function.update_of_ne hother, filledUpTo, filledUpTo, decide_eq_decide]
        omega
    have hnumber : (filledUpTo k).ringCounter + 1 = (filledUpTo (k + 1)).ringCounter :=
      (BitVec.ofNat_add k 1).symm
    rw [endIteration, hnumber, hstatus]
  have hpoll := poll_none (filledUpTo k)
  rw [ringInsertion, if_pos hfree] at hpoll
  have hread := Kernel.Local.readNb (K := ringManagerKernel)
    (r := .insertion (filledUpTo k) none) rfl waiting
  have hwrite : ringManagerKernel.Local
      (.emitInsertion (filledUpTo k) (waiting.inSlot (filledUpTo k).ringCounter))
      (.write () (waiting.inSlot (filledUpTo k).ringCounter)) (.poll (filledUpTo (k + 1))) := by
    rw [← hnext]
    exact .write rfl
  exact ⟨_, ((Kernel.Trace.single hpoll).snoc hread).snoc hwrite⟩

/-- A whole round of insertions occupies all slots and brings the cursor back to slot 0. -/
theorem filledUpTo_run {k : ℕ} (hk : k ≤ ringSize) :
    ∃ es, ringManagerKernel.Trace ringManagerKernel.start es (.poll (filledUpTo k)) := by
  induction k with
  | zero => exact ⟨[], .nil⟩
  | succ k ih =>
      obtain ⟨es, hes⟩ := ih (by omega)
      obtain ⟨more, hmore⟩ := filledUpTo_next hk
      exact ⟨_, hes.trans hmore⟩

/-- After 256 insertions the query in slot 5 is the first to finish, and no query waits: slot 5 is
free, but the cursor stands at slot 0. -/
theorem cursor_sticks :
    ¬∀ (es : List RingAct) (slots : Slots),
      ringManagerKernel.Trace ringManagerKernel.start es (.poll slots) →
        (∃ i, slots.slotStatus i = false) → Admits slots := by
  intro hall
  obtain ⟨es, hes⟩ := filledUpTo_run le_rfl
  let freed : Slots :=
    { filledUpTo ringSize with
      slotStatus := Function.update (filledUpTo ringSize).slotStatus 5 false }
  have hback := Kernel.Local.readNb (K := ringManagerKernel) (r := .poll (filledUpTo ringSize)) rfl
    finishedInSlot5
  have hrelease := Kernel.Local.readNone (K := ringManagerKernel)
    (r := .runtime (filledUpTo ringSize) 5) rfl
  have hfree : freed.slotStatus 5 = false := rfl
  have hused : freed.slotStatus freed.ringCounter = true := rfl
  exact not_admits_of_used hused
    (hall _ freed ((hes.snoc hback).snoc hrelease) ⟨5, hfree⟩)

end RidgeWalker.Ring
