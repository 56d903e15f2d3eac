import RidgeWalker.Dataflow.Execution
import RidgeWalker.Ring.Manager

/-!
# Slot accounting of the ring manager

Every live query, one that was sent out and has not come back finished, occupies the slot
in its `ring_state`, and `slot_status` is meant to list the occupied slots.  Releasing a
slot and occupying another one share a single pending update, so an iteration that does
both loses the release.

Main results:

- Theorem `slot_accounting`: `slot_status` lists the occupied slots, each occupied once, in
  every run in which no iteration does both.
- Theorem `slot_stays_listed`: a run in which one does, after which a free slot stays listed.
-/

namespace RidgeWalker.Ring

open Dataflow

/-! ## Listed slots -/

/-- The slots that `slot_status` lists as occupied. -/
def slotsOf (status : BitVec 8 → Bool) : Multiset (BitVec log2RingSize) :=
  (Finset.univ.filter fun i => status i = true).val.map fun i => i.setWidth log2RingSize

/-- A status index survives the way through a slot field. -/
theorem setWidth_slot (i : BitVec 8) : (i.setWidth log2RingSize).setWidth 8 = i := by
  apply BitVec.eq_of_toNat_eq
  simp only [BitVec.toNat_setWidth, log2RingSize]
  omega

theorem setWidth_slot_injective :
    Function.Injective fun i : BitVec 8 => i.setWidth log2RingSize := by
  intro i j hij
  have h := congrArg (fun x : BitVec log2RingSize => x.setWidth 8) hij
  simpa only [setWidth_slot] using h

theorem nodup_slotsOf (status : BitVec 8 → Bool) : (slotsOf status).Nodup :=
  (Finset.nodup _).map setWidth_slot_injective

theorem card_slotsOf (status : BitVec 8 → Bool) : (slotsOf status).card ≤ ringSize := by
  rw [slotsOf, Multiset.card_map]
  calc (Finset.univ.filter fun i => status i = true).card
      ≤ Fintype.card (BitVec 8) := Finset.card_le_univ _
    _ = Fintype.card (Fin ringSize) := Fintype.card_congr (BitVec.equivFin (m := 8)).toEquiv
    _ = ringSize := Fintype.card_fin _

/-- A status bit is set exactly when its slot is listed. -/
theorem mem_slotsOf (status : BitVec 8 → Bool) (i : BitVec 8) :
    i.setWidth log2RingSize ∈ slotsOf status ↔ status i = true := by
  rw [slotsOf, Multiset.mem_map_of_injective setWidth_slot_injective]
  simp

theorem count_slotsOf (status : BitVec 8 → Bool) (i : BitVec 8) :
    status i = true ↔ (slotsOf status).count (i.setWidth log2RingSize) = 1 := by
  rw [← mem_slotsOf]
  constructor
  · exact Multiset.count_eq_one_of_mem (nodup_slotsOf status)
  · intro h
    exact Multiset.count_pos.mp (by omega)

/-- A listed slot fits into the eight bits of `index`. -/
theorem setWidth_of_mem_slotsOf {status : BitVec 8 → Bool} {x : BitVec log2RingSize}
    (h : x ∈ slotsOf status) : (x.setWidth 8).setWidth log2RingSize = x := by
  obtain ⟨i, -, rfl⟩ := Multiset.mem_map.mp h
  rw [setWidth_slot]

/-- Setting a clear status bit lists its slot. -/
theorem slotsOf_occupy {status : BitVec 8 → Bool} {i : BitVec 8} (h : status i = false) :
    slotsOf (Function.update status i true) =
      slotsOf status + {i.setWidth log2RingSize} := by
  have hset : (Finset.univ.filter fun j => Function.update status i true j = true) =
      insert i (Finset.univ.filter fun j => status j = true) := by
    ext j
    by_cases hj : j = i
    · simp [hj]
    · simp [hj]
  have hnot : i ∉ Finset.univ.filter fun j => status j = true := by simp [h]
  rw [slotsOf, hset, Finset.insert_val_of_notMem hnot, Multiset.map_cons, slotsOf,
    ← Multiset.singleton_add, add_comm]

/-- Clearing a set status bit takes its slot off the list. -/
theorem slotsOf_release {status : BitVec 8 → Bool} {i : BitVec 8} (h : status i = true) :
    slotsOf (Function.update status i false) + {i.setWidth log2RingSize} = slotsOf status := by
  rw [← slotsOf_occupy (Function.update_self ..), Function.update_idem, ← h,
    Function.update_eq_self]

/-! ## Live queries -/

/-- A query that went through a pipeline of which only its `ring_state` is known to come
back. -/
def walked (any q : StepMetadataPkg) : StepMetadataPkg :=
  { any with data := { any.data with ringState := q.data.ringState } }

/-- `ring_manager` with a pipeline that returns each query once, at any time and in any
order. -/
abbrev slotLoop (depth : Chan RingStreams → ℕ) :
    Network RingProc RingStreams fun _ => StepMetadataPkg :=
  ringLoop (bagKernel Unit Unit walked) depth

variable {depth : Chan RingStreams → ℕ}

/-- The slot of a query that has been sent out. -/
def slotToken (c : Chan RingStreams) (q : StepMetadataPkg) : Multiset (BitVec log2RingSize) :=
  match c.2 with
  | .new => 0
  | _ => {q.slot}

/-- The slot of the query that `ring_manager` is sending. -/
def RingRegs.sending : RingRegs → Multiset (BitVec log2RingSize)
  | .emitRuntime _ pkg => {pkg.slot}
  | .emitOld _ pkg => {pkg.slot}
  | .emitInsertion _ pkg => {pkg.slot}
  | _ => 0

@[simp] theorem sending_poll (s : Slots) : (RingRegs.poll s).sending = 0 := rfl

@[simp] theorem sending_runtime (s : Slots) (index : BitVec 8) :
    (RingRegs.runtime s index).sending = 0 := rfl

@[simp] theorem sending_emitRuntime (s : Slots) (pkg : StepMetadataPkg) :
    (RingRegs.emitRuntime s pkg).sending = {pkg.slot} := rfl

@[simp] theorem sending_emitOld (s : Slots) (pkg : StepMetadataPkg) :
    (RingRegs.emitOld s pkg).sending = {pkg.slot} := rfl

@[simp] theorem sending_insertion (s : Slots) (update : SlotUpdate) :
    (RingRegs.insertion s update).sending = 0 := rfl

@[simp] theorem sending_emitInsertion (s : Slots) (pkg : StepMetadataPkg) :
    (RingRegs.emitInsertion s pkg).sending = {pkg.slot} := rfl

@[simp] theorem endIteration_sending (s : Slots) (update : SlotUpdate) :
    (endIteration s update).sending = 0 := by
  cases update <;> rfl

@[simp] theorem ringInsertion_sending (s : Slots) (update : SlotUpdate) :
    (ringInsertion s update).sending = 0 := by
  unfold ringInsertion
  split
  · rfl
  · exact endIteration_sending s update

/-- The slots in the registers of the loop. -/
def slotHeld : ∀ p, ((slotLoop depth).node p).kernel.σ → Multiset (BitVec log2RingSize)
  | .manager => RingRegs.sending
  | .pipeline => BagRegs.held fun q : StepMetadataPkg => {q.slot}

/-- The slots that live queries carry, each as often as there are queries that carry it. -/
def liveSlots (s : (slotLoop depth).State) : Multiset (BitVec log2RingSize) :=
  Network.total slotToken slotHeld s

/-! ## The account of one iteration -/

/-- How the slots `live` of the live queries relate to the registers in the course of an
iteration. -/
def Account (live : Multiset (BitVec log2RingSize)) : RingRegs → Prop
  | .poll s => live = slotsOf s.slotStatus
  | .runtime s index => live + {index.setWidth log2RingSize} = slotsOf s.slotStatus
  | .emitRuntime s _ => live = slotsOf s.slotStatus
  | .emitOld s _ => live = slotsOf s.slotStatus
  | .insertion s none => s.slotStatus s.ringCounter = false ∧ live = slotsOf s.slotStatus
  | .insertion s (some (index, val)) => s.slotStatus s.ringCounter = false ∧ val = false ∧
      live + {index.setWidth log2RingSize} = slotsOf s.slotStatus
  | .emitInsertion s _ => live = slotsOf (Function.update s.slotStatus s.ringCounter true)
  | .halted => True

theorem account_endIteration {live : Multiset (BitVec log2RingSize)} {s : Slots}
    {index : BitVec 8} (h : live + {index.setWidth log2RingSize} = slotsOf s.slotStatus) :
    Account live (endIteration s (some (index, false))) := by
  have hmem : index.setWidth log2RingSize ∈ slotsOf s.slotStatus := by
    rw [← h]
    exact Multiset.mem_add.mpr (.inr (Multiset.mem_singleton_self _))
  rw [← slotsOf_release ((mem_slotsOf _ _).mp hmem)] at h
  exact add_right_cancel h

theorem account_ringInsertion {live : Multiset (BitVec log2RingSize)} {s : Slots}
    (h : live = slotsOf s.slotStatus) : Account live (ringInsertion s none) := by
  unfold ringInsertion
  split
  · rename_i hfree
    exact ⟨hfree, h⟩
  · exact h

theorem account_ringInsertion_release {live : Multiset (BitVec log2RingSize)} {s : Slots}
    {index : BitVec 8} (h : live + {index.setWidth log2RingSize} = slotsOf s.slotStatus) :
    Account live (ringInsertion s (some (index, false))) := by
  unfold ringInsertion
  split
  · rename_i hfree
    exact ⟨hfree, rfl, h⟩
  · exact account_endIteration h

/-- An event of `ring_manager`. -/
abbrev ManagerEvent : Type :=
  Event (fun _ : RingIn => StepMetadataPkg) (fun _ : Unit => StepMetadataPkg) Empty

/-- The slot that a word read by `ring_manager` brings along. -/
def broughtIn : RingIn → StepMetadataPkg → Multiset (BitVec log2RingSize)
  | .old, q => {q.slot}
  | .new, _ => 0

/-- The event occupies a slot while the release of another one is pending. -/
def losesRelease : RingRegs → ManagerEvent → Bool
  | .insertion _ (some _), .read .new _ => true
  | _, _ => false

/-- An event of `ring_manager` keeps the account, unless it loses a release. -/
theorem account_local {live live' : Multiset (BitVec log2RingSize)} {r r' : RingRegs}
    {e : ManagerEvent} (hl : ringManagerKernel.Local r e r') (hok : losesRelease r e = false)
    (hb : live' + (r.sending + e.amountIn broughtIn) =
      live + (r'.sending + e.amountOut fun _ q => {q.slot}))
    (ha : Account live r) : Account live' r' := by
  have hy := hl.yields
  cases r with
  | poll s =>
      have ha : live = slotsOf s.slotStatus := ha
      rcases hy with ⟨rfl, rfl⟩ | ⟨q, rfl, rfl⟩
      · have hlive : live' = live := by
          simpa [Event.amountIn, Event.amountOut] using hb
        rw [hlive]
        exact account_ringInsertion ha
      · by_cases h0 : q.data.remainStep = 0
        · simp only [h0, if_true] at hb ⊢
          by_cases hlast : q.last
          · simp only [hlast, if_true]
            trivial
          · have hlive : live' + {q.slot} = live := by
              simpa [hlast, Event.amountIn, Event.amountOut, broughtIn] using hb
            have hmem : q.slot ∈ slotsOf s.slotStatus := by
              rw [← ha, ← hlive]
              exact Multiset.mem_add.mpr (.inr (Multiset.mem_singleton_self _))
            simp only [hlast]
            show live' + {(q.slot.setWidth 8).setWidth log2RingSize} = slotsOf s.slotStatus
            rw [setWidth_of_mem_slotsOf hmem, hlive, ha]
        · simp only [h0, if_false] at hb ⊢
          have hlive : live' = live := by
            simpa [Event.amountIn, Event.amountOut, broughtIn] using hb
          exact hlive.trans ha
  | runtime s index =>
      have ha : live + {index.setWidth log2RingSize} = slotsOf s.slotStatus := ha
      rcases hy with ⟨rfl, rfl⟩ | ⟨q, rfl, rfl⟩
      · have hlive : live' = live := by
          simpa [Event.amountIn, Event.amountOut] using hb
        rw [hlive]
        exact account_ringInsertion_release ha
      · have hlive : live' = live + {index.setWidth log2RingSize} := by
          simpa [Event.amountIn, Event.amountOut, broughtIn] using hb
        exact hlive.trans ha
  | emitRuntime s pkg =>
      obtain ⟨rfl, rfl⟩ := hy
      have hlive : live' = live := by
        simpa [Event.amountIn, Event.amountOut] using hb
      rw [hlive]
      exact account_ringInsertion ha
  | emitOld s pkg =>
      obtain ⟨rfl, rfl⟩ := hy
      have hlive : live' = live := by
        simpa [Event.amountIn, Event.amountOut] using hb
      rw [hlive]
      exact account_ringInsertion ha
  | insertion s update =>
      rcases hy with ⟨rfl, rfl⟩ | ⟨q, rfl, rfl⟩
      · have hlive : live' = live := by
          simpa [Event.amountIn, Event.amountOut] using hb
        rw [hlive]
        cases update with
        | none => exact ha.2
        | some u =>
            obtain ⟨index, val⟩ := u
            obtain ⟨-, rfl, ha⟩ := ha
            exact account_endIteration ha
      · cases update with
        | none =>
            obtain ⟨hfree, ha⟩ := ha
            have hlive : live' = live + {s.ringCounter.setWidth log2RingSize} := by
              simpa [Event.amountIn, Event.amountOut, broughtIn] using hb
            show live' = slotsOf (Function.update s.slotStatus s.ringCounter true)
            rw [slotsOf_occupy hfree, hlive, ha]
        | some u => exact absurd hok (by simp [losesRelease])
  | emitInsertion s pkg =>
      obtain ⟨rfl, rfl⟩ := hy
      have hlive : live' = live := by
        simpa [Event.amountIn, Event.amountOut] using hb
      exact hlive.trans ha
  | halted => exact hy.elim

/-! ## The account of a run -/

/-- The step does not occupy a slot while the release of another one is pending. -/
def KeepsRelease (_ : (slotLoop depth).State) : (slotLoop depth).Label → Prop
  | .fire .manager r e => losesRelease r e = false
  | _ => True

instance (s : (slotLoop depth).State) (l : (slotLoop depth).Label) :
    Decidable (KeepsRelease s l) := by
  unfold KeepsRelease
  split <;> infer_instance

/-- One step of the loop keeps the account, unless it loses a release. -/
theorem account_step {s s' : (slotLoop depth).State} {l : (slotLoop depth).Label}
    (hs : (slotLoop depth).Step s l s') (hok : KeepsRelease s l)
    (ha : Account (liveSlots s) (s.regs .manager)) :
    Account (liveSlots s') (s'.regs .manager) := by
  cases l with
  | fire p r e =>
      cases p with
      | manager =>
          obtain ⟨rfl, hl, hb⟩ := hs.fire_balance slotToken slotHeld
          have hin : (fun i => slotToken (((slotLoop depth).node .manager).src i)) = broughtIn := by
            funext i
            cases i <;> rfl
          rw [hin] at hb
          exact account_local hl hok hb ha
      | pipeline =>
          have hbag : ((slotLoop depth).node .pipeline).kernel.Balanced
              (fun i => slotToken (((slotLoop depth).node .pipeline).src i))
              (fun o => slotToken (((slotLoop depth).node .pipeline).dst o))
              (slotHeld .pipeline) :=
            bagKernel_balanced fun _ _ => rfl
          have hlive : liveSlots s' = liveSlots s := add_right_cancel (hs.exchange hbag)
          obtain ⟨rfl, r', -, hregs⟩ := hs.fire_regs
          have hne : RingProc.manager ≠ .pipeline := nofun
          have hmanager : s'.regs .manager = s.regs .manager := by
            rw [hregs]
            exact Function.update_of_ne hne ..
          rw [hlive, hmanager]
          exact ha
  | put c q =>
      obtain rfl := put_new hs
      cases hs with
      | put _ _ =>
          have hpush := Network.queued_push slotToken s.fifo RingStream.new.chan q
          have hnew : slotToken RingStream.new.chan q = 0 := rfl
          rw [hnew, add_zero] at hpush
          rw [liveSlots, Network.total, ← hpush] at ha
          exact ha
  | take c q => exact (not_take hs).elim

/-- The account holds in every state of a run that loses no release. -/
theorem account_run {tr : List (slotLoop depth).Label} {s : (slotLoop depth).State}
    (hr : (slotLoop depth).GuardedRun KeepsRelease (slotLoop depth).init tr s) :
    Account (liveSlots s) (s.regs .manager) := by
  induction hr with
  | nil =>
      have hstart : ∀ p, slotHeld p ((slotLoop depth).node p).kernel.start = 0 := by
        intro p
        cases p <;> rfl
      have hlive : liveSlots (slotLoop depth).init = 0 := Network.total_init slotToken hstart
      rw [hlive]
      rfl
  | snoc _ hok hs ih => exact account_step hs hok ih

/-- At the end of every iteration `slot_status` lists the slots of the live queries, no two
of which share one, so that there are at most `RING_SIZE` of them; as long as no iteration
occupies a slot after it has released another one. -/
theorem slot_accounting {tr : List (slotLoop depth).Label} {s : (slotLoop depth).State}
    {slots : Slots}
    (hr : (slotLoop depth).GuardedRun KeepsRelease (slotLoop depth).init tr s)
    (hend : s.regs .manager = .poll slots) :
    (∀ i, slots.slotStatus i = true ↔
        (liveSlots s).count (i.setWidth log2RingSize) = 1) ∧
      (liveSlots s).Nodup ∧ (liveSlots s).card ≤ ringSize := by
  have ha := account_run hr
  rw [hend] at ha
  have ha : liveSlots s = slotsOf slots.slotStatus := ha
  rw [ha]
  exact ⟨count_slotsOf _, nodup_slotsOf _, card_slotsOf _⟩

/-! ## A release that is lost -/

/-- A query with one step to go. -/
def oneStep : StepMetadataPkg := ⟨⟨0, 1, 0, 0, 0⟩, false⟩

/-- A query that has made its last step. -/
def noStep : StepMetadataPkg := ⟨⟨0, 0, 0, 0, 0⟩, false⟩

/-- A query arrives and is sent out in slot 0. -/
def sendOne : List (slotLoop fun _ => 1).Action :=
  [.put RingStream.new.chan oneStep, .fire .manager none, .fire .manager none,
    .fire .manager none]

/-- It comes back finished; then a second query arrives between the two reads of the
new-query stream, and is sent out in slot 1. -/
def replaceOne : List (slotLoop fun _ => 1).Action :=
  sendOne ++
    [.fire .pipeline (some (.accept ())), .fire .pipeline none,
      .fire .pipeline (some (.deliver 0 () noStep)), .fire .pipeline none,
      .fire .manager none, .fire .manager none, .put RingStream.new.chan oneStep,
      .fire .manager none, .fire .manager none]

/-- The run that sends one query out loses no release: slot 0 is listed and occupied. -/
theorem slot_accounting_sendOne :
    ∃ (s : (slotLoop fun _ => 1).State) (slots : Slots), slots.slotStatus 0 = true ∧
      (liveSlots s).count 0 = 1 ∧ (liveSlots s).Nodup ∧ (liveSlots s).card ≤ ringSize := by
  obtain ⟨tr, s, hx⟩ : ∃ tr s, Network.execute KeepsRelease sendOne []
      (slotLoop fun _ => 1).init = some (tr, s) := ⟨_, _, rfl⟩
  have hr := Network.execute_run .nil hx
  obtain ⟨slots, hend, hset⟩ : ∃ slots, s.regs .manager = .poll slots ∧
      slots.slotStatus 0 = true := by
    cases hx
    exact ⟨_, rfl, rfl⟩
  obtain ⟨hlisted, hnodup, hcard⟩ := slot_accounting hr hend
  exact ⟨s, slots, hset, (hlisted 0).mp hset, hnodup, hcard⟩

/-- After a lost release slot 0 is listed although no query occupies it. -/
theorem slot_stays_listed :
    ¬∀ (tr : List (slotLoop fun _ => 1).Label) (s : (slotLoop fun _ => 1).State) (slots : Slots),
      (slotLoop fun _ => 1).Run (slotLoop fun _ => 1).init tr s →
        s.regs .manager = .poll slots →
          ∀ i, slots.slotStatus i = true ↔
            (liveSlots s).count (i.setWidth log2RingSize) = 1 := by
  intro hall
  obtain ⟨tr, s, hx⟩ : ∃ tr s, Network.execute (fun _ _ => True) replaceOne []
      (slotLoop fun _ => 1).init = some (tr, s) := ⟨_, _, rfl⟩
  have hr := (Network.execute_run .nil hx).run
  obtain ⟨slots, hend, hset, hlive⟩ : ∃ slots, s.regs .manager = .poll slots ∧
      slots.slotStatus 0 = true ∧ liveSlots s = {1} := by
    cases hx
    exact ⟨_, rfl, rfl, by decide +kernel⟩
  have hcount := (hall tr s slots hr hend 0).mp hset
  rw [hlive] at hcount
  exact absurd hcount (by decide)

end RidgeWalker.Ring
