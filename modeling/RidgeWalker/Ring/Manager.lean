import RidgeWalker.Bits.Ranges
import RidgeWalker.Dataflow.Pipelines

/-!
# The ring manager

`ring_manager` keeps up to `RING_SIZE` queries circulating in a walking pipeline.  It
reads queries that come back, sends the unfinished ones out again and fills the slots of
finished ones with new queries.

Main results:

- Definition `ringManagerKernel`: one iteration of `ring_manager_main`, cut at its stream
  accesses.
- Theorems `inSlot_slot` and `inSlot_final`: what a new query carries in its `ring_state`.
-/

namespace RidgeWalker.Ring

open Dataflow Bits

/-! ## Queries -/

/-- `step_metadata_t`, without the fields that `ring_manager` only copies. -/
structure StepMetadata where
  currVertex : BitVec 32
  remainStep : BitVec 32
  state : BitVec 16
  ringState : BitVec 16
  innerState : BitVec 32
deriving DecidableEq

/-- `step_metadata_pkg_t`. -/
structure StepMetadataPkg where
  data : StepMetadata
  last : Bool
deriving DecidableEq

/-- `LOG2_RING_SIZE`. -/
abbrev log2RingSize : ℕ := 9

/-- `RING_SIZE`. -/
abbrev ringSize : ℕ := 256

namespace StepMetadataPkg

/-- `ap_member_offset(step_metadata_t, ring_state, 0, LOG2_RING_SIZE)`. -/
def slot (q : StepMetadataPkg) : BitVec log2RingSize := range q.data.ringState 0 log2RingSize

/-- `ap_member_offset(step_metadata_t, ring_state, LOG2_RING_SIZE, 1)`. -/
def final (q : StepMetadataPkg) : Bool := range q.data.ringState log2RingSize 1 == 1#1

/-- The returns a query still has to make. -/
def remain (q : StepMetadataPkg) : ℕ := q.data.remainStep.toNat

/-- A new query as it is sent out in slot `index`: the `last` flag moves to its
`ring_state`. -/
def inSlot (q : StepMetadataPkg) (index : BitVec 8) : StepMetadataPkg where
  data :=
    { q.data with
      ringState :=
        setRange (setRange q.data.ringState 0 (index.setWidth log2RingSize)) log2RingSize
          (BitVec.ofBool q.last) }
  last := false

/-- An unfinished query as it is sent out again: the final query gets its `last` flag back
for its last step. -/
def sentOn (q : StepMetadataPkg) : StepMetadataPkg :=
  { q with last := q.data.remainStep == 1 && q.final }

@[simp] theorem inSlot_slot (q : StepMetadataPkg) (index : BitVec 8) :
    (q.inSlot index).slot = index.setWidth log2RingSize := by
  rw [slot, inSlot, range_setRange_of_disjoint _ _ (by decide) (.inl (by decide)),
    range_setRange_self _ _ (by decide)]

@[simp] theorem inSlot_final (q : StepMetadataPkg) (index : BitVec 8) :
    (q.inSlot index).final = q.last := by
  rw [final, inSlot, range_setRange_self _ _ (by decide)]
  cases q.last <;> rfl

@[simp] theorem inSlot_remain (q : StepMetadataPkg) (index : BitVec 8) :
    (q.inSlot index).remain = q.remain := rfl

@[simp] theorem sentOn_slot (q : StepMetadataPkg) : q.sentOn.slot = q.slot := rfl

@[simp] theorem sentOn_final (q : StepMetadataPkg) : q.sentOn.final = q.final := rfl

@[simp] theorem sentOn_remain (q : StepMetadataPkg) : q.sentOn.remain = q.remain := rfl

end StepMetadataPkg

/-! ## The kernel -/

/-- The input streams of `ring_manager`. -/
inductive RingIn where
  | old
  | new
deriving DecidableEq

instance : Fintype RingIn := ⟨{.old, .new}, fun x => by cases x <;> decide⟩

/-- What `ring_manager` keeps over an iteration: `slot_status` and `ring_counter`. -/
structure Slots where
  slotStatus : BitVec 8 → Bool
  ringCounter : BitVec 8

/-- `slot_update_index` and `slot_update_val`, when `slot_update_flg` is set. -/
abbrev SlotUpdate : Type := Option (BitVec 8 × Bool)

/-- Registers of `ring_manager` at each of its stream accesses. -/
inductive RingRegs where
  /-- At the head of an iteration. -/
  | poll (s : Slots)
  /-- A query has come back finished; the runtime insertion reads a new one. -/
  | runtime (s : Slots) (index : BitVec 8)
  | emitRuntime (s : Slots) (pkg : StepMetadataPkg)
  | emitOld (s : Slots) (pkg : StepMetadataPkg)
  /-- The slot at `ring_counter` is free; the ring insertion reads a new query. -/
  | insertion (s : Slots) (update : SlotUpdate)
  | emitInsertion (s : Slots) (pkg : StepMetadataPkg)
  | halted

/-- The end of an iteration, with the pending update of `slot_status`. -/
def endIteration (s : Slots) : SlotUpdate → RingRegs
  | some (index, val) => .poll { s with slotStatus := Function.update s.slotStatus index val }
  | none => .poll s

/-- The test before the ring insertion. -/
def ringInsertion (s : Slots) (update : SlotUpdate) : RingRegs :=
  if s.slotStatus s.ringCounter = false then .insertion s update else endIteration s update

/-- The loop `ring_manager_main`. -/
def ringManagerKernel :
    Kernel (fun _ : RingIn => StepMetadataPkg) (fun _ : Unit => StepMetadataPkg) where
  σ := RingRegs
  Ω := Empty
  start := .poll ⟨fun _ => false, 0⟩
  op
    | .poll s => .readNb .old fun
        | some update =>
            if update.data.remainStep = 0 then
              if update.last then .halted else .runtime s (update.slot.setWidth 8)
            else .emitOld s update.sentOn
        | none => ringInsertion s none
    | .runtime s index => .readNb .new fun
        | some origin => .emitRuntime s (origin.inSlot index)
        | none => ringInsertion s (some (index, false))
    | .emitRuntime s pkg => .write () pkg (ringInsertion s none)
    | .emitOld s pkg => .write () pkg (ringInsertion s none)
    | .insertion s update => .readNb .new fun
        | some insert => .emitInsertion s (insert.inSlot s.ringCounter)
        | none => endIteration s update
    | .emitInsertion s pkg => .write () pkg
        (endIteration { s with ringCounter := s.ringCounter + 1 } (some (s.ringCounter, true)))
    | .halted => .halt

/-! ## The loop through the pipeline -/

/-- The streams of the loop. -/
inductive RingStream where
  | old
  | new
  | out
deriving DecidableEq

instance : Fintype RingStream := ⟨{.old, .new, .out}, fun x => by cases x <;> decide⟩

/-- The streams of the loop, all of one sort. -/
abbrev RingStreams : Unit → Type := fun _ => RingStream

/-- A stream of the loop as a stream of the system. -/
abbrev RingStream.chan (c : RingStream) : Chan RingStreams := ⟨(), c⟩

/-- The kernels of the loop. -/
inductive RingProc where
  | manager
  | pipeline
deriving DecidableEq

instance : Fintype RingProc := ⟨{.manager, .pipeline}, fun x => by cases x <;> decide⟩

/-- `ring_manager(old_query, new_query, out)`. -/
def ringManager (oldQuery newQuery output : RingStream) :
    Call RingStreams fun _ => StepMetadataPkg where
  In := RingIn
  Out := Unit
  src i := ⟨(), match i with
    | .old => oldQuery
    | .new => newQuery⟩
  dst _ := output.chan
  kernel := ringManagerKernel

/-- A pipeline between two streams of the loop. -/
def ringPipeline (pipeline : Kernel (fun _ : Unit => StepMetadataPkg) fun _ : Unit =>
    StepMetadataPkg) (source sink : RingStream) : Call RingStreams fun _ => StepMetadataPkg where
  In := Unit
  Out := Unit
  src _ := source.chan
  dst _ := sink.chan
  kernel := pipeline

/-- `ring_manager` and a pipeline; the surroundings feed the new-query stream. -/
def ringLoop (pipeline : Kernel (fun _ : Unit => StepMetadataPkg) fun _ : Unit =>
    StepMetadataPkg) (depth : Chan RingStreams → ℕ) :
    Network RingProc RingStreams fun _ => StepMetadataPkg where
  node
    | .manager => ringManager .old .new .out
    | .pipeline => ringPipeline pipeline .out .old
  depth := depth

variable {pipeline : Kernel (fun _ : Unit => StepMetadataPkg) fun _ : Unit => StepMetadataPkg}
  {depth : Chan RingStreams → ℕ}

/-- Only the new-query stream has no writer. -/
theorem put_new {s s' : (ringLoop pipeline depth).State} {c : Chan RingStreams} {q}
    (hs : (ringLoop pipeline depth).Step s (.put c q) s') : c = RingStream.new.chan := by
  cases hs with
  | put hw _ =>
      obtain ⟨⟨⟩, c⟩ := c
      cases c with
      | old => exact absurd rfl (hw .pipeline ())
      | new => rfl
      | out => exact absurd rfl (hw .manager ())

/-- Every stream of the loop has a reader. -/
theorem not_take {s s' : (ringLoop pipeline depth).State} {c : Chan RingStreams} {q}
    (hs : (ringLoop pipeline depth).Step s (.take c q) s') : False := by
  cases hs with
  | take hr _ =>
      obtain ⟨⟨⟩, c⟩ := c
      cases c with
      | old => exact hr .manager RingIn.old rfl
      | new => exact hr .manager RingIn.new rfl
      | out => exact hr .pipeline () rfl

end RidgeWalker.Ring
