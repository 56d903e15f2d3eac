import RidgeWalker.Cache.Loader
import RidgeWalker.Dataflow.Weaving
import RidgeWalker.Step.Update
import RidgeWalker.Wrs.Kernels

/-!
# The burst scheduler

`vd_scheduler` numbers the descriptors it receives.  An empty one is answered at once, one that
fits into a line goes to the single-line burst unit, every other one to the command generator.
The numbers come from `sync_id_gen` and wrap after 15 bits.

Main results:

- Definition `syncIds`: the numbering of `sync_id_gen` and of the kernels that merge by it.
- Theorem `syncIdGenKernel_path`: the ids are the numbers in order.
- Theorem `vdSchedulerRounds_sound`: what `vd_scheduler` makes of each descriptor.
-/

namespace RidgeWalker.Burst

open Dataflow Memory Cache Wrs Step

/-! ## Numbers -/

theorem toNat_and_7fff (x : BitVec 16) : (x &&& 0x7fff#16).toNat = x.toNat % 2 ^ 15 := by
  rw [BitVec.toNat_and]
  exact Nat.and_two_pow_sub_one_eq_mod x.toNat 15

/-- Numbers modulo `2^15`. -/
def syncIds : Numbers (BitVec 16) where
  period := 2 ^ 15
  num k := BitVec.ofNat 16 (k % 2 ^ 15)
  next id := (id + 1#16) &&& 0x7fff#16
  next_num k := by
    apply BitVec.eq_of_toNat_eq
    simp only [toNat_and_7fff, BitVec.toNat_add, BitVec.toNat_ofNat]
    omega
  separates i j h := by
    have hnat := congrArg BitVec.toNat h
    simp only [BitVec.toNat_ofNat] at hnat
    omega

/-- The loop of `sync_id_gen_instance` and `sync_burst_gen`. -/
def syncIdGenKernel (word : Empty → Type) : Kernel word (fun _ : Unit => BitVec 16) where
  σ := BitVec 16
  Ω := Empty
  start := 0
  op id := .write () id (syncIds.next id)

/-- The ids sent are the numbers in order. -/
theorem syncIdGenKernel_path {word : Empty → Type} {r : BitVec 16} {R : ∀ i, List (word i)}
    {S : Unit → List (BitVec 16)} (h : (syncIdGenKernel word).Path (0 : BitVec 16) r R S) :
    S () = (List.range (S ()).length).map syncIds.num := by
  have hall : S () = (List.range (S ()).length).map syncIds.num ∧
      r = syncIds.num (S ()).length := by
    refine h.induct (I := fun (r : BitVec 16) R S =>
      S () = (List.range (S ()).length).map syncIds.num ∧
        r = syncIds.num (S ()).length) ⟨rfl, rfl⟩ ?_
    rintro r R S ⟨hS, rfl⟩
    refine ⟨?_, ?_⟩
    · rw [Function.update_self, List.length_append, List.length_singleton, List.range_succ,
        List.map_append, ← hS]
      rfl
    · rw [Function.update_self, List.length_append, List.length_singleton, syncIds.next_num]
  exact hall.1

/-! ## Words -/

/-- `burst_cmd_t`. -/
structure BurstCmd where
  addr : BitVec 32
  size : BitVec 32
  start : BitVec 32
  end_ : BitVec 32
  id : BitVec 16
  burstId : BitVec 16
  dynamicId : BitVec 16
  state : BitVec 16
deriving DecidableEq

/-- `vertex_descriptor_ordered_t`. -/
structure VertexDescriptorOrdered where
  start : BitVec 32
  size : BitVec 32
  id : BitVec 16
  burstId : BitVec 16
  state : BitVec 16
deriving DecidableEq

/-- The sorts of streams around the scheduler. -/
inductive BurstSort where
  | id
  | descriptor
  | state
  | next
  | cmd
  | ordered
  | step (s : StepSort)
deriving DecidableEq

/-- The words of every sort. -/
abbrev BurstWord : BurstSort → Type
  | .id => BitVec 16
  | .descriptor => AxiPkg VertexDescriptor
  | .state => BitVec 32
  | .next => NextVertexPkg
  | .cmd => AxiPkg BurstCmd
  | .ordered => AxiPkg VertexDescriptorOrdered
  | .step s => StepWord s

/-! ## `vd_scheduler` -/

/-- `DYNAMIC_BURST_MAX_LENGTH`. -/
abbrev dynamicBurstMaxLength : ℕ := 32

/-- A descriptor with the state and the ids that `vd_scheduler` has read for it.  An empty
descriptor has no burst id. -/
structure Dispatch where
  pkg : AxiPkg VertexDescriptor
  updatedState : BitVec 32
  id : BitVec 16
  burstId : BitVec 16

namespace Dispatch

variable (d : Dispatch)

/-- `state`. -/
def state : BitVec 16 := d.updatedState.setWidth 16

/-- `size == 0`. -/
def isEmpty : Bool := d.pkg.data.size = 0

/-- `start & 0xfffffff0`. -/
def startAddr : BitVec 32 := d.pkg.data.start &&& 0xfffffff0#32

/-- `end & 0xfffffff0`, for the inclusive end. -/
def endAddr : BitVec 32 := (d.pkg.data.start + d.pkg.data.size - 1#32) &&& 0xfffffff0#32

/-- The answer to an empty descriptor. -/
def updatePkg : NextVertexPkg := ⟨0x80000000#32, d.id, d.pkg.last⟩

/-- The command for a descriptor that fits into a line. -/
def singleCmd : AxiPkg BurstCmd where
  data :=
    { addr := d.startAddr
      size := 1
      start := d.pkg.data.start
      end_ := d.pkg.data.start + d.pkg.data.size
      id := d.id
      burstId := d.burstId &&& 0x7fff#16
      dynamicId := 0x8000#16
      state := d.state }
  last := d.pkg.last

/-- What the command generator receives for any other descriptor. -/
def orderedPkg : AxiPkg VertexDescriptorOrdered where
  data :=
    { start := d.pkg.data.start
      size := d.pkg.data.size
      id := d.id
      burstId := d.burstId &&& 0x7fff#16
      state := d.state }
  last := d.pkg.last

end Dispatch

/-- The command that stops the single-line burst unit. -/
def stopSingleCmd : AxiPkg BurstCmd where
  data :=
    { addr := 0, size := 1, start := 0, end_ := 0, id := 0x8000#16, burstId := 0x8000#16,
      dynamicId := 0x8000#16, state := 0 }
  last := true

/-- The descriptor that stops the other burst units, for long bursts of `maxLength` lines. -/
def stopOrderedPkg (maxLength : ℕ) : AxiPkg VertexDescriptorOrdered where
  data :=
    { start := 0
      size := BitVec.ofNat 32 ((maxLength + 1) * 16)
      id := 0x8000#16
      burstId := 0x8000#16
      state := 0 }
  last := true

/-- The streams that `vd_scheduler` reads. -/
inductive SchedulerIn where
  | syncId
  | syncBurstId
  | input
  | stateIn
deriving DecidableEq

instance : Fintype SchedulerIn :=
  ⟨{.syncId, .syncBurstId, .input, .stateIn}, fun x => by cases x <;> decide⟩

abbrev SchedulerIn.sort : SchedulerIn → BurstSort
  | .syncId => .id
  | .syncBurstId => .id
  | .input => .descriptor
  | .stateIn => .state

/-- The streams that `vd_scheduler` writes. -/
inductive SchedulerOut where
  | dynamicBurstVd
  | update
  | singleBurst
deriving DecidableEq

instance : Fintype SchedulerOut :=
  ⟨{.dynamicBurstVd, .update, .singleBurst}, fun x => by cases x <;> decide⟩

abbrev SchedulerOut.sort : SchedulerOut → BurstSort
  | .dynamicBurstVd => .ordered
  | .update => .next
  | .singleBurst => .cmd

/-- Registers of `vd_scheduler`. -/
inductive SchedulerRegs where
  | poll
  | readState (pkg : AxiPkg VertexDescriptor)
  | readId (pkg : AxiPkg VertexDescriptor) (updatedState : BitVec 32)
  | readBurstId (pkg : AxiPkg VertexDescriptor) (updatedState : BitVec 32) (id : BitVec 16)
  | send (d : Dispatch)
  | stopSingle
  | stopDynamic

/-- After a descriptor has been dispatched. -/
def Dispatch.after (d : Dispatch) : SchedulerRegs := if d.pkg.last then .stopSingle else .poll

/-- The loop of `vd_scheduler`. -/
def vdSchedulerKernel (maxLength : ℕ) :
    Kernel (fun i : SchedulerIn => BurstWord i.sort) (fun o : SchedulerOut => BurstWord o.sort) where
  σ := SchedulerRegs
  Ω := Empty
  start := .poll
  op
    | .poll => .readNb .input fun
        | some pkg => .readState pkg
        | none => .poll
    | .readState pkg => .read .stateIn (.readId pkg)
    | .readId pkg updatedState => .read .syncId fun id =>
        if pkg.data.size = 0 then .send ⟨pkg, updatedState, id, 0⟩
        else .readBurstId pkg updatedState id
    | .readBurstId pkg updatedState id => .read .syncBurstId fun burstId =>
        .send ⟨pkg, updatedState, id, burstId⟩
    | .send d =>
        if d.isEmpty then .write .update d.updatePkg d.after
        else if d.startAddr = d.endAddr then .write .singleBurst d.singleCmd d.after
        else .write .dynamicBurstVd d.orderedPkg d.after
    | .stopSingle => .write .singleBurst stopSingleCmd .stopDynamic
    | .stopDynamic => .write .dynamicBurstVd (stopOrderedPkg maxLength) .poll

namespace Dispatch

variable (d : Dispatch)

/-- What is sent on each stream for a descriptor. -/
def sends : ∀ o : SchedulerOut, List (BurstWord o.sort)
  | .update => if d.isEmpty then [d.updatePkg] else []
  | .singleBurst => if !d.isEmpty && d.startAddr = d.endAddr then [d.singleCmd] else []
  | .dynamicBurstVd => if !d.isEmpty && d.startAddr ≠ d.endAddr then [d.orderedPkg] else []

/-- What is sent on each stream after the last descriptor of a batch. -/
def stops (maxLength : ℕ) : ∀ o : SchedulerOut, List (BurstWord o.sort)
  | .update => []
  | .singleBurst => if d.pkg.last then [stopSingleCmd] else []
  | .dynamicBurstVd => if d.pkg.last then [stopOrderedPkg maxLength] else []

end Dispatch

/-- The rounds of `vd_scheduler`. -/
def vdSchedulerRounds (maxLength : ℕ) : Rounds (vdSchedulerKernel maxLength) Dispatch where
  ins rounds
    | .input => rounds.map Dispatch.pkg
    | .stateIn => rounds.map Dispatch.updatedState
    | .syncId => rounds.map Dispatch.id
    | .syncBurstId => rounds.flatMap fun d => if d.isEmpty then [] else [d.burstId]
  outs rounds o := rounds.flatMap fun d => d.sends o ++ d.stops maxLength o
  got
    | .readState pkg, .input => [pkg]
    | .readId pkg _, .input => [pkg]
    | .readBurstId pkg _ _, .input => [pkg]
    | .readId _ updatedState, .stateIn => [updatedState]
    | .readBurstId _ updatedState _, .stateIn => [updatedState]
    | .readBurstId _ _ id, .syncId => [id]
    | _, _ => []
  owes
    | .send d, o => d.sends o ++ d.stops maxLength o
    | .stopSingle, .singleBurst => [stopSingleCmd]
    | .stopSingle, .dynamicBurstVd => [stopOrderedPkg maxLength]
    | .stopDynamic, .dynamicBurstVd => [stopOrderedPkg maxLength]
    | _, _ => []
  agrees _
    | .readBurstId pkg _ _ => pkg.data.size ≠ 0
    | _ => True

variable (maxLength : ℕ)

theorem owes_send (d : Dispatch) (o : SchedulerOut) :
    (vdSchedulerRounds maxLength).owes (.send d) o = d.sends o ++ d.stops maxLength o := rfl

/-- After a descriptor has been dispatched only the stops are still to be sent. -/
theorem owes_after (d : Dispatch) (o : SchedulerOut) :
    (vdSchedulerRounds maxLength).owes d.after o = d.stops maxLength o := by
  unfold Dispatch.after
  cases hlast : d.pkg.last <;> cases o <;> simp [vdSchedulerRounds, Dispatch.stops, hlast]

theorem got_after (d : Dispatch) (i : SchedulerIn) :
    (vdSchedulerRounds maxLength).got d.after i = [] := by
  unfold Dispatch.after
  cases d.pkg.last <;> cases i <;> rfl

theorem agrees_after (rounds : List Dispatch) (d : Dispatch) :
    (vdSchedulerRounds maxLength).agrees rounds d.after := by
  unfold Dispatch.after
  cases d.pkg.last <;> trivial

/-- What `vd_scheduler` makes of each descriptor. -/
theorem vdSchedulerRounds_sound : (vdSchedulerRounds maxLength).Sound := by
  refine ⟨⟨trivial, fun i => by cases i <;> rfl, fun o => by cases o <;> rfl⟩, ?_⟩
  intro rounds r R S h
  cases r with
  | poll =>
      refine ⟨⟨_, h⟩, fun pkg => ⟨_, h.take trivial ?_ rfl⟩⟩
      ext1 i
      cases i <;> rfl
  | readState pkg =>
      intro updatedState
      refine ⟨_, h.take trivial ?_ rfl⟩
      ext1 i
      cases i <;> rfl
  | readId pkg updatedState =>
      intro id
      by_cases hsize : pkg.data.size = 0
      · dsimp only
        rw [if_pos hsize]
        refine ⟨_, h.round ⟨pkg, updatedState, id, 0⟩ trivial (fun i => ?_) (fun i => ?_)
          (fun o => ?_) (fun o => ?_)⟩
        · cases i <;> simp [vdSchedulerRounds, Dispatch.isEmpty, hsize]
        · cases i <;> rfl
        · cases o <;> rfl
        · simp [vdSchedulerRounds]
      · dsimp only
        rw [if_neg hsize]
        refine ⟨_, h.take hsize ?_ rfl⟩
        ext1 i
        cases i <;> rfl
  | readBurstId pkg updatedState id =>
      intro burstId
      have hd : (⟨pkg, updatedState, id, burstId⟩ : Dispatch).isEmpty = false :=
        decide_eq_false h.agrees
      refine ⟨_, h.round ⟨pkg, updatedState, id, burstId⟩ trivial (fun i => ?_) (fun i => ?_)
        (fun o => ?_) (fun o => ?_)⟩
      · cases i <;> simp [vdSchedulerRounds, hd]
      · cases i <;> rfl
      · cases o <;> rfl
      · simp [vdSchedulerRounds]
  | send d =>
      have hgot : (vdSchedulerRounds maxLength).got d.after =
          (vdSchedulerRounds maxLength).got (.send d) := by
        ext1 i
        rw [got_after]
        cases i <;> rfl
      by_cases hempty : d.isEmpty = true
      · have hop : (vdSchedulerKernel maxLength).op (.send d) = .write .update d.updatePkg d.after :=
          if_pos hempty
        rw [hop]
        refine ⟨_, h.give (agrees_after maxLength rounds d) hgot ?_⟩
        ext1 o
        cases o <;> simp [owes_send, owes_after, Dispatch.sends, hempty]
      · by_cases haddr : d.startAddr = d.endAddr
        · have hop : (vdSchedulerKernel maxLength).op (.send d) =
              .write .singleBurst d.singleCmd d.after :=
            (if_neg hempty).trans (if_pos haddr)
          rw [hop]
          refine ⟨_, h.give (agrees_after maxLength rounds d) hgot ?_⟩
          ext1 o
          cases o <;> simp [owes_send, owes_after, Dispatch.sends, hempty, haddr]
        · have hop : (vdSchedulerKernel maxLength).op (.send d) =
              .write .dynamicBurstVd d.orderedPkg d.after :=
            (if_neg hempty).trans (if_neg haddr)
          rw [hop]
          refine ⟨_, h.give (agrees_after maxLength rounds d) hgot ?_⟩
          ext1 o
          cases o <;> simp [owes_send, owes_after, Dispatch.sends, hempty, haddr]
  | stopSingle =>
      refine ⟨_, h.give trivial rfl ?_⟩
      ext1 o
      cases o <;> rfl
  | stopDynamic =>
      refine ⟨_, h.give trivial rfl ?_⟩
      ext1 o
      cases o <;> rfl

end RidgeWalker.Burst
