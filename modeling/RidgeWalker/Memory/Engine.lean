import RidgeWalker.Dataflow.Streams

/-!
# Memory engines

The read loop of the memory engines: commands come in on one stream, the stored words go out
on another.  The loop exists in two variants, one that returns after a command with the end
flag and one that returns when told so on a control stream.  The engines modelled here read
single words, so that the inner burst loop has one round.

Main results:

- Theorems `memAccessKernel_path` and `memAccessCtrlKernel_path`: across all invocations,
  the responses sent are the answers to the commands read, in order, but for the answer that
  is under way.
-/

namespace RidgeWalker.Memory

open Dataflow

/-! ## Commands and responses -/

/-- A package of an AXI stream: its data and its `last` signal. -/
structure AxiPkg (α : Type) where
  data : α
  last : Bool
deriving DecidableEq

/-- `mem_access_cmd_t`. -/
structure MemAccessCmd where
  addr : BitVec 64
  state : BitVec 32
deriving DecidableEq

/-- `MM_STATE_MASK_END`. -/
def mmStateMaskEnd : BitVec 32 := 0x80000000#32

/-- `MM_STATE_MASK_DUMMY`. -/
def mmStateMaskDummy : BitVec 32 := 0x40000000#32

/-- `last_flag`. -/
def MemAccessCmd.lastFlag (cmd : MemAccessCmd) : Bool :=
  cmd.state &&& mmStateMaskEnd = mmStateMaskEnd

/-- `dummy_flag`. -/
def MemAccessCmd.dummyFlag (cmd : MemAccessCmd) : Bool :=
  cmd.state &&& mmStateMaskDummy = mmStateMaskDummy

/-- The data of a response: a stored word and the flag above it. -/
structure MemAccessItem where
  data : BitVec 64
  dummy : Bool
deriving DecidableEq

/-- The response to a command, from the stored words `data` and `MEM_DUMMY_DATA`. -/
def response (data : BitVec 32 → BitVec 64) (dummyData : BitVec 64) (cmd : MemAccessCmd) :
    AxiPkg MemAccessItem where
  data :=
    { data := if cmd.dummyFlag then dummyData else data (cmd.addr.setWidth 32)
      dummy := cmd.dummyFlag }
  last := cmd.lastFlag

/-- Commands can be read, and so can control words. -/
inductive EngineIn where
  | cmd
  | ctrl
deriving DecidableEq

instance : Fintype EngineIn := ⟨{.cmd, .ctrl}, fun x => by cases x <;> decide⟩

/-- The sorts of words around an engine. -/
inductive MemSort where
  | cmd
  | ctrl
  | data
deriving DecidableEq

/-- The words of every sort. -/
abbrev MemWord : MemSort → Type
  | .cmd => MemAccessCmd
  | .ctrl => BitVec 8
  | .data => AxiPkg MemAccessItem

abbrev EngineIn.sort : EngineIn → MemSort
  | .cmd => .cmd
  | .ctrl => .ctrl

/-! ## The loop without a control stream -/

section Plain

variable {data : BitVec 32 → BitVec 64} {dummyData : BitVec 64}

/-- Registers of an engine without a control stream. -/
inductive MemAccessRegs where
  | poll
  | fetch
  | respond (cmd : MemAccessCmd)
  | returned

/-- The loop of `MEM_KERNEL_NAME` without `MEM_CTRL_INTERFACE`.  After it has returned the
host may start it again. -/
def memAccessKernel (data : BitVec 32 → BitVec 64) (dummyData : BitVec 64) :
    Kernel (fun _ : Unit => MemAccessCmd) (fun _ : Unit => AxiPkg MemAccessItem) where
  σ := MemAccessRegs
  Ω := Unit
  start := .poll
  op
    | .poll => .look fun empty _ => if empty () then .poll else .fetch
    | .fetch => .read () .respond
    | .respond cmd => .write () (response data dummyData cmd)
        (if cmd.lastFlag then .returned else .poll)
    | .returned => .choose fun _ => .poll

/-- The commands read but not yet answered. -/
def MemAccessRegs.owed : MemAccessRegs → List MemAccessCmd
  | .respond cmd => [cmd]
  | _ => []

/-- Across all invocations the responses are the answers to the commands read. -/
theorem memAccessKernel_path {r : MemAccessRegs} {R : Unit → List MemAccessCmd}
    {S : Unit → List (AxiPkg MemAccessItem)}
    (h : (memAccessKernel data dummyData).Path .poll r R S) :
    S () ++ r.owed.map (response data dummyData) = (R ()).map (response data dummyData) := by
  refine h.induct (I := fun (r : MemAccessRegs) R S =>
    S () ++ r.owed.map (response data dummyData) = (R ()).map (response data dummyData)) rfl ?_
  intro r R S hI
  cases r with
  | poll =>
      intro empty full
      dsimp only
      split <;> exact hI
  | fetch =>
      intro cmd
      simpa [MemAccessRegs.owed] using hI
  | respond cmd =>
      simp only [Kernel.Keeps, memAccessKernel, Function.update_self]
      split <;> simpa [MemAccessRegs.owed] using hI
  | returned => exact fun _ => hI

end Plain

/-! ## The loop with a control stream -/

section Ctrl

variable {data : BitVec 32 → BitVec 64} {dummyData : BitVec 64}

/-- `CTRL_END_OF_STREAM`. -/
def ctrlEndOfStream : BitVec 8 := 1#8

/-- Registers of an engine with a control stream.  The two streams are observed one after the
other. -/
inductive MemAccessCtrlRegs where
  | poll
  | weigh (inCtrlEmpty : Bool)
  | fetch
  | respond (cmd : MemAccessCmd)
  | fetchCtrl
  | returned

/-- The loop of `MEM_KERNEL_NAME` with `MEM_CTRL_INTERFACE`.  After it has returned the host
may start it again. -/
def memAccessCtrlKernel (data : BitVec 32 → BitVec 64) (dummyData : BitVec 64) :
    Kernel (fun i : EngineIn => MemWord i.sort) (fun _ : Unit => AxiPkg MemAccessItem) where
  σ := MemAccessCtrlRegs
  Ω := Unit
  start := .poll
  op
    | .poll => .look fun empty _ => .weigh (empty .ctrl)
    | .weigh inCtrlEmpty => .look fun empty _ =>
        match empty .cmd, inCtrlEmpty with
        | true, true => .poll
        | false, _ => .fetch
        | true, false => .fetchCtrl
    | .fetch => .read .cmd .respond
    | .respond cmd => .write () (response data dummyData cmd) .poll
    | .fetchCtrl => .read .ctrl fun endPkg =>
        if endPkg &&& ctrlEndOfStream = ctrlEndOfStream then .returned else .poll
    | .returned => .choose fun _ => .poll

/-- The commands read but not yet answered. -/
def MemAccessCtrlRegs.owed : MemAccessCtrlRegs → List MemAccessCmd
  | .respond cmd => [cmd]
  | _ => []

/-- Across all invocations the responses are the answers to the commands read. -/
theorem memAccessCtrlKernel_path {r : MemAccessCtrlRegs} {R : ∀ i : EngineIn, List (MemWord i.sort)}
    {S : Unit → List (AxiPkg MemAccessItem)}
    (h : (memAccessCtrlKernel data dummyData).Path .poll r R S) :
    S () ++ r.owed.map (response data dummyData) = (R .cmd).map (response data dummyData) := by
  refine h.induct (I := fun (r : MemAccessCtrlRegs) (R : ∀ i : EngineIn, List (MemWord i.sort)) S =>
    S () ++ r.owed.map (response data dummyData) = (R .cmd).map (response data dummyData)) rfl ?_
  intro r R S hI
  cases r with
  | poll => exact fun _ _ => hI
  | weigh inCtrlEmpty =>
      intro empty full
      cases hcmd : empty .cmd <;> cases inCtrlEmpty <;>
        simpa [hcmd, MemAccessCtrlRegs.owed] using hI
  | fetch =>
      intro cmd
      simpa [MemAccessCtrlRegs.owed] using hI
  | respond cmd =>
      simpa [Kernel.Keeps, memAccessCtrlKernel, MemAccessCtrlRegs.owed] using hI
  | fetchCtrl =>
      intro endPkg
      have hne : EngineIn.cmd ≠ .ctrl := by decide
      rw [Function.update_of_ne hne]
      dsimp only
      split <;> exact hI
  | returned => exact fun _ => hI

end Ctrl

end RidgeWalker.Memory
