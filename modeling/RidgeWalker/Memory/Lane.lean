import RidgeWalker.Bits.Ranges
import RidgeWalker.Dataflow.Execution
import RidgeWalker.Memory.Engine
import RidgeWalker.Memory.Join
import RidgeWalker.Switch.Packages

/-!
# Access lanes

A lane of the row-pointer access or of the column access: the in-kernel sends the command of
a task to the engine of its bank and the query state past it, the out-kernel joins the two
again, and the two banks are merged.

Main results:

- Theorem `access_pairing`: the k-th response of a bank is joined with the k-th query state
  sent to it, so that every task is joined with the word of its own address.
-/

namespace RidgeWalker.Memory

open Dataflow Network Bits Switch

/-! ## The two access paths -/

/-- What the kernels of an access path do with a task: `chnId`, the local address, the query
state, and how the word and the query state are put together again. -/
structure Access (m n : ℕ) where
  chnId : BitVec m → BitVec 1
  localAddr : BitVec m → BitVec 32
  qs : BitVec m → BitVec 64
  join : BitVec 64 → BitVec 64 → BitVec n

/-- `rpa_in` and `rpa_out_frp`. -/
def rpaAccess : Access 104 128 where
  chnId data :=
    let v := range data 0 40
    range v 0 1
  localAddr data :=
    let v := range data 0 40
    (range v 4 36).setWidth 32
  qs data := range data 40 64
  join word qs := setRange (setRange (0 : BitVec 128) 0 word) 64 qs

/-- `cla_in` and `cla_out_frp`. -/
def claAccess : Access 104 104 where
  chnId data :=
    let claTask := range data 0 40
    (range claTask 27 10 &&& 0x01#10).setWidth 1
  localAddr data :=
    let claTask := range data 0 40
    (range claTask 0 27).setWidth 32
  qs data := range data 40 64
  join word qs := setRange (setRange (0 : BitVec 104) 0 (word.setWidth 40)) 40 qs

section Kernels

variable {m n : ℕ} (A : Access m n)

/-- The bank of a task. -/
def Access.bank (task : AxiPkg (BitVec m)) : Fin 2 := if A.chnId task.data = 1#1 then 1 else 0

/-- The command of a task. -/
def Access.cmd (task : AxiPkg (BitVec m)) : MemAccessCmd where
  addr := (A.localAddr task.data).setWidth 64
  state := if task.last then 0 ||| mmStateMaskEnd else 0

/-- The query state of a task. -/
def Access.state (task : AxiPkg (BitVec m)) : AxiPkg (BitVec 64) := ⟨A.qs task.data, task.last⟩

/-- A response put together with a query state. -/
def Access.joinPkg (dataPkg : AxiPkg MemAccessItem) (qsPkg : AxiPkg (BitVec 64)) :
    Frp (BitVec n) :=
  ⟨A.join dataPkg.data.data qsPkg.data, qsPkg.last⟩

/-- A task joined with the word stored at its own address in the memory of its bank. -/
def Access.joined (data : Fin 2 → BitVec 32 → BitVec 64) (task : AxiPkg (BitVec m)) :
    Frp (BitVec n) :=
  ⟨A.join (data (A.bank task) (A.localAddr task.data)) (A.qs task.data), task.last⟩

/-- A command of an access path is never a dummy, and its address is that of the task. -/
theorem Access.response_cmd (data : BitVec 32 → BitVec 64) (task : AxiPkg (BitVec m)) :
    (response data 0 (A.cmd task)).data.data = data (A.localAddr task.data) := by
  have hdummy : (A.cmd task).dummyFlag = false := by
    cases hlast : task.last <;>
      simp [MemAccessCmd.dummyFlag, Access.cmd, hlast, mmStateMaskDummy, mmStateMaskEnd]
  have haddr : ((A.localAddr task.data).setWidth 64).setWidth 32 = A.localAddr task.data := by
    apply BitVec.eq_of_toNat_eq
    have hlt := (A.localAddr task.data).isLt
    simp only [BitVec.toNat_setWidth]
    omega
  rw [response, hdummy]
  exact congrArg data haddr

/-! ## The kernels of a lane -/

/-- The sorts of streams of a lane. -/
inductive LaneSort where
  | task
  | state
  | mem (s : MemSort)
  | joined
deriving DecidableEq

/-- The words of every sort, for tasks of `m` bits and joined items of `n` bits. -/
abbrev LaneWord (m n : ℕ) : LaneSort → Type
  | .task => AxiPkg (BitVec m)
  | .state => AxiPkg (BitVec 64)
  | .mem s => MemWord s
  | .joined => Frp (BitVec n)

/-- The streams the in-kernels write: `vertex_cmd_0`, `vertex_cmd_1`, `vds_0` and `vds_1`. -/
inductive InPort where
  | vertexCmd (c : Fin 2)
  | vds (c : Fin 2)
deriving DecidableEq

instance : Fintype InPort :=
  ⟨{.vertexCmd 0, .vertexCmd 1, .vds 0, .vds 1}, fun x => by
    cases x with
    | vertexCmd c => fin_cases c <;> decide
    | vds c => fin_cases c <;> decide⟩

abbrev InPort.sort : InPort → LaneSort
  | .vertexCmd _ => .mem .cmd
  | .vds _ => .state

/-- Registers of an in-kernel. -/
inductive AccessInRegs (m : ℕ) where
  | poll
  | writeCmd (task : AxiPkg (BitVec m))
  | writeState (task : AxiPkg (BitVec m))

/-- The loop of `rpa_in` and `cla_in`. -/
def accessInKernel :
    Kernel (fun _ : Unit => AxiPkg (BitVec m)) (fun o : InPort => LaneWord m n o.sort) where
  σ := AccessInRegs m
  Ω := Empty
  start := .poll
  op
    | .poll => .readNb () fun
        | some task => .writeCmd task
        | none => .poll
    | .writeCmd task => .write (.vertexCmd (A.bank task)) (A.cmd task) (.writeState task)
    | .writeState task => .write (.vds (A.bank task)) (A.state task) .poll

/-- The tasks whose command is still to be sent. -/
def AccessInRegs.owedCmd {m : ℕ} : AccessInRegs m → List (AxiPkg (BitVec m))
  | .writeCmd task => [task]
  | _ => []

/-- The tasks whose query state is still to be sent. -/
def AccessInRegs.owedState {m : ℕ} : AccessInRegs m → List (AxiPkg (BitVec m))
  | .poll => []
  | .writeCmd task => [task]
  | .writeState task => [task]

/-- The tasks of a bank. -/
def Access.ofBank (c : Fin 2) (tasks : List (AxiPkg (BitVec m))) : List (AxiPkg (BitVec m)) :=
  tasks.filter fun task => A.bank task = c

@[simp] theorem Access.ofBank_nil (c : Fin 2) : A.ofBank c [] = [] := rfl

@[simp] theorem Access.ofBank_append (c : Fin 2) (tasks tasks' : List (AxiPkg (BitVec m))) :
    A.ofBank c (tasks ++ tasks') = A.ofBank c tasks ++ A.ofBank c tasks' :=
  List.filter_append _ _

@[simp] theorem Access.ofBank_self (task : AxiPkg (BitVec m)) :
    A.ofBank (A.bank task) [task] = [task] := by
  simp [Access.ofBank]

theorem Access.ofBank_other {c : Fin 2} {task : AxiPkg (BitVec m)} (h : A.bank task ≠ c) :
    A.ofBank c [task] = [] := by
  simp [Access.ofBank, h]

/-- Every task belongs to one of the two banks. -/
theorem Access.ofBank_perm (tasks : List (AxiPkg (BitVec m))) :
    (A.ofBank 0 tasks ++ A.ofBank 1 tasks).Perm tasks := by
  have hone : A.ofBank 1 tasks = tasks.filter fun task => !decide (A.bank task = 0) := by
    refine List.filter_congr fun task _ => ?_
    by_cases h : A.bank task = 0
    · simp [h]
    · simp [Fin.eq_one_of_ne_zero _ h]
  rw [hone]
  exact List.filter_append_perm _ _

/-- An in-kernel sends the commands of the tasks of a bank to it, in order. -/
theorem accessInKernel_path_cmd {r : AccessInRegs m} {R : Unit → List (AxiPkg (BitVec m))}
    {S : ∀ o : InPort, List (LaneWord m n o.sort)}
    (h : (accessInKernel A).Path .poll r R S) (c : Fin 2) :
    S (.vertexCmd c) ++ (A.ofBank c r.owedCmd).map A.cmd = (A.ofBank c (R ())).map A.cmd := by
  refine h.induct (I := fun (r : AccessInRegs m) R (S : ∀ o : InPort, List (LaneWord m n o.sort)) =>
    S (.vertexCmd c) ++ (A.ofBank c r.owedCmd).map A.cmd = (A.ofBank c (R ())).map A.cmd) rfl ?_
  intro r R S hI
  cases r with
  | poll =>
      refine ⟨hI, fun task => ?_⟩
      simp only [AccessInRegs.owedCmd, Access.ofBank_nil, List.map_nil, List.append_nil] at hI
      simp [AccessInRegs.owedCmd, hI]
  | writeCmd task =>
      by_cases hc : A.bank task = c
      · subst hc
        simpa [Kernel.Keeps, accessInKernel, AccessInRegs.owedCmd] using hI
      · have hport : InPort.vertexCmd c ≠ .vertexCmd (A.bank task) := fun he =>
          hc (InPort.vertexCmd.inj he).symm
        simpa [Kernel.Keeps, accessInKernel, AccessInRegs.owedCmd, A.ofBank_other hc,
          Function.update_of_ne hport] using hI
  | writeState task => simpa [Kernel.Keeps, accessInKernel, AccessInRegs.owedCmd] using hI

/-- An in-kernel sends the query states of the tasks of a bank to it, in order. -/
theorem accessInKernel_path_state {r : AccessInRegs m} {R : Unit → List (AxiPkg (BitVec m))}
    {S : ∀ o : InPort, List (LaneWord m n o.sort)}
    (h : (accessInKernel A).Path .poll r R S) (c : Fin 2) :
    S (.vds c) ++ (A.ofBank c r.owedState).map A.state = (A.ofBank c (R ())).map A.state := by
  refine h.induct (I := fun (r : AccessInRegs m) R (S : ∀ o : InPort, List (LaneWord m n o.sort)) =>
    S (.vds c) ++ (A.ofBank c r.owedState).map A.state = (A.ofBank c (R ())).map A.state) rfl ?_
  intro r R S hI
  cases r with
  | poll =>
      refine ⟨hI, fun task => ?_⟩
      simp only [AccessInRegs.owedState, Access.ofBank_nil, List.map_nil, List.append_nil] at hI
      simp [AccessInRegs.owedState, hI]
  | writeCmd task => simpa [Kernel.Keeps, accessInKernel, AccessInRegs.owedState] using hI
  | writeState task =>
      by_cases hc : A.bank task = c
      · subst hc
        simpa [Kernel.Keeps, accessInKernel, AccessInRegs.owedState] using hI
      · have hport : InPort.vds c ≠ .vds (A.bank task) := fun he => hc (InPort.vds.inj he).symm
        simpa [Kernel.Keeps, accessInKernel, AccessInRegs.owedState, A.ofBank_other hc,
          Function.update_of_ne hport] using hI

/-- The sorts of the streams the out-kernels read: `in_data` and `in_qs`. -/
abbrev outSort : JoinIn → LaneSort
  | .inData => .mem .data
  | .inState => .state

/-- The loop of `rpa_out_frp` and `cla_out_frp`. -/
def accessOutKernel : Kernel (fun i => LaneWord m n (outSort i)) (fun _ : Unit => Frp (BitVec n)) :=
  joinKernel (LaneWord m n) outSort fun dataPkg qsPkg => some (A.joinPkg dataPkg qsPkg)

end Kernels

/-! ## The lane -/

/-- The streams of joined items. -/
inductive JoinedStream where
  | inner (c : Fin 2)
  | frpOut
  | out
deriving DecidableEq

/-- The streams of every sort; the streams between the in-kernel and the out-kernel exist
once for every bank. -/
abbrev LaneStream : LaneSort → Type
  | .task => Unit
  | .state => Fin 2
  | .mem _ => Fin 2
  | .joined => JoinedStream

instance : (s : LaneSort) → DecidableEq (LaneStream s)
  | .task => inferInstanceAs (DecidableEq Unit)
  | .state => inferInstanceAs (DecidableEq (Fin 2))
  | .mem _ => inferInstanceAs (DecidableEq (Fin 2))
  | .joined => inferInstanceAs (DecidableEq JoinedStream)

/-- The stream of tasks. -/
abbrev input : Chan LaneStream := ⟨.task, ()⟩

/-- The query states sent past the engine of a bank. -/
abbrev vds (c : Fin 2) : Chan LaneStream := ⟨.state, c⟩

/-- The commands sent to the engine of a bank. -/
abbrev vertexCmd (c : Fin 2) : Chan LaneStream := ⟨.mem .cmd, c⟩

/-- The control words sent to the engine of a bank. -/
abbrev inCtrl (c : Fin 2) : Chan LaneStream := ⟨.mem .ctrl, c⟩

/-- The responses of the engine of a bank. -/
abbrev inData (c : Fin 2) : Chan LaneStream := ⟨.mem .data, c⟩

abbrev JoinedStream.chan (c : JoinedStream) : Chan LaneStream := ⟨.joined, c⟩

/-- The kernels of a lane. -/
inductive LaneProc where
  | accessIn
  | engine (c : Fin 2)
  | accessOut (c : Fin 2)
  | mergePackage
  | frpToAxis
deriving DecidableEq

instance : Fintype LaneProc :=
  ⟨{.accessIn, .engine 0, .engine 1, .accessOut 0, .accessOut 1, .mergePackage, .frpToAxis},
    fun x => by
      cases x with
      | engine c => fin_cases c <;> decide
      | accessOut c => fin_cases c <;> decide
      | _ => decide⟩

section Lane

variable {m n : ℕ} (A : Access m n) (data : Fin 2 → BitVec 32 → BitVec 64)

/-- `rpa_in` or `cla_in`. -/
def accessIn : Call LaneStream (LaneWord m n) where
  In := Unit
  Out := InPort
  src _ := input
  dst o := ⟨o.sort, match o with
    | .vertexCmd c => c
    | .vds c => c⟩
  kernel := accessInKernel A

/-- `rpa_engine_instance` or `cla_engine_instance`, on the memory of a bank. -/
def engine (c : Fin 2) : Call LaneStream (LaneWord m n) where
  In := EngineIn
  Out := Unit
  src i := ⟨.mem i.sort, c⟩
  dst _ := inData c
  kernel := memAccessCtrlKernel (data c) 0

/-- `rpa_out_frp` or `cla_out_frp`, for a bank. -/
def accessOut (c : Fin 2) : Call LaneStream (LaneWord m n) where
  In := JoinIn
  Out := Unit
  src i := ⟨outSort i, match i with
    | .inData => c
    | .inState => c⟩
  dst _ := (JoinedStream.inner c).chan
  kernel := accessOutKernel A

/-- `merge_package` in `rpa_out` and `cla_out`. -/
def mergePackage (m n : ℕ) : Call LaneStream (LaneWord m n) where
  In := Fin 2
  Out := Unit
  src c := (JoinedStream.inner c).chan
  dst _ := JoinedStream.frpOut.chan
  kernel := mergePackageKernel (Frp (BitVec n))

/-- `free_run_frp_to_axis_stream` in `rpa_out` and `cla_out`. -/
def frpToAxis (m n : ℕ) : Call LaneStream (LaneWord m n) where
  In := Unit
  Out := Unit
  src _ := JoinedStream.frpOut.chan
  dst _ := JoinedStream.out.chan
  kernel := forwardKernel (Frp (BitVec n))

/-- A lane with its two engines. -/
def lane (depth : Chan LaneStream → ℕ) : Network LaneProc LaneStream (LaneWord m n) where
  node
    | .accessIn => accessIn A
    | .engine c => engine data c
    | .accessOut c => accessOut A c
    | .mergePackage => mergePackage m n
    | .frpToAxis => frpToAxis m n
  depth := depth

variable {A data} {depth : Chan LaneStream → ℕ}

theorem lane_pointToPoint : (lane A data depth).PointToPoint := by
  constructor
  · rintro ⟨p, i⟩ ⟨q, j⟩ h
    cases p <;> cases q <;> cases i <;> cases j <;> cases h <;> rfl
  · rintro ⟨p, i⟩ ⟨q, j⟩ h
    cases p <;> cases q <;> cases i <;> cases j <;> cases h <;> rfl

/-! ## Pairing -/

/-- The tasks of a bank that the in-kernel has read. -/
def tasks (s : (lane A data depth).State) (c : Fin 2) : List (AxiPkg (BitVec m)) :=
  A.ofBank c (s.taken input)

/-- No word is under way: all streams inside are empty and no kernel holds a word. -/
structure Idle (s : (lane A data depth).State) : Prop where
  queue : ∀ c, (∀ x, c ≠ inCtrl x) → c ≠ JoinedStream.out.chan → (s.fifo c).queue = []
  accessIn : s.regs .accessIn = AccessInRegs.poll
  engine : ∀ c, MemAccessCtrlRegs.owed (s.regs (.engine c)) = []
  accessOut : ∀ c, s.regs (.accessOut c) = JoinRegs.poll
  mergePackage : MergeRegs.pending (s.regs .mergePackage) = []
  frpToAxis : s.regs .frpToAxis = ForwardRegs.fetch

section Paired

variable {s : (lane A data depth).State} (hs : (lane A data depth).Reachable s)
include hs

/-- The commands of a bank are those of its tasks, in order. -/
theorem vertexCmd_written (c : Fin 2) :
    s.written (vertexCmd c) ++
        (A.ofBank c (AccessInRegs.owedCmd (s.regs .accessIn))).map A.cmd =
      (tasks s c).map A.cmd :=
  accessInKernel_path_cmd A (hs.path lane_pointToPoint .accessIn) c

/-- The query states of a bank are those of its tasks, in order. -/
theorem vds_written (c : Fin 2) :
    s.written (vds c) ++ (A.ofBank c (AccessInRegs.owedState (s.regs .accessIn))).map A.state =
      (tasks s c).map A.state :=
  accessInKernel_path_state A (hs.path lane_pointToPoint .accessIn) c

/-- An engine answers the commands it has read, in order and across its invocations. -/
theorem inData_written (c : Fin 2) :
    s.written (inData c) ++
        (MemAccessCtrlRegs.owed (s.regs (.engine c))).map (response (data c) 0) =
      (s.taken (vertexCmd c)).map (response (data c) 0) :=
  memAccessCtrlKernel_path (hs.path lane_pointToPoint (.engine c))

/-- An out-kernel joins the responses and the query states of its bank. -/
theorem inner_written (c : Fin 2) : ∃ done,
    Joining (fun dataPkg qsPkg => some (A.joinPkg dataPkg qsPkg)) (s.regs (.accessOut c))
      (fun i => s.taken ((accessOut A c).src i))
      (fun _ => s.written (JoinedStream.inner c).chan) done :=
  joinKernel_path (hs.path lane_pointToPoint (.accessOut c))

theorem frpOut_written :
    Interleave (s.taken (JoinedStream.inner 0).chan) (s.taken (JoinedStream.inner 1).chan)
      (s.written JoinedStream.frpOut.chan ++ MergeRegs.pending (s.regs .mergePackage)) :=
  mergePackageKernel_path (hs.path lane_pointToPoint .mergePackage)

theorem out_written :
    s.written JoinedStream.out.chan ++ ForwardRegs.pending (s.regs .frpToAxis) =
      s.taken JoinedStream.frpOut.chan :=
  forwardKernel_path (hs.path lane_pointToPoint .frpToAxis)

end Paired

/-- A task joined with the response to its own command is joined with its own word. -/
theorem Access.joinPkg_response (A : Access m n) (data : Fin 2 → BitVec 32 → BitVec 64)
    (task : AxiPkg (BitVec m)) :
    A.joinPkg (response (data (A.bank task)) 0 (A.cmd task)) (A.state task) =
      A.joined data task := by
  simp only [Access.joinPkg, Access.joined, A.response_cmd, Access.state]

/-- The responses and the query states of a bank, joined by position. -/
theorem Access.zip_ofBank (A : Access m n) (data : Fin 2 → BitVec 32 → BitVec 64) (c : Fin 2)
    (l : List (AxiPkg (BitVec m))) :
    ((((A.ofBank c l).map A.cmd).map (response (data c) 0)).zip
        ((A.ofBank c l).map A.state)).filterMap (fun x => some (A.joinPkg x.1 x.2)) =
      (A.ofBank c l).map (A.joined data) := by
  rw [filterMap_zip_some, List.map_map, List.zipWith_map, List.zipWith_self]
  refine List.map_congr_left fun task htask => ?_
  have hc : A.bank task = c := by simpa [Access.ofBank] using List.of_mem_filter htask
  rw [← hc]
  exact A.joinPkg_response data task

/-- What a lane owes for the tasks that its in-kernel has read. -/
structure Paired (s : (lane A data depth).State) : Prop where
  /-- The k-th response of a bank answers the k-th command sent to it, across invocations. -/
  responses : ∀ c, s.written (inData c) <+: (s.written (vertexCmd c)).map (response (data c) 0)
  /-- The k-th command of a bank is that of its k-th task. -/
  commands : ∀ c, s.written (vertexCmd c) <+: (tasks s c).map A.cmd
  /-- The k-th query state of a bank is that of its k-th task. -/
  states : ∀ c, s.written (vds c) <+: (tasks s c).map A.state
  /-- The k-th response of a bank is joined with the k-th query state sent to it. -/
  joins : ∀ c, s.written (JoinedStream.inner c).chan <+:
    List.zipWith A.joinPkg (s.written (inData c)) (s.written (vds c))
  /-- The outputs merge tasks of either bank, in order, each joined with its own word. -/
  outputs : ∃ l : Fin 2 → List (Frp (BitVec n)),
    (∀ c, l c <+: (tasks s c).map (A.joined data)) ∧
      Interleave (l 0) (l 1) (s.written JoinedStream.out.chan)
  /-- Once nothing is under way the outputs are all inputs, each joined with its own word. -/
  idle : Idle s →
    Interleave ((tasks s 0).map (A.joined data)) ((tasks s 1).map (A.joined data))
        (s.written JoinedStream.out.chan) ∧
      (s.written JoinedStream.out.chan).Perm ((s.written input).map (A.joined data))
  /-- An engine that has returned has answered every command it has read. -/
  returned : ∀ c, s.regs (.engine c) = MemAccessCtrlRegs.returned →
    s.written (inData c) = (s.taken (vertexCmd c)).map (response (data c) 0)

section Account

variable {s : (lane A data depth).State} (hs : (lane A data depth).Reachable s)
include hs

theorem vertexCmd_isPrefix (c : Fin 2) : s.written (vertexCmd c) <+: (tasks s c).map A.cmd :=
  ⟨_, vertexCmd_written hs c⟩

theorem vds_isPrefix (c : Fin 2) : s.written (vds c) <+: (tasks s c).map A.state :=
  ⟨_, vds_written hs c⟩

theorem inData_isPrefix (c : Fin 2) :
    s.written (inData c) <+: (s.written (vertexCmd c)).map (response (data c) 0) := by
  have hread : s.written (inData c) <+: (s.taken (vertexCmd c)).map (response (data c) 0) :=
    ⟨_, inData_written hs c⟩
  exact hread.trans ((s.taken_isPrefix (vertexCmd c)).map _)

/-- The joined items of a bank are those of its tasks, as far as they have come. -/
theorem inner_isPrefix (c : Fin 2) :
    s.written (JoinedStream.inner c).chan <+: (tasks s c).map (A.joined data) := by
  obtain ⟨done, hjoin⟩ := inner_written hs c
  have hdata := (s.taken_isPrefix (inData c)).trans
    ((inData_isPrefix hs c).trans ((vertexCmd_isPrefix hs c).map _))
  have hstate := (s.taken_isPrefix (vds c)).trans (vds_isPrefix hs c)
  have hall := hjoin.isPrefix hdata hstate
  rwa [tasks, A.zip_ofBank data c] at hall

theorem inner_joins (c : Fin 2) :
    s.written (JoinedStream.inner c).chan <+:
      List.zipWith A.joinPkg (s.written (inData c)) (s.written (vds c)) := by
  obtain ⟨done, hjoin⟩ := inner_written hs c
  have hall := hjoin.isPrefix (s.taken_isPrefix (inData c)) (s.taken_isPrefix (vds c))
  rwa [filterMap_zip_some] at hall

theorem out_isPrefix : ∃ l : Fin 2 → List (Frp (BitVec n)),
    (∀ c, l c <+: (tasks s c).map (A.joined data)) ∧
      Interleave (l 0) (l 1) (s.written JoinedStream.out.chan) := by
  have hout : s.written JoinedStream.out.chan <+:
      s.written JoinedStream.frpOut.chan ++ MergeRegs.pending (s.regs .mergePackage) := by
    have hread : s.written JoinedStream.out.chan <+: s.taken JoinedStream.frpOut.chan :=
      ⟨_, out_written hs⟩
    exact (hread.trans (s.taken_isPrefix _)).trans (List.prefix_append _ _)
  obtain ⟨l0, l1, h0, h1, hmerge⟩ := (frpOut_written hs).of_isPrefix hout
  have hbank : ∀ c, s.taken (JoinedStream.inner c).chan <+: (tasks s c).map (A.joined data) :=
    fun c => (s.taken_isPrefix _).trans (inner_isPrefix hs c)
  refine ⟨![l0, l1], fun c => ?_, hmerge⟩
  fin_cases c
  · exact h0.trans (hbank 0)
  · exact h1.trans (hbank 1)

/-- When nothing is under way every stream inside has been read to its end. -/
theorem idle_inner (hidle : Idle s) (c : Fin 2) :
    s.taken (JoinedStream.inner c).chan = (tasks s c).map (A.joined data) := by
  have hqueue : ∀ c, (∀ x, c ≠ inCtrl x) → c ≠ JoinedStream.out.chan → s.taken c = s.written c :=
    fun c hctrl hout => Network.State.taken_eq_written (hidle.queue c hctrl hout)
  have hcmd := vertexCmd_written hs c
  have hstate := vds_written hs c
  have hdata := inData_written hs c
  obtain ⟨done, hread, -, hinner⟩ := inner_written hs c
  rw [hidle.accessIn] at hcmd hstate
  rw [hidle.engine c] at hdata
  rw [hidle.accessOut c] at hread hinner
  simp only [AccessInRegs.owedCmd, AccessInRegs.owedState, Access.ofBank_nil, List.map_nil,
    List.append_nil] at hcmd hstate hdata
  simp only [JoinRegs.waiting, JoinRegs.pending, List.append_nil] at hread hinner
  have hinData : s.taken (inData c) = ((tasks s c).map A.cmd).map (response (data c) 0) := by
    rw [hqueue (inData c) (by simp) (by simp), hdata, hqueue (vertexCmd c) (by simp) (by simp), hcmd]
  have hvds : s.taken (vds c) = (tasks s c).map A.state := by
    rw [hqueue (vds c) (by simp) (by simp), hstate]
  rw [hqueue (JoinedStream.inner c).chan (by simp) (by simp), hinner, ← hread]
  change ((s.taken (inData c)).zip (s.taken (vds c))).filterMap _ = _
  rw [hinData, hvds]
  exact A.zip_ofBank data c (s.taken input)

theorem idle_out (hidle : Idle s) :
    Interleave ((tasks s 0).map (A.joined data)) ((tasks s 1).map (A.joined data))
        (s.written JoinedStream.out.chan) ∧
      (s.written JoinedStream.out.chan).Perm ((s.written input).map (A.joined data)) := by
  have hmerge := frpOut_written hs
  have hout := out_written hs
  rw [hidle.mergePackage, List.append_nil, idle_inner hs hidle, idle_inner hs hidle] at hmerge
  rw [hidle.frpToAxis, Network.State.taken_eq_written
    (hidle.queue JoinedStream.frpOut.chan (by simp) (by simp))] at hout
  simp only [ForwardRegs.pending, List.append_nil] at hout
  rw [← hout] at hmerge
  refine ⟨hmerge, hmerge.perm.trans ?_⟩
  have hinput : s.taken input = s.written input :=
    Network.State.taken_eq_written (hidle.queue input (by simp) (by simp))
  rw [← List.map_append, ← hinput]
  exact (A.ofBank_perm (s.taken input)).map _

end Account

/-- In every reachable state of a lane the responses are paired with the query states they
belong to. -/
theorem paired {s : (lane A data depth).State} (hs : (lane A data depth).Reachable s) :
    Paired s := by
  refine ⟨inData_isPrefix hs, vertexCmd_isPrefix hs, vds_isPrefix hs, inner_joins hs,
    out_isPrefix hs, idle_out hs, fun c hreturned => ?_⟩
  have hdata := inData_written hs c
  rw [hreturned] at hdata
  simpa [MemAccessCtrlRegs.owed] using hdata

/-! ## Return and restart -/

/-- The invocation of the engine of a bank has returned. -/
def Returned (c : Fin 2) (s : (lane A data depth).State) : Prop :=
  s.regs (.engine c) = MemAccessCtrlRegs.returned

/-- An engine whose invocation returns or begins in an operation leaves its commands alone. -/
theorem engine_boundary {c : Fin 2} {r r' : MemAccessCtrlRegs}
    {f f' : Fifos LaneStream (LaneWord m n)} {e} (hl : (memAccessCtrlKernel (data c) 0).Local r e r')
    (he : Effect depth (engine data c : Call LaneStream (LaneWord m n)) f e f')
    (hne : ¬ (r = .returned ↔ r' = .returned)) : f' (vertexCmd c) = f (vertexCmd c) := by
  have hy := hl.yields
  cases r with
  | poll =>
      obtain ⟨x, y, -, rfl⟩ := hy
      simp at hne
  | weigh inCtrlEmpty =>
      obtain ⟨x, y, -, rfl⟩ := hy
      exfalso
      apply hne
      dsimp only
      split <;> simp
  | fetch =>
      obtain ⟨cmd, -, rfl⟩ := hy
      simp at hne
  | respond cmd =>
      obtain ⟨-, rfl⟩ := hy
      simp at hne
  | fetchCtrl =>
      obtain ⟨endPkg, rfl, rfl⟩ := hy
      rcases he with @⟨i, a, q, h⟩
      exact Function.update_of_ne (by simp [engine]) _ _
  | returned =>
      obtain ⟨w, rfl, rfl⟩ := hy
      rcases he with _ | _ | _ | _ | _ | _
      rfl

/-- The steps in which an invocation of an engine returns, or the next one begins, leave its
commands where they are. -/
theorem boundary {c : Fin 2} {s s' : (lane A data depth).State} {l : (lane A data depth).Label}
    (hs : (lane A data depth).Step s l s') (hne : ¬ (Returned c s ↔ Returned c s')) :
    s'.fifo (vertexCmd c) = s.fifo (vertexCmd c) := by
  cases hs with
  | @fire p e r f hl he =>
      by_cases hp : p = .engine c
      · subst hp
        simp only [Returned, Function.update_self] at hne
        exact engine_boundary hl he hne
      · exact absurd (by simp [Returned, Function.update_of_ne (Ne.symm hp)]) hne
  | put _ _ => exact absurd Iff.rfl hne
  | take _ _ => exact absurd Iff.rfl hne

/-- On every lane of the row-pointer access and of the column access, for every content of the
memories, every sequence of tasks and every interleaving: responses and query states are
paired, and no command is lost when an engine returns and starts again. -/
theorem access_pairing (data : Fin 2 → BitVec 32 → BitVec 64) (depth : Chan LaneStream → ℕ) :
    ((∀ s, (lane rpaAccess data depth).Reachable s → Paired s) ∧
      ∀ c s l s', (lane rpaAccess data depth).Step s l s' → ¬ (Returned c s ↔ Returned c s') →
        s'.fifo (vertexCmd c) = s.fifo (vertexCmd c)) ∧
    (∀ s, (lane claAccess data depth).Reachable s → Paired s) ∧
      ∀ c s l s', (lane claAccess data depth).Step s l s' → ¬ (Returned c s ↔ Returned c s') →
        s'.fifo (vertexCmd c) = s.fifo (vertexCmd c) :=
  ⟨⟨fun _ hs => paired hs, fun _ _ _ _ hstep hne => boundary hstep hne⟩,
    fun _ hs => paired hs, fun _ _ _ _ hstep hne => boundary hstep hne⟩

end Lane

/-- Memories whose words are their own addresses. -/
def addressed (_ : Fin 2) (addr : BitVec 32) : BitVec 64 := addr.setWidth 64

/-- A task for vertex `0x50`, which is word 5 of bank 0. -/
def loneTask : AxiPkg (BitVec 104) := ⟨0x00000000000000070000000050#104, false⟩

/-- The lane of that task, on streams that hold a single word. -/
abbrev loneLane : Network LaneProc LaneStream (LaneWord 104 128) :=
  lane rpaAccess addressed fun _ => 1

/-- The engine is told to return, and returns with its next operation. -/
def returning : List loneLane.Action :=
  .put (inCtrl 0) ctrlEndOfStream :: List.replicate 2 (.fire (.engine 0) none)

/-- A command arrives, the engine is started again, and the task leaves the lane. -/
def restarting : List loneLane.Action :=
  .put input loneTask :: List.replicate 3 (.fire .accessIn none) ++
    .fire (.engine 0) (some ()) :: List.replicate 4 (.fire (.engine 0) none) ++
      List.replicate 3 (.fire (.accessOut 0) none) ++
        List.replicate 4 (.fire .mergePackage none) ++ List.replicate 2 (.fire .frpToAxis none)

/-- A task whose command waits while the engine has returned is answered by the next
invocation. -/
theorem access_pairing_lone :
    ∃ s : loneLane.State, Idle s ∧ Paired s ∧
      s.written JoinedStream.out.chan = [⟨0x00000000000000070000000000000005#128, false⟩] ∧
      ∃ t t' : loneLane.State, ¬ (Returned 0 t ↔ Returned 0 t') ∧
        t'.fifo (vertexCmd 0) = t.fifo (vertexCmd 0) := by
  obtain ⟨tr, t, ht⟩ : ∃ tr t, Network.execute (fun _ _ => True) returning [] loneLane.init =
      some (tr, t) := ⟨_, _, rfl⟩
  obtain ⟨l, t', hnext⟩ : ∃ l t', Network.next t (.fire (.engine 0) none) = some (l, t') := by
    cases ht
    exact ⟨_, _, rfl⟩
  have hreturn := Network.next_step hnext
  obtain ⟨tr', s, hs⟩ : ∃ tr' s, Network.execute (fun _ _ => True) restarting (tr ++ [l]) t' =
      some (tr', s) := by
    cases ht
    cases hnext
    exact ⟨_, _, rfl⟩
  have hrun := (Network.execute_run .nil ht).snoc trivial hreturn
  have hr : loneLane.Reachable s := ⟨tr', (Network.execute_run hrun hs).run⟩
  obtain ⟨⟨hpaired, hboundary⟩, -⟩ := access_pairing addressed fun _ => 1
  have hne : ¬ (Returned 0 t ↔ Returned 0 t') := by
    cases ht
    cases hnext
    intro h
    cases h.mpr rfl
  have hidle : Idle s := by
    cases ht
    cases hnext
    cases hs
    refine ⟨fun c hctrl hout => ?_, rfl, fun c => ?_, fun c => ?_, rfl, rfl⟩
    · rcases c with ⟨_ | _ | ⟨_ | _ | _⟩ | _, c⟩
      · rfl
      · fin_cases c <;> rfl
      · fin_cases c <;> rfl
      · exact absurd rfl (hctrl c)
      · fin_cases c <;> rfl
      · rcases c with c | _ | _
        · fin_cases c <;> rfl
        · rfl
        · exact absurd rfl hout
    · fin_cases c <;> rfl
    · fin_cases c <;> rfl
  have hout : s.written JoinedStream.out.chan =
      [⟨0x00000000000000070000000000000005#128, false⟩] := by
    cases ht
    cases hnext
    cases hs
    decide +kernel
  exact ⟨s, hidle, hpaired s hr, hout, t, t', hne, hboundary 0 t l t' hreturn hne⟩

end RidgeWalker.Memory
