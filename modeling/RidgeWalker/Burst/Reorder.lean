import RidgeWalker.Burst.Order
import RidgeWalker.Burst.UpdateMerge

/-!
# The lines of the descriptors

`vd_scheduler` spreads the descriptors over three burst processes, which work at their own speed,
and the two mergers put the lines back into order.

Main results:

- Theorem `issued_sent`: `cmd_generator` sends the commands of the descriptors in order.
- Theorem `burst_reorder`: tokens and weights leave `inter_merge` in the order of the descriptors,
  each descriptor with its lines, as long as fewer than `2^15` descriptors and fewer than `2^15`
  commands are outstanding.
-/

namespace RidgeWalker.Burst

open Bits Dataflow Network Memory Cache Wrs

/-! ## `cmd_generator` in order -/

/-- The commands that `cmd_generator` has ahead, in order, if every loop stops. -/
def cmdIssue (maxLength : ℕ) (r : GeneratorRegs)
    (X : Unit → List (AxiPkg VertexDescriptorOrdered)) (Y : List CmdSend) : Prop :=
  match r with
  | .fetch dynamicBurstId => ∃ fuel cmds,
      cmdGenerator maxLength fuel (X ()) dynamicBurstId = some cmds ∧ Y = cmds.flatten
  | .loop pkg l => l.currAddr ≠ pkg.data.endAddr ∧ ∃ fuel fuel' first l' cmds,
      decompose maxLength pkg fuel l = some (first, l') ∧
        cmdGenerator maxLength fuel' (X ()) l'.dynamicBurstId = some cmds ∧
          Y = first ++ cmds.flatten

/-- After the test of the loop. -/
theorem cmdIssue_test {maxLength fuel fuel' : ℕ} {pkg : AxiPkg VertexDescriptorOrdered} {l l' : Loop}
    {first : List CmdSend} {cmds : List (List CmdSend)}
    {X : Unit → List (AxiPkg VertexDescriptorOrdered)}
    (hfirst : decompose maxLength pkg fuel l = some (first, l'))
    (hcmds : cmdGenerator maxLength fuel' (X ()) l'.dynamicBurstId = some cmds) :
    cmdIssue maxLength (.test pkg l) X (first ++ cmds.flatten) := by
  unfold GeneratorRegs.test
  split
  · rename_i heq
    rw [decompose_done _ _ heq] at hfirst
    cases hfirst
    exact ⟨fuel', cmds, hcmds, rfl⟩
  · rename_i hne
    exact ⟨hne, fuel, fuel', first, l', cmds, hfirst, hcmds, rfl⟩

/-- `cmd_generator` sends the commands in order. -/
theorem cmdIssue_obeys {maxLength : ℕ} (r : GeneratorRegs)
    (X : Unit → List (AxiPkg VertexDescriptorOrdered)) (Y : List CmdSend)
    (h : cmdIssue maxLength r X Y) :
    (cmdGeneratorKernel maxLength).Obeys (cmdIssue maxLength) X Y
      ((cmdGeneratorKernel maxLength).op r) := by
  cases r with
  | fetch dynamicBurstId =>
      obtain ⟨fuel, cmds, hcmds, rfl⟩ := h
      intro pkg rest hX
      rw [hX, cmdGenerator] at hcmds
      split at hcmds
      · cases hcmds
      · rename_i first l' hfirst
        obtain ⟨cmds', hrest, rfl⟩ := Option.map_eq_some_iff.mp hcmds
        have hrest' : cmdGenerator maxLength fuel (Function.update X () rest ()) l'.dynamicBurstId =
            some cmds' := by
          rw [Function.update_self]
          exact hrest
        exact cmdIssue_test hfirst hrest'
  | loop pkg l =>
      obtain ⟨hne, fuel, fuel', first, l', cmds, hfirst, hcmds, rfl⟩ := h
      cases fuel with
      | zero =>
          rw [decompose, if_neg hne] at hfirst
          cases hfirst
      | succ fuel =>
          rw [decompose, if_neg hne] at hfirst
          obtain ⟨⟨rest, l''⟩, hrest, heq⟩ := Option.map_eq_some_iff.mp hfirst
          cases heq
          exact ⟨rest ++ cmds.flatten, rfl, cmdIssue_test hrest hcmds⟩

/-- What `cmd_generator` has sent are the first commands of its descriptors. -/
theorem cmdGeneratorKernel_path {maxLength fuel : ℕ} {r : GeneratorRegs}
    {R : Unit → List (AxiPkg VertexDescriptorOrdered)} {S : CmdOut → List (AxiPkg BurstCmd)}
    (hp : (cmdGeneratorKernel maxLength).Path (cmdGeneratorKernel maxLength).start r R S)
    {pkgs : List (AxiPkg VertexDescriptorOrdered)} (hR : R () <+: pkgs)
    {cmds : List (List CmdSend)} (hcmds : cmdGenerator maxLength fuel pkgs 0 = some cmds) :
    ∃ cs : List CmdSend, cs <+: cmds.flatten ∧ ∀ o, S o = sentTo o cs := by
  have hstart : cmdIssue maxLength (cmdGeneratorKernel maxLength).start (fun _ => pkgs)
      cmds.flatten := ⟨fuel, cmds, hcmds, rfl⟩
  obtain ⟨X, Y, cs, -, hY, hS, -⟩ := hp.obeys cmdIssue_obeys hstart fun _ => hR
  exact ⟨cs, ⟨Y, hY.symm⟩, hS⟩

/-- Between two descriptors `cmd_generator` has sent all commands of those it has received. -/
theorem cmdGeneratorKernel_fetch {maxLength fuel : ℕ} {dynamicBurstId : BitVec 16}
    {R : Unit → List (AxiPkg VertexDescriptorOrdered)} {S : CmdOut → List (AxiPkg BurstCmd)}
    (hp : (cmdGeneratorKernel maxLength).Path (cmdGeneratorKernel maxLength).start
      (.fetch dynamicBurstId) R S) {cmds : List (List CmdSend)}
    (hcmds : cmdGenerator maxLength fuel (R ()) 0 = some cmds) :
    ∀ o, S o = sentTo o cmds.flatten := by
  have hstart : cmdIssue maxLength (cmdGeneratorKernel maxLength).start R cmds.flatten :=
    ⟨fuel, cmds, hcmds, rfl⟩
  obtain ⟨X, Y, cs, hX, hY, hS, fuel', rest, hrest, hnone⟩ :=
    hp.obeys cmdIssue_obeys hstart fun _ => List.prefix_rfl
  have hnil : X () = [] := List.append_right_eq_self.mp (hX ()).symm
  rw [hnil] at hrest
  cases hrest
  rw [hnone, List.flatten_nil, List.append_nil] at hY
  exact hY ▸ hS

/-- The commands of the first descriptors do not depend on those that follow. -/
theorem cmdGenerator_append {maxLength fuel : ℕ} {pkgs more : List (AxiPkg VertexDescriptorOrdered)}
    {dynamicBurstId : BitVec 16} {all : List (List CmdSend)}
    (h : cmdGenerator maxLength fuel (pkgs ++ more) dynamicBurstId = some all) :
    ∃ cmds, cmdGenerator maxLength fuel pkgs dynamicBurstId = some cmds ∧ cmds <+: all := by
  induction pkgs generalizing all dynamicBurstId with
  | nil => exact ⟨[], rfl, List.nil_prefix⟩
  | cons pkg pkgs ih =>
      rw [List.cons_append, cmdGenerator] at h
      split at h
      · cases h
      · rename_i first l hfirst
        obtain ⟨rest, hrest, rfl⟩ := Option.map_eq_some_iff.mp h
        obtain ⟨cmds, hcmds, hpre⟩ := ih hrest
        refine ⟨first :: cmds, ?_, List.cons_prefix_cons.mpr ⟨rfl, hpre⟩⟩
        rw [cmdGenerator, hfirst]
        simp only [hcmds, Option.map_some]

/-- The commands of `cmd_generator` in order; none, if one of its loops does not stop. -/
def commands (pkgs : List (AxiPkg VertexDescriptorOrdered)) : List CmdSend :=
  ((cmdGenerator dynamicBurstMaxLength (2 ^ 32) pkgs 0).getD []).flatten

/-- The commands that both command streams carry are as many as were sent. -/
theorem length_sentTo (cs : List CmdSend) :
    (sentTo .burst32Cmd cs).length + (sentTo .burst1Cmd cs).length = cs.length := by
  induction cs with
  | nil => rfl
  | cons c cs ih =>
      obtain ⟨o, pkg⟩ := c
      cases o
      · rw [sentTo_self, sentTo_of_ne (by decide), List.length_cons, List.length_cons]
        omega
      · rw [sentTo_self, sentTo_of_ne (by decide), List.length_cons, List.length_cons]
        omega

/-! ## Descriptors whose loops stop -/

/-- A descriptor has no lines, or its loop stops and it does not reach the last line of the address
space. -/
def Fits (vd : VertexDescriptor) : Prop :=
  vd.size = 0 ∨ InRange ⟨vd.start, vd.size, 0, 0, 0⟩ ∧ Stops ⟨vd.start, vd.size, 0, 0, 0⟩

theorem Fits.ordered {d : Dispatch} (h : Fits d.pkg.data) (hempty : d.isEmpty = false) :
    InRange d.orderedPkg.data ∧ Stops d.orderedPkg.data := by
  rcases h with hsize | ⟨hrange, hstops⟩
  · rw [Dispatch.isEmpty, decide_eq_false_iff_not] at hempty
    exact absurd hsize hempty
  · exact ⟨⟨hrange.size, hrange.end_⟩, hstops⟩

/-- The loop of a descriptor that stops has something to do. -/
theorem Stops.ends {vd : VertexDescriptorOrdered} (h : Stops vd) (hrange : InRange vd) :
    Ends dynamicBurstMaxLength vd := by
  have hend := hrange.toNat_endAddr
  have hstart : vd.startAddr.toNat = vd.start.toNat / 16 * 16 := toNat_startAddr
  have hsize := hrange.size
  have hlt := vd.endAddr.isLt
  refine ⟨fun heq => ?_, h.imp_right fun hdvd => ?_⟩
  · have hnat := congrArg BitVec.toNat heq
    omega
  · have hsub : (vd.endAddr - vd.startAddr).toNat = vd.endAddr.toNat - vd.startAddr.toNat := by
      rw [BitVec.toNat_sub]
      omega
    rw [hsub]
    exact hdvd

/-- The stop of the dynamic processes ends too. -/
theorem stopOrderedPkg_ends : Ends dynamicBurstMaxLength (stopOrderedPkg dynamicBurstMaxLength).data :=
  ⟨by decide, .inl (by decide)⟩

/-- The descriptors of `cmd_generator` have lines, or stop the processes. -/
theorem mem_dispatched {maxLength : ℕ} {ds : List Dispatch} :
    ∀ pkg ∈ dispatched maxLength ds .dynamicBurstVd,
      (∃ d ∈ ds, d.isEmpty = false ∧ pkg = d.orderedPkg) ∨ pkg = stopOrderedPkg maxLength := by
  intro pkg hpkg
  obtain ⟨d, hd, hmem⟩ := List.mem_flatMap.mp hpkg
  rcases List.mem_append.mp hmem with hsend | hstop
  · simp only [Dispatch.sends] at hsend
    split at hsend
    · rename_i htest
      rw [Bool.and_eq_true, Bool.not_eq_true'] at htest
      exact .inl ⟨d, hd, htest.1, List.mem_singleton.mp hsend⟩
    · cases hsend
  · simp only [Dispatch.stops] at hstop
    split at hstop
    · exact .inr (List.mem_singleton.mp hstop)
    · cases hstop

/-- All loops for descriptors that fit stop. -/
theorem exists_commands {ds : List Dispatch} (hfits : ∀ d ∈ ds, Fits d.pkg.data) :
    ∃ cmds, cmdGenerator dynamicBurstMaxLength (2 ^ 32)
      (dispatched dynamicBurstMaxLength ds .dynamicBurstVd) 0 = some cmds := by
  refine cmdGenerator_ends (by decide) (fun pkg hpkg => ?_) 0
  rcases mem_dispatched pkg hpkg with ⟨d, hd, hempty, rfl⟩ | rfl
  · obtain ⟨hrange, hstops⟩ := (hfits d hd).ordered hempty
    exact hstops.ends hrange
  · exact stopOrderedPkg_ends

end RidgeWalker.Burst

namespace RidgeWalker.Burst.Reorder

open Bits Dataflow Network Memory Cache Wrs

/-! ## The network -/

/-- The command streams. -/
inductive CmdStream where
  | burst1
  | burst32
  | single
deriving DecidableEq

/-- The streams of lines. -/
inductive LineStream where
  | burst1
  | burst32
  | single
  | intra
  | inter
deriving DecidableEq

/-- The streams of every sort. -/
abbrev ReorderStream : DySort → Type
  | .burst .id => IdStream
  | .burst .descriptor => Unit
  | .burst .state => Unit
  | .burst .next => Unit
  | .burst .cmd => CmdStream
  | .burst .ordered => Unit
  | .burst (.step _) => Empty
  | .weight => LineStream
  | .sync => LineStream
  | .done => CmdStream

instance : (s : DySort) → DecidableEq (ReorderStream s)
  | .burst .id => inferInstanceAs (DecidableEq IdStream)
  | .burst .descriptor => inferInstanceAs (DecidableEq Unit)
  | .burst .state => inferInstanceAs (DecidableEq Unit)
  | .burst .next => inferInstanceAs (DecidableEq Unit)
  | .burst .cmd => inferInstanceAs (DecidableEq CmdStream)
  | .burst .ordered => inferInstanceAs (DecidableEq Unit)
  | .burst (.step _) => inferInstanceAs (DecidableEq Empty)
  | .weight => inferInstanceAs (DecidableEq LineStream)
  | .sync => inferInstanceAs (DecidableEq LineStream)
  | .done => inferInstanceAs (DecidableEq CmdStream)

abbrev syncId : Chan ReorderStream := ⟨.burst .id, IdStream.syncId⟩

abbrev syncBurstId : Chan ReorderStream := ⟨.burst .id, IdStream.syncBurstId⟩

/-- The descriptors that `vd_scheduler` receives. -/
abbrev descriptors : Chan ReorderStream := ⟨.burst .descriptor, ()⟩

/-- The states that `vd_scheduler` receives. -/
abbrev states : Chan ReorderStream := ⟨.burst .state, ()⟩

/-- The answers to empty descriptors. -/
abbrev update : Chan ReorderStream := ⟨.burst .next, ()⟩

abbrev dynamicBurstVd : Chan ReorderStream := ⟨.burst .ordered, ()⟩

abbrev cmd (c : CmdStream) : Chan ReorderStream := ⟨.burst .cmd, c⟩

abbrev sync (c : LineStream) : Chan ReorderStream := ⟨.sync, c⟩

abbrev weight (c : LineStream) : Chan ReorderStream := ⟨.weight, c⟩

abbrev done (c : CmdStream) : Chan ReorderStream := ⟨.done, c⟩

/-- The lines that a burst process sends. -/
def CmdStream.lines : CmdStream → LineStream
  | .burst1 => .burst1
  | .burst32 => .burst32
  | .single => .single

/-- The command stream of a port of `cmd_generator`. -/
def cmdStream : CmdOut → CmdStream
  | .burst1Cmd => .burst1
  | .burst32Cmd => .burst32

/-- The lines that `intra_merge` receives on a side. -/
def intraSide (c : Fin 2) : LineStream := if c = 0 then .burst1 else .burst32

/-- The lines that `inter_merge` receives on a side. -/
def interSide (c : Fin 2) : LineStream := if c = 0 then .single else .intra

/-- The kernels from the descriptors to their lines. -/
inductive ReorderProc where
  | syncIdGen
  | syncBurstGen
  | vdScheduler
  | cmdGenerator
  | unit (c : CmdStream)
  | intraMerge
  | interMerge
deriving DecidableEq

instance : Fintype ReorderProc :=
  ⟨{.syncIdGen, .syncBurstGen, .vdScheduler, .cmdGenerator, .unit .burst1, .unit .burst32,
      .unit .single, .intraMerge, .interMerge},
    fun x => by
      cases x with
      | unit c => cases c <;> decide
      | _ => decide⟩

/-- `sync_id_gen_instance` and `sync_burst_gen` in `sync_id_gen`. -/
def reorderIds (output : IdStream) : Call ReorderStream DyWord where
  In := Empty
  Out := Unit
  src i := i.elim
  dst _ := ⟨.burst .id, output⟩
  kernel := syncIdGenKernel _

/-- `vd_scheduler`. -/
def reorderScheduler : Call ReorderStream DyWord where
  In := SchedulerIn
  Out := SchedulerOut
  src i := ⟨.burst i.sort, match i with
    | .syncId => IdStream.syncId
    | .syncBurstId => IdStream.syncBurstId
    | .input => ()
    | .stateIn => ()⟩
  dst o := ⟨.burst o.sort, match o with
    | .dynamicBurstVd => ()
    | .update => ()
    | .singleBurst => CmdStream.single⟩
  kernel := vdSchedulerKernel dynamicBurstMaxLength

/-- `cmd_generator`. -/
def reorderGenerator : Call ReorderStream DyWord where
  In := Unit
  Out := CmdOut
  src _ := dynamicBurstVd
  dst o := cmd (cmdStream o)
  kernel := cmdGeneratorKernel dynamicBurstMaxLength

/-- What a burst process does: `dynamic_burst_1`, `dynamic_burst_32` or `single_burst`. -/
def CmdStream.process (mem : ℕ → BitVec 32) :
    CmdStream → Emitter (AxiPkg BurstCmd) fun o : UnitOut => DyWord o.sort
  | .burst1 => dynamicBurst1 mem
  | .burst32 => dynamicBurst32 dynamicBurstMaxLength mem
  | .single => singleBurstProcess mem

/-- The lines that a burst process sends for a command. -/
def CmdStream.cmdLines (mem : ℕ → BitVec 32) : CmdStream → AxiPkg BurstCmd → List LinePkgs
  | .burst1 => unitLines mem (BurstCmd.dynamicSync · 1) 1
  | .burst32 => unitLines mem (BurstCmd.dynamicSync · dynamicBurstMaxLength) dynamicBurstMaxLength
  | .single => unitLines mem BurstCmd.singleSync 1

/-- The lines that a burst process sends for a sequence of commands. -/
def CmdStream.allLines (mem : ℕ → BitVec 32) (c : CmdStream) (cmds : List (AxiPkg BurstCmd)) :
    List LinePkgs :=
  (cmds.filter fun pkg => !pkg.data.stops).flatMap (c.cmdLines mem)

/-- What a burst process sends. -/
theorem CmdStream.process_sent (mem : ℕ → BitVec 32) (c : CmdStream)
    (cmds : List (AxiPkg BurstCmd)) :
    sentTo UnitOut.burstSync ((c.process mem).answers (c.process mem).start cmds) =
        (c.allLines mem cmds).map Prod.fst ∧
      sentTo UnitOut.weightOutput ((c.process mem).answers (c.process mem).start cmds) =
        (c.allLines mem cmds).map Prod.snd := by
  cases c
  · exact burstProcess_sent _ _ cmds
  · exact burstProcess_sent _ _ cmds
  · exact burstProcess_sent _ _ cmds

/-- A burst process. -/
def reorderUnit (mem : ℕ → BitVec 32) (c : CmdStream) : Call ReorderStream DyWord where
  In := Unit
  Out := UnitOut
  src _ := cmd c
  dst o := ⟨o.sort, match o with
    | .weightOutput => c.lines
    | .burstSync => c.lines
    | .done => c⟩
  kernel := emitterKernel (c.process mem)

/-- A merger. -/
def reorderMerge (side : Fin 2 → LineStream) (output : LineStream)
    (kernel : Kernel (fun i : LineIn => DyWord i.sort) (fun o : LineOut => DyWord o.sort)) :
    Call ReorderStream DyWord where
  In := LineIn
  Out := LineOut
  src i := ⟨i.sort, match i with
    | .sync c => side c
    | .weight c => side c⟩
  dst o := ⟨o.sort, match o with
    | .syncOut => output
    | .weightOut => output⟩
  kernel := kernel

/-- The kernels from the descriptors to their lines. -/
def reorderNet (mem : ℕ → BitVec 32) (depth : Chan ReorderStream → ℕ) :
    Network ReorderProc ReorderStream DyWord where
  node
    | .syncIdGen => reorderIds .syncId
    | .syncBurstGen => reorderIds .syncBurstId
    | .vdScheduler => reorderScheduler
    | .cmdGenerator => reorderGenerator
    | .unit c => reorderUnit mem c
    | .intraMerge => reorderMerge intraSide .intra intraMergeKernel
    | .interMerge => reorderMerge interSide .inter interMergeKernel
  depth := depth

variable {mem : ℕ → BitVec 32} {depth : Chan ReorderStream → ℕ}

theorem reorderNet_pointToPoint : (reorderNet mem depth).PointToPoint := by
  constructor
  · rintro ⟨p, i⟩ ⟨q, j⟩ h
    cases p <;> cases q
    case intraMerge.intraMerge =>
      rcases i with c | c <;> rcases j with d | d <;> fin_cases c <;> fin_cases d <;>
        first | rfl | cases h
    case interMerge.interMerge =>
      rcases i with c | c <;> rcases j with d | d <;> fin_cases c <;> fin_cases d <;>
        first | rfl | cases h
    case intraMerge.interMerge =>
      rcases i with c | c <;> rcases j with d | d <;> fin_cases c <;> fin_cases d <;> cases h
    case interMerge.intraMerge =>
      rcases i with c | c <;> rcases j with d | d <;> fin_cases c <;> fin_cases d <;> cases h
    all_goals cases i <;> cases j <;> cases h <;> rfl
  · rintro ⟨p, i⟩ ⟨q, j⟩ h
    cases p <;> cases q
    case unit.unit c d => cases c <;> cases d <;> cases i <;> cases j <;> cases h <;> rfl
    case unit.intraMerge c => cases c <;> cases i <;> cases j <;> cases h
    case unit.interMerge c => cases c <;> cases i <;> cases j <;> cases h
    case intraMerge.unit c => cases c <;> cases i <;> cases j <;> cases h
    case interMerge.unit c => cases c <;> cases i <;> cases j <;> cases h
    case cmdGenerator.vdScheduler => cases i <;> cases j <;> cases h
    case vdScheduler.cmdGenerator => cases i <;> cases j <;> cases h
    all_goals cases i <;> cases j <;> cases h <;> rfl

/-! ## What has been planned -/

section Runs

variable {s s' : (reorderNet mem depth).State} {l : (reorderNet mem depth).Label}
  {tr : List (reorderNet mem depth).Label}

/-- The descriptors that `vd_scheduler` has received with their states. -/
def dispatching (s : (reorderNet mem depth).State) : List Dispatch :=
  dispatches 0 0 (s.taken descriptors) (s.taken states)

/-- The commands of these descriptors. -/
def planned (s : (reorderNet mem depth).State) : List CmdSend :=
  commands (dispatched dynamicBurstMaxLength (dispatching s) .dynamicBurstVd)

/-- The commands that `cmd_generator` has sent. -/
def issued (s : (reorderNet mem depth).State) : List CmdSend :=
  (planned s).take ((s.written (cmd .burst32)).length + (s.written (cmd .burst1)).length)

/-- The lines of these commands. -/
def cmdPlan (s : (reorderNet mem depth).State) : List (Tag × LinePkgs) :=
  numbered 0 (cmdGroups mem (issued s))

/-- The lines of the descriptors. -/
def linePlan (s : (reorderNet mem depth).State) : List (Tag × SentLine) :=
  numbered 0 (descriptorGroups mem (dispatching s))

/-- The surroundings only send descriptors that fit, fewer than `2^15` descriptors with lines are
outstanding, and fewer than `2^15` commands are. -/
structure Bounded (s : (reorderNet mem depth).State) (l : (reorderNet mem depth).Label) : Prop where
  fits : ∀ pkg, l = .put descriptors pkg → Fits pkg.data
  descriptors : (asking (dispatching s)).length <
    (s.written (sync .inter)).countP burstEnds + 2 ^ 15
  commands : (working (issued s)).length < (s.written (sync .intra)).countP dynamicEnds + 2 ^ 15

/-- All descriptors fit. -/
theorem fits_written (hr : (reorderNet mem depth).GuardedRun Bounded (reorderNet mem depth).init
    tr s) : ∀ pkg ∈ s.written descriptors, Fits pkg.data := by
  have hunwritten : ∀ p o, ((reorderNet mem depth).node p).dst o ≠ descriptors := by
    intro p o h
    cases p <;> cases o <;> cases h
  induction hr with
  | nil => exact fun pkg hpkg => absurd hpkg List.not_mem_nil
  | @snoc tr s l s' hr hok hs ih =>
      rcases hs.written_fed hunwritten with hsame | ⟨pkg, rfl, hput⟩
      · rw [hsame]
        exact ih
      · rw [hput]
        intro x hx
        rcases List.mem_append.mp hx with hx | hx
        · exact ih x hx
        · rw [List.mem_singleton.mp hx]
          exact hok.fits pkg rfl

theorem fits_dispatching (hr : (reorderNet mem depth).GuardedRun Bounded
    (reorderNet mem depth).init tr s) : ∀ d ∈ dispatching s, Fits d.pkg.data := by
  intro d hd
  obtain ⟨hpkg, -⟩ := mem_dispatches d hd
  exact fits_written hr d.pkg ((s.taken_isPrefix descriptors).subset hpkg)

theorem dispatching_mono (hs : (reorderNet mem depth).Step s l s') :
    dispatching s <+: dispatching s' :=
  dispatches_isPrefix 0 0 (hs.taken_mono _) (hs.taken_mono _)

theorem linePlan_mono (hs : (reorderNet mem depth).Step s l s') : linePlan s <+: linePlan s' :=
  numbered_isPrefix 0 ((asking_isPrefix (dispatching_mono hs)).map _)

/-! ## What `vd_scheduler` and `cmd_generator` have sent -/

/-- The ids of a generator are the numbers in order. -/
theorem ids_written (hs : (reorderNet mem depth).Reachable s) (c : IdStream) :
    s.written ⟨.burst .id, c⟩ =
      (List.range (s.written ⟨.burst .id, c⟩).length).map syncIds.num := by
  cases c
  · exact syncIdGenKernel_path (hs.path reorderNet_pointToPoint .syncIdGen)
  · exact syncIdGenKernel_path (hs.path reorderNet_pointToPoint .syncBurstGen)

/-- Ids that were read are the numbers in order. -/
theorem numbers_of_isPrefix (hs : (reorderNet mem depth).Reachable s) {c : IdStream}
    {ids : List (BitVec 16)} (h : ids <+: s.taken ⟨.burst .id, c⟩) :
    ids = (List.range' 0 ids.length).map syncIds.num := by
  have hwritten := h.trans (s.taken_isPrefix _)
  rw [ids_written hs c, List.range_eq_range'] at hwritten
  exact eq_numbers hwritten

/-- `vd_scheduler` sends what the descriptors call for. -/
theorem scheduler_written (hs : (reorderNet mem depth).Reachable s) (o : SchedulerOut) :
    s.written (reorderScheduler.dst o) <+: dispatched dynamicBurstMaxLength (dispatching s) o := by
  obtain ⟨rounds, hreceived, hsent, -, -⟩ :=
    (vdSchedulerRounds dynamicBurstMaxLength).fires (vdSchedulerRounds_sound _)
      (hs.path reorderNet_pointToPoint .vdScheduler)
  have hids : rounds.map Dispatch.id =
      (List.range' 0 (rounds.map Dispatch.id).length).map syncIds.num :=
    numbers_of_isPrefix hs (hreceived .syncId)
  rw [List.length_map] at hids
  have hbursts : burstIds rounds = (List.range' 0 (burstIds rounds).length).map syncIds.num :=
    numbers_of_isPrefix hs (hreceived .syncBurstId)
  refine (hsent o).trans ?_
  change dispatched dynamicBurstMaxLength rounds o <+: _
  rw [dispatched_eq hids hbursts]
  exact (dispatches_isPrefix 0 0 (hreceived .input) (hreceived .stateIn)).flatMap _

/-- All loops of `cmd_generator` stop. -/
theorem exists_planned (hr : (reorderNet mem depth).GuardedRun Bounded
    (reorderNet mem depth).init tr s) :
    ∃ cmds, cmdGenerator dynamicBurstMaxLength (2 ^ 32)
        (dispatched dynamicBurstMaxLength (dispatching s) .dynamicBurstVd) 0 = some cmds ∧
      planned s = cmds.flatten := by
  obtain ⟨cmds, hcmds⟩ := exists_commands (fits_dispatching hr)
  exact ⟨cmds, hcmds, by rw [planned, commands, hcmds]; rfl⟩

/-- The commands sent are the first of those for the descriptors sent to `cmd_generator`. -/
theorem issued_isPrefix (hr : (reorderNet mem depth).GuardedRun Bounded
    (reorderNet mem depth).init tr s) : ∃ cmds,
      cmdGenerator dynamicBurstMaxLength (2 ^ 32) (s.written dynamicBurstVd) 0 = some cmds ∧
        issued s <+: cmds.flatten ∧ ∀ o, s.written (cmd (cmdStream o)) = sentTo o (issued s) := by
  have hs : (reorderNet mem depth).Reachable s := ⟨tr, hr.run⟩
  obtain ⟨all, hall, hplanned⟩ := exists_planned hr
  obtain ⟨more, hmore⟩ : s.written dynamicBurstVd <+:
      dispatched dynamicBurstMaxLength (dispatching s) .dynamicBurstVd :=
    scheduler_written hs .dynamicBurstVd
  rw [← hmore] at hall
  obtain ⟨cmds, hcmds, rest, rfl⟩ := cmdGenerator_append hall
  have htaken : s.taken dynamicBurstVd <+: s.written dynamicBurstVd := s.taken_isPrefix _
  obtain ⟨cs, hpre, hsent⟩ := cmdGeneratorKernel_path
    (hs.path reorderNet_pointToPoint .cmdGenerator) htaken hcmds
  have hwritten : ∀ o, s.written (cmd (cmdStream o)) = sentTo o cs := hsent
  have hlength : (s.written (cmd .burst32)).length + (s.written (cmd .burst1)).length =
      cs.length := by
    rw [← length_sentTo cs, ← hwritten .burst32Cmd, ← hwritten .burst1Cmd]
    rfl
  have hissued : issued s = cs := by
    obtain ⟨t, ht⟩ := hpre
    rw [issued, hlength, hplanned, List.flatten_append, ← ht, List.append_assoc, List.take_left]
  rw [hissued]
  exact ⟨cmds, hcmds, hpre, hwritten⟩

/-- `cmd_generator` has sent the commands of the descriptors in order. -/
theorem issued_sent (hr : (reorderNet mem depth).GuardedRun Bounded
    (reorderNet mem depth).init tr s) (o : CmdOut) :
    s.written (cmd (cmdStream o)) = sentTo o (issued s) := by
  obtain ⟨-, -, -, hsent⟩ := issued_isPrefix hr
  exact hsent o

/-- The commands planned before stay planned. -/
theorem planned_mono (hr : (reorderNet mem depth).GuardedRun Bounded
    (reorderNet mem depth).init tr s) (hok : Bounded s l)
    (hs : (reorderNet mem depth).Step s l s') : planned s <+: planned s' := by
  obtain ⟨cmds, hcmds, hplanned⟩ := exists_planned hr
  obtain ⟨cmds', hcmds', hplanned'⟩ := exists_planned (hr.snoc hok hs)
  obtain ⟨more, hmore⟩ : dispatched dynamicBurstMaxLength (dispatching s) .dynamicBurstVd <+:
      dispatched dynamicBurstMaxLength (dispatching s') .dynamicBurstVd :=
    (dispatching_mono hs).flatMap _
  rw [← hmore] at hcmds'
  obtain ⟨first, hfirst, hpre⟩ := cmdGenerator_append hcmds'
  rw [hcmds] at hfirst
  cases hfirst
  obtain ⟨rest, hrest⟩ := hpre
  rw [hplanned, hplanned', ← hrest, List.flatten_append]
  exact List.prefix_append _ _

/-- The commands sent before stay sent. -/
theorem issued_mono (hr : (reorderNet mem depth).GuardedRun Bounded
    (reorderNet mem depth).init tr s) (hok : Bounded s l)
    (hs : (reorderNet mem depth).Step s l s') : issued s <+: issued s' := by
  obtain ⟨more, hmore⟩ := planned_mono hr hok hs
  have h32 := (hs.written_mono (cmd .burst32)).length_le
  have h1 := (hs.written_mono (cmd .burst1)).length_le
  rw [issued, issued, ← hmore]
  exact (List.take_prefix_take_left (by omega)).trans ((List.prefix_append _ _).take _)

theorem cmdPlan_mono (hr : (reorderNet mem depth).GuardedRun Bounded
    (reorderNet mem depth).init tr s) (hok : Bounded s l)
    (hs : (reorderNet mem depth).Step s l s') : cmdPlan s <+: cmdPlan s' :=
  numbered_isPrefix 0 (((issued_mono hr hok hs).filter _).map _)

/-! ## Lanes -/

/-- The lines of a burst process belong to the commands it was sent. -/
theorem unit_written (hs : (reorderNet mem depth).Reachable s) (c : CmdStream)
    {cmds : List (AxiPkg BurstCmd)} (hcmds : s.written (cmd c) <+: cmds) :
    s.written (sync c.lines) <+: (c.allLines mem cmds).map Prod.fst ∧
      s.written (weight c.lines) <+: (c.allLines mem cmds).map Prod.snd := by
  have hpath := emitter_path (c.process mem) (hs.path reorderNet_pointToPoint (.unit c))
  obtain ⟨hsync, hweight⟩ := c.process_sent mem (s.taken (cmd c))
  have hlines : c.allLines mem (s.taken (cmd c)) <+: c.allLines mem cmds :=
    (((s.taken_isPrefix (cmd c)).trans hcmds).filter _).flatMap _
  have hsyncs : s.written (sync c.lines) <+: (c.allLines mem (s.taken (cmd c))).map Prod.fst := by
    rw [← hsync]
    exact ⟨_, hpath .burstSync⟩
  have hweights : s.written (weight c.lines) <+:
      (c.allLines mem (s.taken (cmd c))).map Prod.snd := by
    rw [← hweight]
    exact ⟨_, hpath .weightOutput⟩
  exact ⟨hsyncs.trans (hlines.map _), hweights.trans (hlines.map _)⟩

/-- What has been read of them too. -/
theorem unit_taken (hs : (reorderNet mem depth).Reachable s) (c : CmdStream)
    {cmds : List (AxiPkg BurstCmd)} (hcmds : s.written (cmd c) <+: cmds) :
    s.taken (sync c.lines) <+: (c.allLines mem cmds).map Prod.fst ∧
      s.taken (weight c.lines) <+: (c.allLines mem cmds).map Prod.snd := by
  obtain ⟨hsync, hweight⟩ := unit_written hs c hcmds
  exact ⟨(s.taken_isPrefix _).trans hsync, (s.taken_isPrefix _).trans hweight⟩

/-- The lines that `intra_merge` has read of each side are those planned for it. -/
theorem intra_taken (hr : (reorderNet mem depth).GuardedRun Bounded
    (reorderNet mem depth).init tr s) (c : Fin 2) :
    s.taken (sync (intraSide c)) <+: (laneOf (cmdPlan s) c).map Prod.fst ∧
      s.taken (weight (intraSide c)) <+: (laneOf (cmdPlan s) c).map Prod.snd := by
  have hs : (reorderNet mem depth).Reachable s := ⟨tr, hr.run⟩
  rw [cmdPlan, laneOf_numbered]
  fin_cases c
  · have hlines := sentTo_lines mem .burst1Cmd (issued s)
    rw [← issued_sent hr] at hlines
    have htaken := unit_taken hs .burst1 (List.prefix_refl _)
    rw [show CmdStream.allLines mem .burst1 (s.written (cmd .burst1)) = _ from hlines] at htaken
    exact htaken
  · have hlines := sentTo_lines mem .burst32Cmd (issued s)
    rw [← issued_sent hr] at hlines
    have htaken := unit_taken hs .burst32 (List.prefix_refl _)
    rw [show CmdStream.allLines mem .burst32 (s.written (cmd .burst32)) = _ from hlines] at htaken
    exact htaken

/-- The commands that have lines are numbered in order. -/
theorem issued_numbers (hr : (reorderNet mem depth).GuardedRun Bounded
    (reorderNet mem depth).init tr s) :
    (working (issued s)).map (fun c => c.2.data.dynamicId) =
      (List.range (working (issued s)).length).map syncIds.num := by
  obtain ⟨cmds, hcmds, hplanned⟩ := exists_planned hr
  have hall := dynamicId_working hcmds
  rw [← hplanned, List.range_eq_range'] at hall
  have hpre : (working (issued s)).map (fun c => c.2.data.dynamicId) <+:
      (working (planned s)).map fun c => c.2.data.dynamicId :=
    ((List.take_prefix _ _).filter _).map _
  rw [hall] at hpre
  have hnumbers := eq_numbers hpre
  rwa [List.length_map, ← List.range_eq_range'] at hnumbers

/-- Every line of a command carries the number of the command. -/
theorem cmdPlan_labelled (hr : (reorderNet mem depth).GuardedRun Bounded
    (reorderNet mem depth).init tr s) : ∀ y ∈ cmdPlan s,
      y.1.group < (working (issued s)).length ∧
        dynamicKey y.2.1 = syncIds.num y.1.group ∧ dynamicEnds y.2.1 = y.1.ends := by
  have hcarry := fun i g (hg : (cmdGroups mem (issued s))[i]? = some g) =>
    cmdGroups_carry (issued_numbers hr) hg
  have hlabelled := numbered_labelled (k := 0) (G := cmdGroups mem (issued s)) fun i g hg => by
    rw [Nat.zero_add]
    exact hcarry i g hg
  rwa [Nat.zero_add, cmdGroups, List.length_map] at hlabelled

/-- The tokens that `intra_merge` reads carry the numbers of their commands. -/
theorem intra_carries (hr : (reorderNet mem depth).GuardedRun Bounded
    (reorderNet mem depth).init tr s) (c : Fin 2) :
    Carries syncIds dynamicKey dynamicEnds ((cmdPlan s).map Prod.fst) c
      (s.taken (sync (intraSide c))) := by
  refine carries_of_isPrefix (f := id) (g := Prod.fst)
    (fun y hy => (cmdPlan_labelled hr y hy).2) ?_
  rw [List.map_id]
  exact (intra_taken hr c).1

theorem cmdPlan_grouped : Grouped 0 ((cmdPlan s).map Prod.fst) := by
  refine numbered_grouped 0 fun g hg => ?_
  obtain ⟨c, -, rfl⟩ := List.mem_map.mp hg
  exact cmdLines_ne_nil mem c

/-- `intra_merge` keeps the lines in the order of the commands. -/
theorem intraMerging (hr : (reorderNet mem depth).GuardedRun Bounded
    (reorderNet mem depth).init tr s) :
    IntraMerging ((cmdPlan s).map Prod.fst) (s.regs .intraMerge)
      (fun i => s.taken (((reorderNet mem depth).node .intraMerge).src i))
      fun o => s.written (((reorderNet mem depth).node .intraMerge).dst o) := by
  refine hr.keeps reorderNet_pointToPoint (p := .intraMerge)
    (I := fun s (r : IntraRegs) R S => IntraMerging ((cmdPlan s).map Prod.fst) r R S) ?_ ?_ ?_
  · exact intraMerging_start
  · intro tr s l hr hok hI
    have hlabelled := cmdPlan_labelled hr
    refine intraMerging_keeps hI cmdPlan_grouped (intra_carries hr) (fun t ht => ?_) _
    obtain ⟨y, hy, rfl⟩ := List.mem_map.mp ht
    exact (hlabelled y hy).1.trans hok.commands
  · rintro tr s l s' hr hok hs r R S h
    exact h.grow ((cmdPlan_mono hr hok hs).map _)

/-- What leaves `intra_merge` are the lines of the commands, in order. -/
theorem intra_written (hr : (reorderNet mem depth).GuardedRun Bounded
    (reorderNet mem depth).init tr s) :
    s.written (sync .intra) <+: (cmdPlan s).map (fun y => y.2.1) ∧
      s.written (weight .intra) <+: (cmdPlan s).map fun y => y.2.2 :=
  (intraMerging hr).isPrefix (fun c => (intra_taken hr c).1) fun c => (intra_taken hr c).2

/-- The lines of the commands are those of the descriptors sent to `cmd_generator`. -/
theorem commands_lines (hr : (reorderNet mem depth).GuardedRun Bounded
    (reorderNet mem depth).init tr s) {pkgs : List (AxiPkg VertexDescriptorOrdered)}
    (hpkgs : pkgs <+: dispatched dynamicBurstMaxLength (dispatching s) .dynamicBurstVd)
    {cmds : List (List CmdSend)}
    (hcmds : cmdGenerator dynamicBurstMaxLength (2 ^ 32) pkgs 0 = some cmds) :
    ((cmdGroups mem cmds.flatten).flatMap Prod.snd).map sentLine =
      (pkgs.filter fun pkg => pkg.data.counts).flatMap (orderedLines · mem) := by
  refine cmdGroups_lines mem hcmds fun pkg hpkg hcounts => ?_
  rcases mem_dispatched pkg (hpkgs.subset hpkg) with ⟨d, hd, hempty, rfl⟩ | rfl
  · exact (fits_dispatching hr d hd).ordered hempty
  · exact absurd hcounts (by decide)

theorem length_cmdPlan :
    (cmdPlan s).length = ((cmdGroups mem (issued s)).flatMap Prod.snd).length := by
  rw [← map_snd_numbered 0, List.length_map]
  rfl

/-- The lines of the commands sent are the first of them. -/
theorem cmdPlan_lines (hr : (reorderNet mem depth).GuardedRun Bounded
    (reorderNet mem depth).init tr s) :
    ((cmdPlan s).map fun y => sentLine y.2) <+: laneOf (linePlan s) 1 := by
  obtain ⟨cmds, hcmds, hplanned⟩ := exists_planned hr
  have hids : ∀ d ∈ dispatching s, ∃ i, d.id = syncIds.num i := fun d hd => (mem_dispatches d hd).2
  have hlines := commands_lines hr (List.prefix_refl _) hcmds
  rw [dispatched_ordered hids, List.flatMap_map, ← hplanned] at hlines
  have hissued : cmdGroups mem (issued s) <+: cmdGroups mem (planned s) :=
    ((List.take_prefix _ _).filter _).map _
  have hsnd : (cmdPlan s).map (fun y => sentLine y.2) =
      ((cmdGroups mem (issued s)).flatMap Prod.snd).map sentLine := by
    rw [← map_snd_numbered 0, List.map_map]
    rfl
  rw [linePlan, laneOf_numbered, descriptorGroups_side, ← hlines, hsnd]
  exact (hissued.flatMap _).map _

/-- The lines of `single_burst` are those of the descriptors that fit into a line. -/
theorem single_lines (mem : ℕ → BitVec 32) {ds : List Dispatch} (hfits : ∀ d ∈ ds, Fits d.pkg.data)
    {cmds : List (AxiPkg BurstCmd)} (hcmds : cmds.filter (fun pkg => !pkg.data.stops) =
      ((asking ds).filter fun d => d.side = 0).map Dispatch.singleCmd) :
    (CmdStream.allLines mem .single cmds).map sentLine =
      laneOf (numbered 0 (descriptorGroups mem ds)) 0 := by
  rw [laneOf_numbered, descriptorGroups_side, CmdStream.allLines, hcmds, List.flatMap_map,
    List.map_flatMap]
  refine List.flatMap_congr fun d hd => ?_
  obtain ⟨hasking, hside⟩ := List.mem_filter.mp hd
  obtain ⟨hmem, hempty⟩ := List.mem_filter.mp hasking
  have haddr : d.startAddr = d.endAddr := by
    by_contra hne
    simp [Dispatch.side, hne] at hside
  exact singleCmd_lines haddr ((hfits d hmem).ordered (by simpa using hempty)).1

/-- What `single_burst` is to send belongs to the descriptors. -/
theorem dispatched_single_lines (hr : (reorderNet mem depth).GuardedRun Bounded
    (reorderNet mem depth).init tr s) :
    (CmdStream.allLines mem .single
        (dispatched dynamicBurstMaxLength (dispatching s) .singleBurst)).map sentLine =
      laneOf (linePlan s) 0 :=
  single_lines mem (fits_dispatching hr) (dispatched_single fun d hd => (mem_dispatches d hd).2)

/-- The lines that `inter_merge` has read of each side are those planned for it. -/
theorem inter_taken (hr : (reorderNet mem depth).GuardedRun Bounded
    (reorderNet mem depth).init tr s) (c : Fin 2) :
    (s.taken (sync (interSide c))).map lineToken <+: (laneOf (linePlan s) c).map Prod.fst ∧
      s.taken (weight (interSide c)) <+: (laneOf (linePlan s) c).map Prod.snd := by
  have hs : (reorderNet mem depth).Reachable s := ⟨tr, hr.run⟩
  fin_cases c
  · obtain ⟨hsync, hweight⟩ := unit_taken hs .single (scheduler_written hs .singleBurst)
    change _ <+: (laneOf (linePlan s) 0).map Prod.fst ∧ _ <+: (laneOf (linePlan s) 0).map Prod.snd
    rw [← dispatched_single_lines hr, List.map_map, List.map_map]
    have htokens := hsync.map lineToken
    rw [List.map_map] at htokens
    exact ⟨htokens, hweight⟩
  · obtain ⟨hsync, hweight⟩ := intra_written hr
    have hlines := cmdPlan_lines hr
    have htokens := hlines.map Prod.fst
    have hwords := hlines.map Prod.snd
    rw [List.map_map] at htokens hwords
    have htaken := ((s.taken_isPrefix (sync .intra)).trans hsync).map lineToken
    rw [List.map_map] at htaken
    exact ⟨htaken.trans htokens, (s.taken_isPrefix (weight .intra)).trans (hweight.trans hwords)⟩

/-- Every line of a descriptor carries the number of the descriptor. -/
theorem linePlan_labelled : ∀ y ∈ linePlan s,
    y.1.group < (asking (dispatching s)).length ∧
      y.2.1.burst = syncIds.num y.1.group ∧ y.2.1.ends = y.1.ends := by
  have hgroups : ∀ i g, (descriptorGroups mem (dispatching s))[i]? = some g → CarriesGroup
      (fun x : SentLine => x.1.burst) (fun x => x.1.ends) (syncIds.num (0 + i)) g.2 := by
    intro i g hg
    rw [Nat.zero_add]
    exact descriptorGroups_carry hg
  have hlabelled := numbered_labelled hgroups
  rwa [Nat.zero_add, descriptorGroups, List.length_map] at hlabelled

theorem linePlan_grouped (hr : (reorderNet mem depth).GuardedRun Bounded
    (reorderNet mem depth).init tr s) : Grouped 0 ((linePlan s).map Prod.fst) := by
  refine numbered_grouped 0 fun g hg => ?_
  obtain ⟨d, hd, rfl⟩ := List.mem_map.mp hg
  obtain ⟨hmem, hempty⟩ := List.mem_filter.mp hd
  have hsize := ((fits_dispatching hr d hmem).ordered (by simpa using hempty)).1.size
  have hcount : 0 < lineCount d.orderedPkg.data.start d.orderedPkg.data.size := by
    rw [lineCount]
    omega
  intro hnil
  rw [orderedLines, List.map_eq_nil_iff, List.range_eq_nil] at hnil
  omega

/-- The tokens that `inter_merge` reads carry the numbers of their descriptors. -/
theorem inter_carries (hr : (reorderNet mem depth).GuardedRun Bounded
    (reorderNet mem depth).init tr s) (c : Fin 2) :
    Carries syncIds burstKey burstEnds ((linePlan s).map Prod.fst) c
      (s.taken (sync (interSide c))) := by
  have hcarries : Carries syncIds (fun x => (lineToken x).burst) (fun x => (lineToken x).ends)
      ((linePlan s).map Prod.fst) c (s.taken (sync (interSide c))) :=
    carries_of_isPrefix (f := lineToken) (g := Prod.fst) (fun y hy => (linePlan_labelled y hy).2)
      (inter_taken hr c).1
  exact hcarries

/-- `inter_merge` keeps the lines in the order of the descriptors. -/
theorem interMerging (hr : (reorderNet mem depth).GuardedRun Bounded
    (reorderNet mem depth).init tr s) :
    InterMerging ((linePlan s).map Prod.fst) (s.regs .interMerge)
      (fun i => s.taken (((reorderNet mem depth).node .interMerge).src i))
      fun o => s.written (((reorderNet mem depth).node .interMerge).dst o) := by
  refine hr.keeps reorderNet_pointToPoint (p := .interMerge)
    (I := fun s (r : InterRegs) R S => InterMerging ((linePlan s).map Prod.fst) r R S) ?_ ?_ ?_
  · exact interMerging_start
  · intro tr s l hr hok hI
    refine interMerging_keeps hI (linePlan_grouped hr) (inter_carries hr) (fun t ht => ?_) _
    obtain ⟨y, hy, rfl⟩ := List.mem_map.mp ht
    exact (linePlan_labelled y hy).1.trans hok.descriptors
  · rintro tr s l s' hr hok hs r R S h
    exact h.grow ((linePlan_mono hs).map _)

end Runs

/-! ## The lines leave in order -/

/-- The lines of all descriptors, in order. -/
def descriptorLines (mem : ℕ → BitVec 32) (D : List (AxiPkg VertexDescriptor))
    (X : List (BitVec 32)) : List SentLine :=
  (asking (dispatches 0 0 D X)).flatMap fun d => orderedLines d.orderedPkg mem

/-- For every memory, every sequence of descriptors that fit and every interleaving and delay of the
three burst processes, as long as fewer than `2^15` descriptors and fewer than `2^15` commands are
outstanding: tokens and weights leave `inter_merge` line by line in the order of the descriptors. -/
theorem burst_reorder (mem : ℕ → BitVec 32) (depth : Chan ReorderStream → ℕ)
    {tr : List (reorderNet mem depth).Label} {s : (reorderNet mem depth).State}
    (hr : (reorderNet mem depth).GuardedRun Bounded (reorderNet mem depth).init tr s) :
    (s.written (sync .inter)).map lineToken <+:
        (descriptorLines mem (s.taken descriptors) (s.taken states)).map Prod.fst ∧
      s.written (weight .inter) <+:
        (descriptorLines mem (s.taken descriptors) (s.taken states)).map Prod.snd := by
  have hlines : (linePlan s).map Prod.snd =
      descriptorLines mem (s.taken descriptors) (s.taken states) := by
    rw [linePlan, map_snd_numbered, descriptorGroups, List.flatMap_map]
    rfl
  obtain ⟨hsync, hweight⟩ := (interMerging hr).isPrefix (fun c => (inter_taken hr c).1)
    fun c => (inter_taken hr c).2
  rw [← hlines, List.map_map, List.map_map]
  exact ⟨hsync, hweight⟩

/-- Memory whose k-th word is `k`. -/
def wordNumbers (k : ℕ) : BitVec 32 := .ofNat 32 k

/-- The network on that memory and on streams that hold four words. -/
abbrev smallReorder : Network ReorderProc ReorderStream DyWord := reorderNet wordNumbers fun _ => 4

/-- A descriptor of two lines and one of a line; the single line is fetched first. -/
def fetching : List smallReorder.Action :=
  [.put descriptors ⟨⟨8, 16⟩, false⟩, .put descriptors ⟨⟨40, 4⟩, false⟩, .put states 0,
    .put states 0] ++ List.replicate 2 (.fire .syncIdGen none) ++
      List.replicate 2 (.fire .syncBurstGen none) ++ List.replicate 10 (.fire .vdScheduler none) ++
        List.replicate 3 (.fire (.unit .single) none) ++ [.fire .interMerge none]

/-- The lines of the first descriptor follow. -/
def merging : List smallReorder.Action :=
  List.replicate 3 (.fire .cmdGenerator none) ++ List.replicate 6 (.fire (.unit .burst1) none) ++
    List.replicate 10 (.fire .intraMerge none) ++ List.replicate 14 (.fire .interMerge none)

/-- A descriptor far from the end of the address space. -/
def Small (vd : VertexDescriptor) : Prop :=
  vd.size ≠ 0 ∧ vd.start.toNat + vd.size.toNat < 2 ^ 16

theorem Small.fits {vd : VertexDescriptor} (h : Small vd) : Fits vd := by
  obtain ⟨hne, hlt⟩ := h
  have hsize : vd.size.toNat ≠ 0 := fun h0 => hne (BitVec.eq_of_toNat_eq h0)
  have hrange : InRange ⟨vd.start, vd.size, 0, 0, 0⟩ := ⟨by simp only; omega, by simp only; omega⟩
  have hend := hrange.toNat_endAddr
  simp only at hend
  refine .inr ⟨hrange, .inl ?_⟩
  rw [hend, show dynamicBurstMaxLength = 32 from rfl]
  omega

/-- The surroundings only send small descriptors. -/
def SmallPut : smallReorder.Label → Prop
  | .put ⟨.burst .descriptor, _⟩ pkg => Small pkg.data
  | _ => True

instance (l : smallReorder.Label) : Decidable (SmallPut l) :=
  match l with
  | .put ⟨.burst .descriptor, _⟩ _ => inferInstanceAs (Decidable (_ ∧ _))
  | .put ⟨.burst .id, _⟩ _ | .put ⟨.burst .state, _⟩ _ | .put ⟨.burst .next, _⟩ _
  | .put ⟨.burst .cmd, _⟩ _ | .put ⟨.burst .ordered, _⟩ _ | .put ⟨.burst (.step _), _⟩ _
  | .put ⟨.weight, _⟩ _ | .put ⟨.sync, _⟩ _ | .put ⟨.done, _⟩ _ | .fire _ _ _ | .take _ _ =>
      inferInstanceAs (Decidable True)

/-- Two descriptors and two commands are under way at most. -/
abbrev SmallBounded (s : smallReorder.State) (l : smallReorder.Label) : Prop :=
  SmallPut l ∧ (asking (dispatching s)).length < 3 ∧
    (s.written (cmd .burst32)).length + (s.written (cmd .burst1)).length < 3

theorem SmallBounded.bounded {s : smallReorder.State} {l : smallReorder.Label}
    (h : SmallBounded s l) : Bounded s l := by
  obtain ⟨hput, hdescriptors, hcommands⟩ := h
  have hissued : (working (issued s)).length ≤
      (s.written (cmd .burst32)).length + (s.written (cmd .burst1)).length :=
    (List.length_filter_le _ _).trans (List.length_take_le _ _)
  refine ⟨fun _ hl => ?_, by omega, by omega⟩
  subst hl
  exact hput.fits

/-- A line that is fetched first but belongs to the second descriptor leaves last. -/
theorem burst_reorder_late : ∃ s : smallReorder.State,
    (s.written (sync .inter)).map (fun x => x.data.addr) = [0, 16, 32] ∧
      (s.written (sync .inter)).map lineToken <+:
        (descriptorLines wordNumbers (s.taken descriptors) (s.taken states)).map Prod.fst ∧
      s.written (weight .inter) <+:
        (descriptorLines wordNumbers (s.taken descriptors) (s.taken states)).map Prod.snd := by
  obtain ⟨tr, s, hs⟩ : ∃ tr s, Network.execute SmallBounded (fetching ++ merging) []
      smallReorder.init = some (tr, s) := ⟨_, _, rfl⟩
  have hr : smallReorder.GuardedRun Bounded smallReorder.init tr s :=
    (Network.execute_run .nil hs).mono fun _ _ h => h.bounded
  obtain ⟨hsync, hweight⟩ := burst_reorder wordNumbers (fun _ => 4) hr
  refine ⟨s, ?_, hsync, hweight⟩
  cases hs
  decide +kernel

end RidgeWalker.Burst.Reorder
