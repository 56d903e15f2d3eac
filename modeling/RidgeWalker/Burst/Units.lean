import RidgeWalker.Burst.Commands

/-!
# Burst units

`vd_scheduler` and `cmd_generator` keep three burst processes busy: one for long bursts, one for
the single lines of long descriptors, and one for descriptors that fit into a line.  A process
returns when it receives a stop command.

Main results:

- Theorem `vdAhead_pursues`: `vd_scheduler` dispatches descriptors as planned.
- Theorem `cmdAhead_pursues`: `cmd_generator` decomposes them as planned, if every loop stops.
- Theorem `decompose_reaches`: when the loop for a descriptor stops, for every length of the long
  bursts.
-/

namespace RidgeWalker.Burst

open Bits Dataflow Memory Cache Wrs

/-! ## The burst processes -/

/-- `burst_sync_t`. -/
structure BurstSync where
  addr : BitVec 32
  id : BitVec 16
  burstId : BitVec 16
  dynamicId : BitVec 16
  state : BitVec 16
deriving DecidableEq

/-- The sorts of streams around the burst processes. -/
inductive DySort where
  | burst (s : BurstSort)
  | weight
  | sync
  | done
deriving DecidableEq

/-- The words of every sort; a process that returns is an event without data. -/
abbrev DyWord : DySort → Type
  | .burst s => BurstWord s
  | .weight => AxiPkg (Fin 16 → BitVec 32)
  | .sync => AxiPkg BurstSync
  | .done => Unit

/-- What a burst process writes, and that it returns. -/
inductive UnitOut where
  | weightOutput
  | burstSync
  | done
deriving DecidableEq

instance : Fintype UnitOut :=
  ⟨{.weightOutput, .burstSync, .done}, fun x => by cases x <;> decide⟩

/-- The kind of an output of a burst process. -/
abbrev UnitOut.sort : UnitOut → DySort
  | .weightOutput => .weight
  | .burstSync => .sync
  | .done => .done

/-- What a burst process writes. -/
abbrev UnitSend : Type := Send fun o : UnitOut => DyWord o.sort

namespace BurstCmd

variable (cmd : BurstCmd)

/-- `id & 0x8000`: the process returns. -/
def stops : Bool := cmd.id &&& 0x8000#16 ≠ 0

/-- Line `j` of a burst, from the words of the memory; the lanes outside the range of the command
are 0. -/
def maskedOut (mem : ℕ → BitVec 32) (j : ℕ) (k : Fin 16) : BitVec 32 :=
  if .ofNat 32 k + cmd.addr < cmd.start ∨ .ofNat 32 k + cmd.addr ≥ cmd.end_ then 0
  else mem ((cmd.addr.toNat / 16 + j) * 16 + k)

/-- The token for line `j` of a burst of `n` lines in `dynamic_burst_32` and `dynamic_burst_1`. -/
def dynamicSync (n j : ℕ) : BurstSync where
  addr := cmd.addr + .ofNat 32 (j * 16)
  id := cmd.id
  burstId := if j + 1 = n then cmd.burstId else cmd.burstId &&& 0x7fff#16
  dynamicId := if j + 1 = n then cmd.dynamicId ||| 0x8000#16 else cmd.dynamicId
  state := cmd.state

/-- The token in `single_burst`. -/
def singleSync (j : ℕ) : BurstSync where
  addr := cmd.addr + .ofNat 32 (j * 16)
  id := cmd.id
  burstId := cmd.burstId ||| 0x8000#16
  dynamicId := 0x8000#16
  state := cmd.state

end BurstCmd

/-- The writes for a command in a process with bursts of `n` lines. -/
def burstSends (mem : ℕ → BitVec 32) (sync : BurstCmd → ℕ → BurstSync) (n : ℕ)
    (pkg : AxiPkg BurstCmd) : List UnitSend :=
  if pkg.data.stops then [⟨.done, ()⟩]
  else (List.range n).flatMap fun j =>
    [⟨.weightOutput, ⟨pkg.data.maskedOut mem j, pkg.last⟩⟩,
      ⟨.burstSync, ⟨sync pkg.data j, pkg.last⟩⟩]

/-- A burst process; after it has returned the host starts it again.  The counters that end its
inner loop after some idle time have no effect on the streams. -/
def burstProcess (mem : ℕ → BitVec 32) (sync : BurstCmd → ℕ → BurstSync) (n : ℕ) :
    Emitter (AxiPkg BurstCmd) fun o : UnitOut => DyWord o.sort where
  σ := Unit
  start := ()
  answer _ pkg := ((), burstSends mem sync n pkg)

/-- `dynamic_burst_32`. -/
def dynamicBurst32 (maxLength : ℕ) (mem : ℕ → BitVec 32) :=
  burstProcess mem (BurstCmd.dynamicSync · maxLength) maxLength

/-- `dynamic_burst_1`. -/
def dynamicBurst1 (mem : ℕ → BitVec 32) := burstProcess mem (BurstCmd.dynamicSync · 1) 1

/-- `single_burst`. -/
def singleBurstProcess (mem : ℕ → BitVec 32) := burstProcess mem BurstCmd.singleSync 1

/-! ## `cmd_generator` -/

/-- Registers of `cmd_generator`. -/
inductive GeneratorRegs where
  | fetch (dynamicBurstId : BitVec 16)
  | loop (pkg : AxiPkg VertexDescriptorOrdered) (l : Loop)

/-- The test of `cmd_decomposition`. -/
def GeneratorRegs.test (pkg : AxiPkg VertexDescriptorOrdered) (l : Loop) : GeneratorRegs :=
  if l.currAddr = pkg.data.endAddr then .fetch l.dynamicBurstId else .loop pkg l

/-- The loop of `cmd_generator`. -/
def cmdGeneratorKernel (maxLength : ℕ) :
    Kernel (fun _ : Unit => AxiPkg VertexDescriptorOrdered) (fun _ : CmdOut => AxiPkg BurstCmd) where
  σ := GeneratorRegs
  Ω := Empty
  start := .fetch 0
  op
    | .fetch dynamicBurstId => .read () fun pkg => .test pkg ⟨pkg.data.startAddr, dynamicBurstId⟩
    | .loop pkg l =>
        let cmd := nextCmd maxLength pkg l
        .write cmd.1 cmd.2 (.test pkg (nextLoop maxLength pkg l))

/-- What `cmd_generator` has ahead, if every loop stops. -/
def cmdAhead (maxLength : ℕ) (r : GeneratorRegs)
    (X : Unit → List (AxiPkg VertexDescriptorOrdered)) (Y : CmdOut → List (AxiPkg BurstCmd)) :
    Prop :=
  match r with
  | .fetch dynamicBurstId => ∃ fuel cmds,
      cmdGenerator maxLength fuel (X ()) dynamicBurstId = some cmds ∧
        ∀ o, Y o = sentTo o cmds.flatten
  | .loop pkg l => l.currAddr ≠ pkg.data.endAddr ∧ ∃ fuel fuel' first l' cmds,
      decompose maxLength pkg fuel l = some (first, l') ∧
        cmdGenerator maxLength fuel' (X ()) l'.dynamicBurstId = some cmds ∧
          ∀ o, Y o = sentTo o (first ++ cmds.flatten)

/-- After the test of the loop. -/
theorem cmdAhead_test {maxLength fuel fuel' : ℕ} {pkg : AxiPkg VertexDescriptorOrdered} {l l' : Loop}
    {first : List CmdSend} {cmds : List (List CmdSend)}
    {X : Unit → List (AxiPkg VertexDescriptorOrdered)} {Y : CmdOut → List (AxiPkg BurstCmd)}
    (hfirst : decompose maxLength pkg fuel l = some (first, l'))
    (hcmds : cmdGenerator maxLength fuel' (X ()) l'.dynamicBurstId = some cmds)
    (hY : ∀ o, Y o = sentTo o (first ++ cmds.flatten)) :
    cmdAhead maxLength (.test pkg l) X Y := by
  unfold GeneratorRegs.test
  split
  · rename_i heq
    rw [decompose_done _ _ heq] at hfirst
    cases hfirst
    exact ⟨fuel', cmds, hcmds, hY⟩
  · rename_i hne
    exact ⟨hne, fuel, fuel', first, l', cmds, hfirst, hcmds, hY⟩

/-- `cmd_generator` decomposes the descriptors as planned. -/
theorem cmdAhead_pursues {maxLength : ℕ} (r : GeneratorRegs)
    (X : Unit → List (AxiPkg VertexDescriptorOrdered)) (Y : CmdOut → List (AxiPkg BurstCmd))
    (h : cmdAhead maxLength r X Y) :
    (cmdGeneratorKernel maxLength).Pursues (cmdAhead maxLength) X Y
      ((cmdGeneratorKernel maxLength).op r) := by
  cases r with
  | fetch dynamicBurstId =>
      obtain ⟨fuel, cmds, hcmds, hY⟩ := h
      intro pkg rest hX
      rw [hX, cmdGenerator] at hcmds
      split at hcmds
      · cases hcmds
      · rename_i first l' hfirst
        obtain ⟨cmds', hrest, rfl⟩ := Option.map_eq_some_iff.mp hcmds
        have hrest' : cmdGenerator maxLength fuel (Function.update X () rest ())
            l'.dynamicBurstId = some cmds' := by
          rw [Function.update_self]
          exact hrest
        exact cmdAhead_test hfirst hrest' hY
  | loop pkg l =>
      obtain ⟨hne, fuel, fuel', first, l', cmds, hfirst, hcmds, hY⟩ := h
      cases fuel with
      | zero =>
          rw [decompose, if_neg hne] at hfirst
          cases hfirst
      | succ fuel =>
          rw [decompose, if_neg hne] at hfirst
          obtain ⟨⟨rest, l''⟩, hrest, heq⟩ := Option.map_eq_some_iff.mp hfirst
          cases heq
          refine ⟨sentTo (nextCmd maxLength pkg l).1 (rest ++ cmds.flatten), ?_,
            cmdAhead_test hrest hcmds fun o => ?_⟩
          · rw [hY]
            exact sentTo_self _ _ _
          · by_cases ho : o = (nextCmd maxLength pkg l).1
            · subst ho
              rw [Function.update_self]
            · rw [Function.update_of_ne ho, hY]
              exact sentTo_of_ne (Ne.symm ho) _ _

/-! ## When a loop stops -/

/-- The distance to the end does not lead past it: there is a line, and the end leaves room for a
long burst or is a number of them away. -/
structure Reaches (maxLength : ℕ) (curr last : BitVec 32) : Prop where
  aligned : 16 ∣ (last - curr).toNat
  meets : last.toNat + maxLength * 16 ≤ 2 ^ 32 ∨ maxLength * 16 ∣ (last - curr).toNat

/-- The loop for a descriptor has something to do, and stops. -/
structure Ends (maxLength : ℕ) (vd : VertexDescriptorOrdered) : Prop where
  ne : vd.startAddr ≠ vd.endAddr
  meets : vd.endAddr.toNat + maxLength * 16 ≤ 2 ^ 32 ∨
    maxLength * 16 ∣ (vd.endAddr - vd.startAddr).toNat

theorem toNat_sub_add {last curr : BitVec 32} {n : ℕ} (hle : n * 16 ≤ (last - curr).toNat) :
    (last - (curr + .ofNat 32 (n * 16))).toNat = (last - curr).toNat - n * 16 := by
  have hlast := last.isLt
  have hcurr := curr.isLt
  rw [BitVec.toNat_sub] at hle
  rw [BitVec.toNat_sub, toNat_add_lines, BitVec.toNat_sub]
  omega

theorem toNat_sub_pos {last curr : BitVec 32} (hne : curr ≠ last) : 0 < (last - curr).toNat := by
  have hlast := last.isLt
  have hcurr := curr.isLt
  have hnat : curr.toNat ≠ last.toNat := fun heq => hne (BitVec.eq_of_toNat_eq heq)
  rw [BitVec.toNat_sub]
  omega

/-- A burst of a loop that reaches its end does not lead past it. -/
theorem Reaches.burstLength_le {maxLength : ℕ} {pkg : AxiPkg VertexDescriptorOrdered} {l : Loop}
    (h : Reaches maxLength l.currAddr pkg.data.endAddr) (hne : l.currAddr ≠ pkg.data.endAddr) :
    burstLength maxLength pkg l * 16 ≤ (pkg.data.endAddr - l.currAddr).toNat ∧
      (pkg.data.endAddr.toNat + maxLength * 16 ≤ 2 ^ 32 ∨
        burstLength maxLength pkg l = maxLength) := by
  have hpos := toNat_sub_pos hne
  have haligned := Nat.le_of_dvd hpos h.aligned
  have hlast := pkg.data.endAddr.isLt
  have hcurr := l.currAddr.isLt
  have hlong : long maxLength pkg l = true ↔
      (l.currAddr.toNat + maxLength * 16) % 2 ^ 32 ≤ pkg.data.endAddr.toNat := by
    rw [long, decide_eq_true_iff, ge_iff_le, BitVec.le_def, toNat_add_lines]
  have hmeets : pkg.data.endAddr.toNat + maxLength * 16 ≤ 2 ^ 32 ∨
      maxLength * 16 ≤ (pkg.data.endAddr - l.currAddr).toNat :=
    h.meets.imp_right (Nat.le_of_dvd hpos)
  rw [BitVec.toNat_sub] at hpos haligned hmeets ⊢
  rw [burstLength]
  split
  · rename_i htest
    rw [hlong] at htest
    exact ⟨by omega, .inr rfl⟩
  · rename_i htest
    rw [hlong] at htest
    exact ⟨by omega, .inl (by omega)⟩

/-- One iteration of a loop that reaches its end comes closer to it. -/
theorem Reaches.next {maxLength : ℕ} (hpos : 0 < maxLength)
    {pkg : AxiPkg VertexDescriptorOrdered} {l : Loop}
    (h : Reaches maxLength l.currAddr pkg.data.endAddr) (hne : l.currAddr ≠ pkg.data.endAddr) :
    Reaches maxLength (nextLoop maxLength pkg l).currAddr pkg.data.endAddr ∧
      (pkg.data.endAddr - (nextLoop maxLength pkg l).currAddr).toNat <
        (pkg.data.endAddr - l.currAddr).toNat := by
  obtain ⟨hle, hlong⟩ := h.burstLength_le hne
  have hnext : (pkg.data.endAddr - (nextLoop maxLength pkg l).currAddr).toNat =
      (pkg.data.endAddr - l.currAddr).toNat - burstLength maxLength pkg l * 16 := toNat_sub_add hle
  have hlength : 0 < burstLength maxLength pkg l := by
    rw [burstLength]
    split
    · exact hpos
    · exact Nat.one_pos
  have haligned := h.aligned
  refine ⟨⟨?_, ?_⟩, by omega⟩
  · rw [hnext]
    exact Nat.dvd_sub haligned ⟨_, Nat.mul_comm _ _⟩
  · rw [hnext]
    rcases hlong with hroom | hlong
    · exact .inl hroom
    · refine h.meets.imp_right fun hdvd => ?_
      rw [hlong]
      exact Nat.dvd_sub hdvd dvd_rfl

/-- A loop that reaches its end stops. -/
theorem decompose_reaches {maxLength : ℕ} (hpos : 0 < maxLength)
    {pkg : AxiPkg VertexDescriptorOrdered} (fuel : ℕ) {l : Loop}
    (h : Reaches maxLength l.currAddr pkg.data.endAddr)
    (hfuel : (pkg.data.endAddr - l.currAddr).toNat ≤ fuel) :
    ∃ r, decompose maxLength pkg fuel l = some r := by
  induction fuel generalizing l with
  | zero =>
      refine ⟨_, decompose_done _ _ ?_ 0⟩
      by_contra hne
      have hpos := toNat_sub_pos hne
      omega
  | succ fuel ih =>
      by_cases heq : l.currAddr = pkg.data.endAddr
      · exact ⟨_, decompose_done _ _ heq _⟩
      · obtain ⟨hnext, hlt⟩ := h.next hpos heq
        obtain ⟨r, hr⟩ := ih hnext (by omega)
        rw [decompose, if_neg heq, hr]
        exact ⟨_, rfl⟩

/-- The first and the last address of a descriptor are the first of a line. -/
theorem aligned_sub (vd : VertexDescriptorOrdered) : 16 ∣ (vd.endAddr - vd.startAddr).toNat := by
  have hstart : vd.startAddr.toNat = vd.start.toNat / 16 * 16 := toNat_startAddr
  have htemp := toNat_and_fffffff0 vd.end_
  have hend : 16 ∣ vd.endAddr.toNat := by
    unfold VertexDescriptorOrdered.endAddr
    dsimp only
    split
    · rw [htemp]
      exact ⟨_, Nat.mul_comm _ _⟩
    · rw [BitVec.toNat_add, htemp]
      have hsixteen : (16#32).toNat = 16 := rfl
      omega
  have hlt := vd.startAddr.isLt
  rw [BitVec.toNat_sub]
  omega

/-- The loops for a sequence of descriptors stop. -/
theorem cmdGenerator_ends {maxLength : ℕ} (hpos : 0 < maxLength)
    {pkgs : List (AxiPkg VertexDescriptorOrdered)} (h : ∀ pkg ∈ pkgs, Ends maxLength pkg.data)
    (dynamicBurstId : BitVec 16) :
    ∃ cmds, cmdGenerator maxLength (2 ^ 32) pkgs dynamicBurstId = some cmds := by
  induction pkgs generalizing dynamicBurstId with
  | nil => exact ⟨[], rfl⟩
  | cons pkg pkgs ih =>
      obtain ⟨hpkg, hpkgs⟩ := List.forall_mem_cons.mp h
      obtain ⟨⟨first, l⟩, hfirst⟩ := decompose_reaches hpos (2 ^ 32)
        (l := ⟨pkg.data.startAddr, dynamicBurstId⟩) ⟨aligned_sub pkg.data, hpkg.meets⟩
        (BitVec.isLt _).le
      obtain ⟨rest, hrest⟩ := ih hpkgs l.dynamicBurstId
      refine ⟨first :: rest, ?_⟩
      rw [cmdGenerator, hfirst]
      simp only [hrest, Option.map_some]

/-! ## The stop of the dynamic processes -/

section Stop

variable {maxLength : ℕ}

/-- The commands that stop the dynamic processes: one long burst and one line. -/
def stopCmds (maxLength : ℕ) (dynamicBurstId : BitVec 16) : List CmdSend :=
  let pkg := stopOrderedPkg maxLength
  [⟨.burst32Cmd, sendDynamicCmd pkg maxLength 0 (.ofNat 32 (maxLength * 16)) dynamicBurstId⟩,
    ⟨.burst1Cmd, sendDynamicCmd pkg 1 (.ofNat 32 (maxLength * 16))
      (.ofNat 32 ((maxLength + 1) * 16)) dynamicBurstId⟩]

theorem stop_endAddr :
    (stopOrderedPkg maxLength).data.endAddr = .ofNat 32 ((maxLength + 1) * 16) := by
  have hend : (stopOrderedPkg maxLength).data.end_ = .ofNat 32 ((maxLength + 1) * 16) :=
    BitVec.zero_add _
  have hand : .ofNat 32 ((maxLength + 1) * 16) &&& 0xfffffff0#32 =
      BitVec.ofNat 32 ((maxLength + 1) * 16) := by
    apply BitVec.eq_of_toNat_eq
    rw [toNat_and_fffffff0, BitVec.toNat_ofNat]
    omega
  unfold VertexDescriptorOrdered.endAddr
  dsimp only
  rw [hend, hand, if_pos rfl]

/-- The stop of the dynamic processes is one command for each. -/
theorem decompose_stop (hmin : 2 ≤ maxLength) (hsmall : maxLength * 32 < 2 ^ 32)
    (dynamicBurstId : BitVec 16) (fuel : ℕ) :
    decompose maxLength (stopOrderedPkg maxLength) (fuel + 2)
        ⟨(stopOrderedPkg maxLength).data.startAddr, dynamicBurstId⟩ =
      some (stopCmds maxLength dynamicBurstId,
        ⟨.ofNat 32 ((maxLength + 1) * 16), dynamicBurstId⟩) := by
  have hstart : (stopOrderedPkg maxLength).data.startAddr = 0 := BitVec.zero_and
  have hcounts : (stopOrderedPkg maxLength).data.counts = false :=
    (by decide : decide (0x8000#16 &&& 0x8000#16 = 0) = false)
  have hend : (stopOrderedPkg maxLength).data.endAddr = _ := stop_endAddr
  have hne : ∀ n ≤ maxLength, BitVec.ofNat 32 (n * 16) ≠ .ofNat 32 ((maxLength + 1) * 16) := by
    intro n hn heq
    have hnat := congrArg BitVec.toNat heq
    rw [BitVec.toNat_ofNat, BitVec.toNat_ofNat] at hnat
    omega
  have hadd : ∀ m n : ℕ, BitVec.ofNat 32 (m * 16) + .ofNat 32 (n * 16) = .ofNat 32 ((m + n) * 16) := by
    intro m n
    rw [← BitVec.ofNat_add, Nat.add_mul]
  -- A long burst fits in at first, and then only a line.
  have hlong : long maxLength (stopOrderedPkg maxLength) ⟨.ofNat 32 (0 * 16), dynamicBurstId⟩ =
      true := by
    rw [long, decide_eq_true_iff, hend, hadd, ge_iff_le, BitVec.le_def, BitVec.toNat_ofNat,
      BitVec.toNat_ofNat]
    omega
  have hline : long maxLength (stopOrderedPkg maxLength)
      ⟨.ofNat 32 (maxLength * 16), dynamicBurstId⟩ = false := by
    rw [long, decide_eq_false_iff_not, hend, hadd, ge_iff_le, BitVec.le_def, BitVec.toNat_ofNat,
      BitVec.toNat_ofNat]
    omega
  have hzero : (0 : BitVec 32) = .ofNat 32 (0 * 16) := rfl
  rw [hstart, hzero, decompose, hend, if_neg (hne 0 (Nat.zero_le _))]
  simp only [nextLoop, nextCmd, burstLength, hlong, hcounts, if_true, Bool.false_eq_true, if_false,
    hadd, Nat.zero_add]
  rw [decompose, hend, if_neg (hne maxLength le_rfl)]
  simp only [nextLoop, nextCmd, burstLength, hline, hcounts, Bool.false_eq_true, if_false]
  have hlast := hadd maxLength 1
  rw [hlast, decompose_done _ _ hend.symm]
  rfl

end Stop

/-! ## `vd_scheduler` -/

/-- The burst ids that the scheduler reads for some descriptors. -/
def burstIds (ds : List Dispatch) : List (BitVec 16) :=
  ds.flatMap fun d => if d.isEmpty then [] else [d.burstId]

/-- The words that `vd_scheduler` has still to read: its streams are at different descriptors
while it puts one together, and more ids may follow. -/
structure Awaits (ids bids : List (BitVec 16)) (inp st sid bid : List Dispatch)
    (X : ∀ i : SchedulerIn, List (BurstWord i.sort)) : Prop where
  input : X .input = inp.map Dispatch.pkg
  stateIn : X .stateIn = st.map Dispatch.updatedState
  syncId : X .syncId = sid.map Dispatch.id ++ ids
  syncBurstId : X .syncBurstId = burstIds bid ++ bids

/-- What `vd_scheduler` sends for some descriptors. -/
def dispatched (maxLength : ℕ) (ds : List Dispatch) (o : SchedulerOut) : List (BurstWord o.sort) :=
  ds.flatMap fun d => d.sends o ++ d.stops maxLength o

/-- What `vd_scheduler` has ahead: it is to dispatch `ds`, an empty one without a burst id. -/
def vdAhead (maxLength : ℕ) (ids bids : List (BitVec 16)) (r : SchedulerRegs)
    (X : ∀ i : SchedulerIn, List (BurstWord i.sort))
    (Y : ∀ o : SchedulerOut, List (BurstWord o.sort)) : Prop :=
  match r with
  | .poll => ∃ ds, (∀ d ∈ ds, d.isEmpty = true → d.burstId = 0) ∧ Awaits ids bids ds ds ds ds X ∧
      ∀ o, Y o = dispatched maxLength ds o
  | .readState pkg => ∃ d ds, (∀ d' ∈ d :: ds, d'.isEmpty = true → d'.burstId = 0) ∧ pkg = d.pkg ∧
      Awaits ids bids ds (d :: ds) (d :: ds) (d :: ds) X ∧
        ∀ o, Y o = dispatched maxLength (d :: ds) o
  | .readId pkg updatedState => ∃ d ds, (∀ d' ∈ d :: ds, d'.isEmpty = true → d'.burstId = 0) ∧
      pkg = d.pkg ∧ updatedState = d.updatedState ∧
        Awaits ids bids ds ds (d :: ds) (d :: ds) X ∧ ∀ o, Y o = dispatched maxLength (d :: ds) o
  | .readBurstId pkg updatedState id => ∃ d ds,
      (∀ d' ∈ ds, d'.isEmpty = true → d'.burstId = 0) ∧ d.isEmpty = false ∧ pkg = d.pkg ∧
        updatedState = d.updatedState ∧ id = d.id ∧ Awaits ids bids ds ds ds (d :: ds) X ∧
          ∀ o, Y o = dispatched maxLength (d :: ds) o
  | r => ∃ ds, (∀ d ∈ ds, d.isEmpty = true → d.burstId = 0) ∧ Awaits ids bids ds ds ds ds X ∧
      ∀ o, Y o = (vdSchedulerRounds maxLength).owes r o ++ dispatched maxLength ds o

/-- A descriptor is sent on one stream. -/
theorem send_eq (maxLength : ℕ) (d : Dispatch) : ∃ o b,
    (vdSchedulerKernel maxLength).op (.send d) = .write o b d.after ∧ d.sends o = [b] ∧
      ∀ o' ≠ o, d.sends o' = [] := by
  by_cases hempty : d.isEmpty = true
  · refine ⟨.update, d.updatePkg, if_pos hempty, if_pos hempty, fun o ho => ?_⟩
    cases o <;> simp_all [Dispatch.sends]
  · by_cases haddr : d.startAddr = d.endAddr
    · refine ⟨.singleBurst, d.singleCmd, (if_neg hempty).trans (if_pos haddr), ?_, fun o ho => ?_⟩
      · simp [Dispatch.sends, hempty, haddr]
      · cases o <;> simp_all [Dispatch.sends]
    · refine ⟨.dynamicBurstVd, d.orderedPkg, (if_neg hempty).trans (if_neg haddr), ?_,
        fun o ho => ?_⟩
      · simp [Dispatch.sends, hempty, haddr]
      · cases o <;> simp_all [Dispatch.sends]

section Scheduler

variable {maxLength : ℕ} {ids bids : List (BitVec 16)}
  {X : ∀ i : SchedulerIn, List (BurstWord i.sort)} {Y : ∀ o : SchedulerOut, List (BurstWord o.sort)}

/-- After a descriptor has been sent only its stops are left of it. -/
theorem vdAhead_after {d : Dispatch} {ds : List Dispatch}
    (hds : ∀ d ∈ ds, d.isEmpty = true → d.burstId = 0) (hX : Awaits ids bids ds ds ds ds X)
    (hY : ∀ o, Y o = d.stops maxLength o ++ dispatched maxLength ds o) :
    vdAhead maxLength ids bids d.after X Y := by
  have howes := fun o => (owes_after maxLength d o).symm
  unfold Dispatch.after at howes ⊢
  split
  · rename_i hlast
    refine ⟨ds, hds, hX, fun o => ?_⟩
    rw [hY, howes, if_pos hlast]
  · rename_i hlast
    refine ⟨ds, hds, hX, fun o => ?_⟩
    rw [hY, howes, if_neg hlast]
    cases o <;> rfl

/-- `vd_scheduler` dispatches the descriptors as planned. -/
theorem vdAhead_pursues (r : SchedulerRegs) (h : vdAhead maxLength ids bids r X Y) :
    (vdSchedulerKernel maxLength).Pursues (vdAhead maxLength ids bids) X Y
      ((vdSchedulerKernel maxLength).op r) := by
  cases r with
  | poll =>
      refine ⟨h, fun pkg rest hX => ?_⟩
      obtain ⟨ds, hds, hawaits, hY⟩ := h
      rw [hawaits.input] at hX
      obtain ⟨d, ds', rfl, rfl, rfl⟩ := List.map_eq_cons_iff.mp hX
      refine ⟨d, ds', hds, rfl, ⟨Function.update_self .., ?_, ?_, ?_⟩, hY⟩
      · rw [Function.update_of_ne (by decide), hawaits.stateIn]
      · rw [Function.update_of_ne (by decide), hawaits.syncId]
      · rw [Function.update_of_ne (by decide), hawaits.syncBurstId]
  | readState pkg =>
      obtain ⟨d, ds, hds, rfl, hawaits, hY⟩ := h
      intro updatedState rest hX
      rw [hawaits.stateIn, List.map_cons, List.cons.injEq] at hX
      obtain ⟨rfl, rfl⟩ := hX
      refine ⟨d, ds, hds, rfl, rfl, ⟨?_, Function.update_self .., ?_, ?_⟩, hY⟩
      · rw [Function.update_of_ne (by decide), hawaits.input]
      · rw [Function.update_of_ne (by decide), hawaits.syncId]
      · rw [Function.update_of_ne (by decide), hawaits.syncBurstId]
  | readId pkg updatedState =>
      obtain ⟨d, ds, hds, rfl, rfl, hawaits, hY⟩ := h
      obtain ⟨hd, hds⟩ := List.forall_mem_cons.mp hds
      intro id rest hX
      rw [hawaits.syncId, List.map_cons, List.cons_append, List.cons.injEq] at hX
      obtain ⟨rfl, rfl⟩ := hX
      have hinput : Function.update X .syncId (ds.map Dispatch.id ++ ids) .input =
          ds.map Dispatch.pkg := by
        rw [Function.update_of_ne (by decide), hawaits.input]
      have hstate : Function.update X .syncId (ds.map Dispatch.id ++ ids) .stateIn =
          ds.map Dispatch.updatedState := by
        rw [Function.update_of_ne (by decide), hawaits.stateIn]
      have hburst : Function.update X .syncId (ds.map Dispatch.id ++ ids) .syncBurstId =
          burstIds (d :: ds) ++ bids := by
        rw [Function.update_of_ne (by decide), hawaits.syncBurstId]
      dsimp only
      split
      · rename_i hsize
        have hempty : d.isEmpty = true := decide_eq_true hsize
        have heq : (⟨d.pkg, d.updatedState, d.id, 0⟩ : Dispatch) = d := by
          rw [← hd hempty]
        rw [heq]
        refine ⟨ds, hds, ⟨hinput, hstate, Function.update_self .., ?_⟩, hY⟩
        rw [hburst, burstIds, List.flatMap_cons, if_pos hempty]
        rfl
      · rename_i hsize
        exact ⟨d, ds, hds, decide_eq_false hsize, rfl, rfl, rfl,
          ⟨hinput, hstate, Function.update_self .., hburst⟩, hY⟩
  | readBurstId pkg updatedState id =>
      obtain ⟨d, ds, hds, hempty, rfl, rfl, rfl, hawaits, hY⟩ := h
      intro burstId rest hX
      rw [hawaits.syncBurstId, burstIds, List.flatMap_cons, hempty] at hX
      obtain ⟨rfl, rfl⟩ := List.cons.inj hX
      refine ⟨ds, hds, ⟨?_, ?_, ?_, Function.update_self ..⟩, hY⟩
      · rw [Function.update_of_ne (by decide), hawaits.input]
      · rw [Function.update_of_ne (by decide), hawaits.stateIn]
      · rw [Function.update_of_ne (by decide), hawaits.syncId]
  | send d =>
      obtain ⟨ds, hds, hawaits, hY⟩ := h
      obtain ⟨o, b, hop, hsends, hothers⟩ := send_eq maxLength d
      rw [hop]
      refine ⟨d.stops maxLength o ++ dispatched maxLength ds o, ?_, vdAhead_after hds hawaits
        fun o' => ?_⟩
      · rw [hY, owes_send, hsends]
        rfl
      · by_cases ho : o' = o
        · subst ho
          rw [Function.update_self]
        · rw [Function.update_of_ne ho, hY, owes_send, hothers o' ho]
          rfl
  | stopSingle =>
      obtain ⟨ds, hds, hawaits, hY⟩ := h
      refine ⟨_, hY .singleBurst, ds, hds, hawaits, fun o => ?_⟩
      cases o with
      | singleBurst => exact Function.update_self ..
      | _ => exact (Function.update_of_ne (by decide) _ _).trans (hY _)
  | stopDynamic =>
      obtain ⟨ds, hds, hawaits, hY⟩ := h
      refine ⟨_, hY .dynamicBurstVd, ds, hds, hawaits, fun o => ?_⟩
      cases o with
      | dynamicBurstVd => exact Function.update_self ..
      | _ => exact (Function.update_of_ne (by decide) _ _).trans (hY _)

end Scheduler

end RidgeWalker.Burst
