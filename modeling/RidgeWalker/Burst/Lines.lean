import RidgeWalker.Burst.Units

/-!
# The lines of a vertex

The burst processes send a weight line and a token for every line of a command.  All lines of a
long burst are masked by the lane test of the first one, so that a long burst is right only if the
range of the vertex does not begin or end inside a line of it.

Main results:

- Definition `vertexLine`: the lines that the burst processes send for a vertex.
- Theorem `decompose_lines`: the commands of `cmd_generator` lead to these lines, in order.
- Theorem `burst_lines_exact`: they are the stored words of the vertex, for every content of the
  memory, exactly if no long burst meets an end of the range inside a line.
-/

namespace RidgeWalker.Burst

open Bits Dataflow Memory Cache Wrs

/-! ## Lines -/

/-- What the token of a line says: its address, the number of its vertex among all vertices and
among those with lines, the state of the walk, whether it is the last line of the vertex, and
whether it belongs to the last command of a batch. -/
structure LineToken where
  addr : BitVec 32
  id : BitVec 16
  burst : BitVec 16
  state : BitVec 16
  ends : Bool
  last : Bool
deriving DecidableEq

/-- A token without the numbers of the commands. -/
def lineToken (sync : AxiPkg BurstSync) : LineToken where
  addr := sync.data.addr
  id := sync.data.id
  burst := sync.data.burstId &&& 0x7fff#16
  state := sync.data.state
  ends := sync.data.burstId.getLsbD 15
  last := sync.last

/-- A token with a line of words. -/
abbrev SentLine : Type := LineToken × AxiPkg (Fin 16 → BitVec 32)

/-- The packages for a line. -/
abbrev LinePkgs : Type := AxiPkg BurstSync × AxiPkg (Fin 16 → BitVec 32)

/-- The packages that a burst process with bursts of `n` lines sends for a command. -/
def unitLines (mem : ℕ → BitVec 32) (sync : BurstCmd → ℕ → BurstSync) (n : ℕ)
    (pkg : AxiPkg BurstCmd) : List LinePkgs :=
  (List.range n).map fun j => (⟨sync pkg.data j, pkg.last⟩, ⟨pkg.data.maskedOut mem j, pkg.last⟩)

/-- What the packages for a line say. -/
def sentLine (x : LinePkgs) : SentLine := (lineToken x.1, x.2)

/-- The lines of a burst of a process that reads the commands of a port of `cmd_generator`. -/
def CmdOut.burstLines : CmdOut → ℕ
  | .burst32Cmd => dynamicBurstMaxLength
  | .burst1Cmd => 1

/-- The packages for a command of `cmd_generator`. -/
def cmdLines (mem : ℕ → BitVec 32) (c : CmdSend) : List LinePkgs :=
  unitLines mem (BurstCmd.dynamicSync · c.1.burstLines) c.1.burstLines c.2

/-! ## The lines of a range -/

section Range

variable (start size : BitVec 32)

/-- The number of lines that a range touches. -/
def lineCount : ℕ := (start.toNat + size.toNat + 15) / 16 - start.toNat / 16

/-- The line whose lane test masks line `j`: the first line of its long burst. -/
def maskLine (j : ℕ) : ℕ :=
  if j < lineCount start size / dynamicBurstMaxLength * dynamicBurstMaxLength then
    j / dynamicBurstMaxLength * dynamicBurstMaxLength
  else j

theorem maskLine_eq (j : ℕ) : maskLine start size j =
    if j < lineCount start size / 32 * 32 then j / 32 * 32 else j :=
  rfl

/-- The line after the burst that line `j` belongs to. -/
def burstEnd (j : ℕ) : ℕ :=
  if j < lineCount start size / dynamicBurstMaxLength * dynamicBurstMaxLength then
    j / dynamicBurstMaxLength * dynamicBurstMaxLength + dynamicBurstMaxLength
  else j + 1

theorem burstEnd_eq (j : ℕ) : burstEnd start size j =
    if j < lineCount start size / 32 * 32 then j / 32 * 32 + 32 else j + 1 :=
  rfl

/-- Line `j` of a range as the burst processes send it. -/
def vertexLine (mem : ℕ → BitVec 32) (j : ℕ) : Fin 16 → BitVec 32 := fun k =>
  let lane := (start.toNat / 16 + maskLine start size j) * 16 + k
  if lane < start.toNat ∨ start.toNat + size.toNat ≤ lane then 0
  else mem ((start.toNat / 16 + j) * 16 + k)

/-- Line `j` of a range with the lanes outside the range masked. -/
def storedLine (mem : ℕ → BitVec 32) (j : ℕ) : Fin 16 → BitVec 32 := fun k =>
  let lane := (start.toNat / 16 + j) * 16 + k
  if lane < start.toNat ∨ start.toNat + size.toNat ≤ lane then 0 else mem lane

end Range

/-- The address of line `j` of a range. -/
def lineAddr (start : BitVec 32) (j : ℕ) : BitVec 32 := .ofNat 32 ((start.toNat / 16 + j) * 16)

section Descriptor

variable (pkg : AxiPkg VertexDescriptorOrdered) (mem : ℕ → BitVec 32)

/-- What is sent for line `j` of a descriptor. -/
def orderedLine (j : ℕ) : SentLine :=
  let last := decide (burstEnd pkg.data.start pkg.data.size j =
    lineCount pkg.data.start pkg.data.size) && pkg.last
  (⟨lineAddr pkg.data.start j, pkg.data.id, pkg.data.burstId &&& 0x7fff#16, pkg.data.state,
      decide (j + 1 = lineCount pkg.data.start pkg.data.size), last⟩,
    ⟨vertexLine pkg.data.start pkg.data.size mem j, last⟩)

/-- What is sent for a descriptor. -/
def orderedLines : List SentLine :=
  (List.range (lineCount pkg.data.start pkg.data.size)).map (orderedLine pkg mem)

end Descriptor

/-! ## One command -/

theorem and_7fff_setRange (x : BitVec 16) (b : BitVec 1) :
    setRange x 15 b &&& 0x7fff#16 = x &&& 0x7fff#16 := by
  apply BitVec.eq_of_getLsbD_eq
  intro i hi
  rw [BitVec.getLsbD_and, BitVec.getLsbD_and, getLsbD_setRange _ _ hi]
  by_cases htop : i = 15
  · subst htop
    rw [show (0x7fff#16).getLsbD 15 = false from rfl, Bool.and_false, Bool.and_false]
  · rw [if_neg (by omega)]

/-- The lane test of a command, for its first line. -/
theorem maskedOut_apply {cmd : BurstCmd} {a lo hi : ℕ} (haddr : cmd.addr.toNat = a * 16)
    (hstart : cmd.start.toNat = lo) (hend : cmd.end_.toNat = hi)
    (mem : ℕ → BitVec 32) (j : ℕ) (k : Fin 16) :
    cmd.maskedOut mem j k =
      if a * 16 + k < lo ∨ hi ≤ a * 16 + k then 0 else mem ((a + j) * 16 + k) := by
  have hk := k.isLt
  have hlane : (BitVec.ofNat 32 k + cmd.addr).toNat = a * 16 + k := by
    rw [BitVec.toNat_add, BitVec.toNat_ofNat, haddr]
    omega
  have htest : (.ofNat 32 k + cmd.addr < cmd.start ∨ .ofNat 32 k + cmd.addr ≥ cmd.end_) ↔
      (a * 16 + k < lo ∨ hi ≤ a * 16 + k) := by
    rw [BitVec.lt_def, ge_iff_le, BitVec.le_def, hlane, hstart, hend]
  have hdiv : cmd.addr.toNat / 16 = a := by omega
  rw [BurstCmd.maskedOut, if_congr htest rfl rfl, hdiv]

section Command

variable {pkg : AxiPkg VertexDescriptorOrdered} {l : Loop}

theorem lineCount_eq (h : InRange pkg.data) : pkg.data.endAddr.toNat =
    (pkg.data.start.toNat / 16 + lineCount pkg.data.start pkg.data.size) * 16 := by
  have hsize := h.size
  rw [h.toNat_endAddr, lineCount]
  omega

/-- The lines of the next command are the next lines of the descriptor. -/
theorem cmdLines_nextCmd (h : InRange pkg.data) (mem : ℕ → BitVec 32) {j₀ n : ℕ}
    (hl : l.currAddr.toNat = (pkg.data.start.toNat / 16 + j₀) * 16)
    (hn : burstLength dynamicBurstMaxLength pkg l = n)
    (hcases : n = 32 ∧ 32 ∣ j₀ ∨ n = 1 ∧
      lineCount pkg.data.start pkg.data.size / 32 * 32 ≤ j₀)
    (hle : j₀ + n ≤ lineCount pkg.data.start pkg.data.size)
    (hnext : (nextLoop dynamicBurstMaxLength pkg l).currAddr.toNat = l.currAddr.toNat + n * 16) :
    (cmdLines mem (nextCmd dynamicBurstMaxLength pkg l)).map sentLine =
      (List.range' j₀ n).map (orderedLine pkg mem) := by
  have hend := lineCount_eq h
  have hlt := pkg.data.endAddr.isLt
  have hn32 : n ≤ 32 := by omega
  have hports : (nextCmd dynamicBurstMaxLength pkg l).1.burstLines = n := by
    rw [← hn, nextCmd, burstLength]
    cases long dynamicBurstMaxLength pkg l <;> rfl
  have haddr : (nextCmd dynamicBurstMaxLength pkg l).2.data.addr = l.currAddr := rfl
  have hmask := mask_nextCmd (l := l) h
  rw [hnext] at hmask
  obtain ⟨hmaskStart, hmaskEnd⟩ := Prod.mk.inj hmask
  have hends : (nextCmd dynamicBurstMaxLength pkg l).2.data.burstId.getLsbD 15 =
      decide (j₀ + n = lineCount pkg.data.start pkg.data.size) := by
    have hlast : endOfBurst (nextCmd dynamicBurstMaxLength pkg l) = _ := endOfBurst_nextCmd
    rw [endOfBurst] at hlast
    rw [hlast]
    refine decide_eq_decide.mpr ⟨fun heq => ?_, fun heq => BitVec.eq_of_toNat_eq ?_⟩
    · have hnat := congrArg BitVec.toNat heq
      omega
    · omega
  have hburst : (nextCmd dynamicBurstMaxLength pkg l).2.data.burstId &&& 0x7fff#16 =
      pkg.data.burstId &&& 0x7fff#16 := by
    have hset : (nextCmd dynamicBurstMaxLength pkg l).2.data.burstId =
        setRange (pkg.data.burstId &&& 0x7fff#16) 15 _ := rfl
    rw [hset, and_7fff_setRange, BitVec.and_assoc, BitVec.and_self]
  -- The flag of the last command is that of all its lines.
  have hflag : ∀ j < n, (nextCmd dynamicBurstMaxLength pkg l).2.last =
      (decide (burstEnd pkg.data.start pkg.data.size (j₀ + j) =
        lineCount pkg.data.start pkg.data.size) && pkg.last) := by
    intro j hj
    have hburstEnd : burstEnd pkg.data.start pkg.data.size (j₀ + j) = j₀ + n := by
      rw [burstEnd_eq]
      split <;> omega
    rw [last_nextCmd, hburstEnd, ← hends, ← endOfBurst_nextCmd]
    rfl
  rw [cmdLines, unitLines, hports, List.map_map, List.range'_eq_map_range, List.map_map]
  refine List.map_congr_left fun j hj => ?_
  have hjn := List.mem_range.mp hj
  refine Prod.ext ?_ ?_
  · -- The token of line `j`.
    have hline : l.currAddr + .ofNat 32 (j * 16) = lineAddr pkg.data.start (j₀ + j) := by
      apply BitVec.eq_of_toNat_eq
      rw [toNat_add_lines, hl, lineAddr, BitVec.toNat_ofNat,
        show (pkg.data.start.toNat / 16 + j₀) * 16 + j * 16 =
          (pkg.data.start.toNat / 16 + (j₀ + j)) * 16 by omega]
    have hlast : ((nextCmd dynamicBurstMaxLength pkg l).2.data.dynamicSync n j).burstId.getLsbD 15 =
        decide (j₀ + j + 1 = lineCount pkg.data.start pkg.data.size) := by
      rw [BurstCmd.dynamicSync]
      dsimp only
      split
      · rw [hends]
        exact decide_eq_decide.mpr (by omega)
      · rw [BitVec.getLsbD_and, show (0x7fff#16).getLsbD 15 = false from rfl, Bool.and_false]
        exact (decide_eq_false (by omega)).symm
    have hkept : ((nextCmd dynamicBurstMaxLength pkg l).2.data.dynamicSync n j).burstId &&&
        0x7fff#16 = pkg.data.burstId &&& 0x7fff#16 := by
      rw [BurstCmd.dynamicSync]
      dsimp only
      split
      · exact hburst
      · rw [BitVec.and_assoc, BitVec.and_self, hburst]
    simp only [Function.comp_apply, sentLine, lineToken, orderedLine, LineToken.mk.injEq]
    exact ⟨hline, rfl, hkept, rfl, hlast, hflag j hjn⟩
  · -- The words of line `j`.
    have hphase : maskLine pkg.data.start pkg.data.size (j₀ + j) = j₀ := by
      rw [maskLine_eq]
      split <;> omega
    have hflag := hflag j hjn
    simp only [Function.comp_apply, sentLine, orderedLine, AxiPkg.mk.injEq]
    refine ⟨?_, hflag⟩
    funext k
    have hk := k.isLt
    have hmasked := maskedOut_apply ((congrArg BitVec.toNat haddr).trans hl) hmaskStart hmaskEnd mem j k
    simp only [vertexLine, hphase, hmasked]
    refine if_congr ?_ rfl (by rw [Nat.add_assoc])
    omega

end Command

/-! ## The loop -/

/-- The commands of `cmd_generator` lead to the lines of the descriptor, in order. -/
theorem decompose_lines {pkg : AxiPkg VertexDescriptorOrdered} (h : InRange pkg.data)
    (mem : ℕ → BitVec 32) {fuel j₀ : ℕ} {l l' : Loop} {cmds : List CmdSend}
    (hcmds : decompose dynamicBurstMaxLength pkg fuel l = some (cmds, l'))
    (hl : l.currAddr.toNat = (pkg.data.start.toNat / 16 + j₀) * 16)
    (hle : j₀ ≤ lineCount pkg.data.start pkg.data.size)
    (hphase : 32 ∣ j₀ ∨ lineCount pkg.data.start pkg.data.size / 32 * 32 ≤ j₀)
    (hmeets : Meets l.currAddr.toNat pkg.data.endAddr.toNat) :
    cmds.flatMap (fun c => (cmdLines mem c).map sentLine) =
      (List.range' j₀ (lineCount pkg.data.start pkg.data.size - j₀)).map (orderedLine pkg mem) := by
  have hend := lineCount_eq h
  induction fuel generalizing l j₀ cmds with
  | zero =>
      rw [decompose] at hcmds
      split at hcmds
      · rename_i heq
        cases hcmds
        have hnat := congrArg BitVec.toNat heq
        rw [show lineCount pkg.data.start pkg.data.size - j₀ = 0 by omega]
        rfl
      · cases hcmds
  | succ fuel ih =>
      by_cases heq : l.currAddr = pkg.data.endAddr
      · rw [decompose_done _ _ heq] at hcmds
        cases hcmds
        have hnat := congrArg BitVec.toNat heq
        rw [show lineCount pkg.data.start pkg.data.size - j₀ = 0 by omega]
        rfl
      · rw [decompose, if_neg heq] at hcmds
        obtain ⟨⟨rest, l''⟩, hrest, hcons⟩ := Option.map_eq_some_iff.mp hcmds
        cases hcons
        have hlt : l.currAddr.toNat < pkg.data.endAddr.toNat := by
          have hne : l.currAddr.toNat ≠ pkg.data.endAddr.toNat := fun hnat =>
            heq (BitVec.eq_of_toNat_eq hnat)
          omega
        obtain ⟨n, hn, hcases, hroom, hnext, hmeets'⟩ := nextLoop_meets
          (by rw [hl]; exact ⟨_, Nat.mul_comm _ _⟩) (by rw [hend]; exact ⟨_, Nat.mul_comm _ _⟩) hlt
          hmeets
        -- A long burst is taken exactly as long as one fits.
        have hlong : n = 32 ∧ 32 ∣ j₀ ∨
            n = 1 ∧ lineCount pkg.data.start pkg.data.size / 32 * 32 ≤ j₀ := by
          have hlength : burstLength dynamicBurstMaxLength pkg l =
              if l.currAddr.toNat + 512 ≤ pkg.data.endAddr.toNat then 32 else 1 :=
            burstLength_eq (by
              unfold Meets at hmeets
              omega)
          rw [hn] at hlength
          split at hlength <;> omega
        have hhead := cmdLines_nextCmd h mem hl hn hlong (by omega) hnext
        have hl' : (nextLoop dynamicBurstMaxLength pkg l).currAddr.toNat =
            (pkg.data.start.toNat / 16 + (j₀ + n)) * 16 := by omega
        have htail := ih hrest hl' (by omega) (by omega) (by rw [hnext]; exact hmeets')
        rw [List.flatMap_cons, hhead, htail, ← List.map_append,
          show lineCount pkg.data.start pkg.data.size - j₀ =
            n + (lineCount pkg.data.start pkg.data.size - (j₀ + n)) by omega,
          List.range'_append_1]

/-- All lines of a descriptor. -/
theorem decompose_orderedLines {pkg : AxiPkg VertexDescriptorOrdered} (h : InRange pkg.data)
    (hstops : Stops pkg.data) (mem : ℕ → BitVec 32) {fuel : ℕ} {dynamicBurstId : BitVec 16}
    {l' : Loop} {cmds : List CmdSend}
    (hcmds : decompose dynamicBurstMaxLength pkg fuel ⟨pkg.data.startAddr, dynamicBurstId⟩ =
      some (cmds, l')) :
    cmds.flatMap (fun c => (cmdLines mem c).map sentLine) = orderedLines pkg mem := by
  have hstart : pkg.data.startAddr.toNat = pkg.data.start.toNat / 16 * 16 := toNat_startAddr
  have hlines := decompose_lines h mem hcmds (hstart.trans (by rw [Nat.add_zero])) (Nat.zero_le _)
    (.inl (Nat.dvd_zero _)) hstops
  rw [hlines, Nat.sub_zero, ← List.range_eq_range']
  rfl

/-! ## When the lines are right -/

section Exact

variable {start size : BitVec 32}

/-- A line is right for every content of the memory exactly if its lanes and those of the line
whose test masks it lie on the same sides of the range. -/
theorem vertexLine_eq_iff (j : ℕ) :
    (∀ mem, vertexLine start size mem j = storedLine start size mem j) ↔
      ∀ k < 16, ((start.toNat / 16 + maskLine start size j) * 16 + k < start.toNat ∨
          start.toNat + size.toNat ≤ (start.toNat / 16 + maskLine start size j) * 16 + k) ↔
        ((start.toNat / 16 + j) * 16 + k < start.toNat ∨
          start.toNat + size.toNat ≤ (start.toNat / 16 + j) * 16 + k) := by
  constructor
  · intro hall k hk
    have hword := congrFun (hall fun _ => 1) ⟨k, hk⟩
    have hne : (0 : BitVec 32) ≠ 1 := by decide
    simp only [vertexLine, storedLine] at hword
    split at hword <;> rename_i htest <;> split at hword <;> rename_i hlane
    · exact iff_of_true htest hlane
    · exact absurd hword hne
    · exact absurd hword hne.symm
    · exact iff_of_false htest hlane
  · intro hall mem
    funext k
    exact if_congr (hall k k.isLt) rfl rfl

/-- A long burst that begins or ends inside a line is masked wrongly, and only such a burst. -/
theorem vertexLine_eq_storedLine (hsize : 0 < size.toNat) :
    (∀ mem, ∀ j < lineCount start size, vertexLine start size mem j = storedLine start size mem j) ↔
      (lineCount start size < dynamicBurstMaxLength ∨ 16 ∣ start.toNat) ∧
        (¬dynamicBurstMaxLength ∣ lineCount start size ∨ 16 ∣ start.toNat + size.toNat) := by
  have hcount : lineCount start size =
      (start.toNat + size.toNat + 15) / 16 - start.toNat / 16 := rfl
  have h32 : dynamicBurstMaxLength = 32 := rfl
  rw [h32]
  constructor
  · intro hall
    have hlane := fun j (hj : j < lineCount start size) =>
      (vertexLine_eq_iff j).mp fun mem => hall mem j hj
    refine ⟨?_, ?_⟩
    · -- The second line of a long burst that begins inside a line.
      by_contra hboth
      obtain ⟨hlong, hodd⟩ := not_or.mp hboth
      have hsecond := hlane 1 (by omega) 0 (by omega)
      have hmask : maskLine start size 1 = 0 := by
        rw [maskLine_eq, if_pos (by omega)]
      rw [hmask] at hsecond
      omega
    · -- The last line of a long burst that ends inside a line.
      by_contra hboth
      obtain ⟨hdvd, hodd⟩ := not_or.mp hboth
      have hlast := hlane (lineCount start size - 1) (by omega) 15 (by omega)
      have hmask : maskLine start size (lineCount start size - 1) = lineCount start size - 32 := by
        rw [maskLine_eq, if_pos (by omega)]
        omega
      rw [hmask] at hlast
      omega
  · rintro ⟨hfirst, hlast⟩ mem j hj
    refine (vertexLine_eq_iff j).mpr (fun k hk => ?_) mem
    have hmask := maskLine_eq start size j
    split at hmask <;> omega

/-- What the commands and the burst processes make of a descriptor are, for every content of the
memory, the stored words of its range, exactly if it has no long burst or begins with a line, and
does not end with a long burst or ends with a line. -/
theorem burst_lines_exact (pkg : AxiPkg VertexDescriptorOrdered) (h : InRange pkg.data)
    (hstops : Stops pkg.data) (dynamicBurstId : BitVec 16) :
    ∃ cmds l, decompose dynamicBurstMaxLength pkg (2 ^ 28) ⟨pkg.data.startAddr, dynamicBurstId⟩ =
        some (cmds, l) ∧
      ((∀ mem, cmds.flatMap (fun c => (cmdLines mem c).map fun x => x.2.data) =
          (List.range (lineCount pkg.data.start pkg.data.size)).map
            (storedLine pkg.data.start pkg.data.size mem)) ↔
        (lineCount pkg.data.start pkg.data.size < dynamicBurstMaxLength ∨
            16 ∣ pkg.data.start.toNat) ∧
          (¬dynamicBurstMaxLength ∣ lineCount pkg.data.start pkg.data.size ∨
            16 ∣ pkg.data.start.toNat + pkg.data.size.toNat)) := by
  obtain ⟨cmds, l, hcmds, -⟩ := exists_decompose h hstops dynamicBurstId
  refine ⟨cmds, l, hcmds, ?_⟩
  rw [← vertexLine_eq_storedLine h.size]
  have hsent : ∀ mem, cmds.flatMap (fun c => (cmdLines mem c).map fun x => x.2.data) =
      (List.range (lineCount pkg.data.start pkg.data.size)).map
        (vertexLine pkg.data.start pkg.data.size mem) := by
    intro mem
    have hlines := congrArg (List.map fun x => x.2.data) (decompose_orderedLines h hstops mem hcmds)
    rw [List.map_flatMap, orderedLines, List.map_map] at hlines
    simpa [List.map_map, Function.comp_def, sentLine, orderedLine] using hlines
  refine forall_congr' fun mem => ?_
  rw [hsent]
  exact List.map_inj_left.trans ⟨fun hall j hj => hall j (List.mem_range.mpr hj),
    fun hall j hj => hall j (List.mem_range.mp hj)⟩

/-- A descriptor of 34 lines that begins inside the first of them. -/
def insideLine : AxiPkg VertexDescriptorOrdered := ⟨⟨1, 33 * 16, 0, 0, 0⟩, true⟩

/-- Its lines are not sent as they are stored. -/
theorem burst_lines_exact_insideLine : ∃ cmds l,
    decompose dynamicBurstMaxLength insideLine (2 ^ 28) ⟨insideLine.data.startAddr, 0⟩ =
      some (cmds, l) ∧
    ¬ ∀ mem, cmds.flatMap (fun c => (cmdLines mem c).map fun x => x.2.data) =
      (List.range (lineCount insideLine.data.start insideLine.data.size)).map
        (storedLine insideLine.data.start insideLine.data.size mem) := by
  obtain ⟨cmds, l, hcmds, hexact⟩ := burst_lines_exact insideLine ⟨by decide, by decide⟩
    (.inl (by decide)) 0
  exact ⟨cmds, l, hcmds, hexact.not.mpr (by decide)⟩

end Exact

end RidgeWalker.Burst
