import RidgeWalker.Bits.Ranges
import RidgeWalker.Burst.Scheduler
import RidgeWalker.Dataflow.Plans

/-!
# Commands for long descriptors

`cmd_generator` cuts the lines of a descriptor into long bursts and single lines.  Its loop stops
when the current address is the end address, and the test for a long burst adds to the current
address, which wraps close to the end of the address space.

Main results:

- Theorem `decompose_tiled`: while nothing wraps, the commands tile the lines of the descriptor.
- Theorem `decompose_diverges`: otherwise the loop misses its end and never stops.
- Theorem `cmdGenerator_generates`: a sequence of descriptors is decomposed as intended exactly
  if none of them wraps.
-/

namespace RidgeWalker.Burst

open Bits Dataflow Memory

/-! ## Intervals -/

/-- The intervals of a list follow each other from `lo` to `hi`, and none is empty. -/
def Tiles : ℕ → List (ℕ × ℕ) → ℕ → Prop
  | lo, [], hi => lo = hi
  | lo, (a, b) :: rest, hi => a = lo ∧ a < b ∧ Tiles b rest hi

/-! ## The loop -/

/-- The streams that `cmd_generator` writes. -/
inductive CmdOut where
  | burst32Cmd
  | burst1Cmd
deriving DecidableEq

instance : Fintype CmdOut := ⟨{.burst32Cmd, .burst1Cmd}, fun x => by cases x <;> decide⟩

/-- What `cmd_generator` writes. -/
abbrev CmdSend : Type := Send fun _ : CmdOut => AxiPkg BurstCmd

namespace VertexDescriptorOrdered

variable (vd : VertexDescriptorOrdered)

/-- `start_addr`. -/
def startAddr : BitVec 32 := vd.start &&& 0xfffffff0#32

/-- `end`. -/
def end_ : BitVec 32 := vd.start + vd.size

/-- `end_addr`. -/
def endAddr : BitVec 32 :=
  let tempEndAddr := vd.end_ &&& 0xfffffff0#32
  if tempEndAddr = vd.end_ then tempEndAddr else tempEndAddr + 16#32

/-- `id & 0x8000` is not set. -/
def counts : Bool := vd.id &&& 0x8000#16 = 0

end VertexDescriptorOrdered

/-- The registers of the loop `cmd_decomposition`. -/
structure Loop where
  currAddr : BitVec 32
  dynamicBurstId : BitVec 16

/-- `SEND_DYNAMIC_CMD` for `n` lines from `last` on, up to `currAddr`. -/
def sendDynamicCmd (pkg : AxiPkg VertexDescriptorOrdered) (n : ℕ) (last currAddr : BitVec 32)
    (dynamicBurstId : BitVec 16) : AxiPkg BurstCmd :=
  let endOfBurst := decide (currAddr = pkg.data.endAddr)
  { data :=
      { addr := last
        size := .ofNat 32 n
        start := if last < pkg.data.start then pkg.data.start else last
        end_ := if currAddr > pkg.data.end_ then pkg.data.end_ else currAddr
        id := pkg.data.id
        burstId := setRange (pkg.data.burstId &&& 0x7fff#16) 15 (BitVec.ofBool endOfBurst)
        dynamicId := dynamicBurstId &&& 0x7fff#16
        state := pkg.data.state }
    last := endOfBurst && pkg.last }

section Generator

variable (maxLength : ℕ) (pkg : AxiPkg VertexDescriptorOrdered)

/-- The test for a long burst. -/
def long (l : Loop) : Bool := pkg.data.endAddr ≥ l.currAddr + .ofNat 32 (maxLength * 16)

/-- The lines of the next command. -/
def burstLength (l : Loop) : ℕ := if long maxLength pkg l then maxLength else 1

/-- The next command, with the stream it is written to. -/
def nextCmd (l : Loop) : CmdSend :=
  let n := burstLength maxLength pkg l
  ⟨if long maxLength pkg l then .burst32Cmd else .burst1Cmd,
    sendDynamicCmd pkg n l.currAddr (l.currAddr + .ofNat 32 (n * 16)) l.dynamicBurstId⟩

/-- One iteration of `cmd_decomposition`. -/
def nextLoop (l : Loop) : Loop where
  currAddr := l.currAddr + .ofNat 32 (burstLength maxLength pkg l * 16)
  dynamicBurstId := if pkg.data.counts then l.dynamicBurstId + 1 else l.dynamicBurstId

/-- `cmd_decomposition`, if it stops within `fuel` iterations: the commands and the registers
after them. -/
def decompose : ℕ → Loop → Option (List CmdSend × Loop)
  | fuel, l =>
      if l.currAddr = pkg.data.endAddr then some ([], l)
      else
        match fuel with
        | 0 => none
        | fuel + 1 =>
            (decompose fuel (nextLoop maxLength pkg l)).map fun r =>
              (nextCmd maxLength pkg l :: r.1, r.2)

theorem decompose_done {l : Loop} (h : l.currAddr = pkg.data.endAddr) (fuel : ℕ) :
    decompose maxLength pkg fuel l = some ([], l) := by
  cases fuel <;> rw [decompose, if_pos h]

/-- `cmd_main` on a sequence of descriptors: the commands of each, if every loop stops within
`fuel` iterations. -/
def cmdGenerator (fuel : ℕ) : List (AxiPkg VertexDescriptorOrdered) → BitVec 16 →
    Option (List (List CmdSend))
  | [], _ => some []
  | pkg :: rest, dynamicBurstId =>
      match decompose maxLength pkg fuel ⟨pkg.data.startAddr, dynamicBurstId⟩ with
      | none => none
      | some (cmds, l) => (cmdGenerator fuel rest l.dynamicBurstId).map (cmds :: ·)

end Generator

/-! ## The intended decomposition -/

/-- The addresses of a command. -/
def lines (c : CmdSend) : ℕ × ℕ :=
  (c.2.data.addr.toNat, c.2.data.addr.toNat + 16 * c.2.data.size.toNat)

/-- The mask range of a command. -/
def mask (c : CmdSend) : ℕ × ℕ := (c.2.data.start.toNat, c.2.data.end_.toNat)

/-- The end-of-burst bit of a command. -/
def endOfBurst (c : CmdSend) : Bool := c.2.data.burstId.getLsbD 15

/-- A flag is set on the final command, if `v` holds, and on no other. -/
def OnFinal (flag : CmdSend → Bool) (v : Bool) : List CmdSend → Prop
  | [] => True
  | c :: rest => flag c = (rest.isEmpty && v) ∧ OnFinal flag v rest

/-- The commands from address `lo` on are those of the lines up to the end of the descriptor. -/
structure Tiled (pkg : AxiPkg VertexDescriptorOrdered) (lo : ℕ) (cmds : List CmdSend) : Prop where
  lines : Tiles lo (cmds.map lines) ((pkg.data.start.toNat + pkg.data.size.toNat + 15) / 16 * 16)
  masks : Tiles (min (max pkg.data.start.toNat lo) (pkg.data.start.toNat + pkg.data.size.toNat))
    (cmds.map mask) (pkg.data.start.toNat + pkg.data.size.toNat)
  contained : ∀ c ∈ cmds, (Burst.lines c).1 ≤ (mask c).1 ∧ (mask c).2 ≤ (Burst.lines c).2
  ports : ∀ c ∈ cmds, c.2.data.size.toNat = if c.1 = .burst32Cmd then dynamicBurstMaxLength else 1
  ends : OnFinal endOfBurst true cmds
  last : OnFinal (fun c => c.2.last) pkg.last cmds

/-- The descriptor has lines, and does not reach the last line of the address space. -/
structure InRange (vd : VertexDescriptorOrdered) : Prop where
  size : 0 < vd.size.toNat
  end_ : vd.start.toNat + vd.size.toNat < 2 ^ 32 - 16

/-- The end of the lines leaves room for a long burst, or the descriptor is a number of them. -/
def Stops (vd : VertexDescriptorOrdered) : Prop :=
  vd.endAddr.toNat + dynamicBurstMaxLength * 16 ≤ 2 ^ 32 ∨
    dynamicBurstMaxLength * 16 ∣ vd.endAddr.toNat - vd.startAddr.toNat

section Addresses

variable {vd : VertexDescriptorOrdered}

theorem toNat_startAddr : vd.startAddr.toNat = vd.start.toNat / 16 * 16 :=
  toNat_and_fffffff0 _

variable (h : InRange vd)

include h

theorem InRange.toNat_end : vd.end_.toNat = vd.start.toNat + vd.size.toNat := by
  have hend := h.end_
  rw [VertexDescriptorOrdered.end_, BitVec.toNat_add, Nat.mod_eq_of_lt (by omega)]

theorem InRange.toNat_endAddr :
    vd.endAddr.toNat = (vd.start.toNat + vd.size.toNat + 15) / 16 * 16 := by
  have hend := h.end_
  have htemp := (toNat_and_fffffff0 vd.end_).trans (by rw [h.toNat_end])
  unfold VertexDescriptorOrdered.endAddr
  dsimp only
  split
  · rename_i heq
    have hnat := congrArg BitVec.toNat heq
    rw [htemp, h.toNat_end] at hnat
    rw [htemp]
    omega
  · rename_i hne
    have hnat : vd.start.toNat + vd.size.toNat ≠ (vd.start.toNat + vd.size.toNat) / 16 * 16 := by
      intro heq
      apply hne
      apply BitVec.eq_of_toNat_eq
      rw [htemp, h.toNat_end]
      exact heq.symm
    rw [BitVec.toNat_add, htemp, BitVec.toNat_ofNat]
    omega

end Addresses

/-! ## One iteration -/

section Iteration

variable {pkg : AxiPkg VertexDescriptorOrdered} {l : Loop}

theorem toNat_add_lines (x : BitVec 32) (n : ℕ) :
    (x + .ofNat 32 (n * 16)).toNat = (x.toNat + n * 16) % 2 ^ 32 := by
  rw [BitVec.toNat_add, BitVec.toNat_ofNat, Nat.add_mod_mod]

theorem long_iff : long dynamicBurstMaxLength pkg l = true ↔
    (l.currAddr.toNat + 512) % 2 ^ 32 ≤ pkg.data.endAddr.toNat := by
  rw [long, decide_eq_true_iff, ge_iff_le, BitVec.le_def, toNat_add_lines]
  rfl

/-- Without a wrap the loop advances by a long burst, if one fits, and by a line otherwise. -/
theorem burstLength_eq (hroom : l.currAddr.toNat + 512 < 2 ^ 32 ∨
      l.currAddr.toNat + 512 ≤ pkg.data.endAddr.toNat) :
    burstLength dynamicBurstMaxLength pkg l =
      if l.currAddr.toNat + 512 ≤ pkg.data.endAddr.toNat then 32 else 1 := by
  have hend := pkg.data.endAddr.isLt
  have hnowrap : (l.currAddr.toNat + 512) % 2 ^ 32 = l.currAddr.toNat + 512 :=
    Nat.mod_eq_of_lt (by omega)
  rw [burstLength, ← hnowrap, if_congr long_iff rfl rfl]

/-- With a wrap the loop always advances by a long burst. -/
theorem burstLength_wrapped (hwrap : 2 ^ 32 ≤ l.currAddr.toNat + 512)
    (hend : 2 ^ 32 < pkg.data.endAddr.toNat + 512) :
    burstLength dynamicBurstMaxLength pkg l = 32 := by
  have hcurr := l.currAddr.isLt
  rw [burstLength, if_pos (long_iff.mpr (by omega))]

theorem toNat_nextLoop : (nextLoop dynamicBurstMaxLength pkg l).currAddr.toNat =
    (l.currAddr.toNat + burstLength dynamicBurstMaxLength pkg l * 16) % 2 ^ 32 :=
  toNat_add_lines _ _

end Iteration

/-! ## The loop that misses its end -/

/-- Once the distance to an end close to the end of the address space is no number of long
bursts, the loop never stops. -/
theorem decompose_diverges {pkg : AxiPkg VertexDescriptorOrdered}
    (hend : 2 ^ 32 < pkg.data.endAddr.toNat + 512) (haligned : 16 ∣ pkg.data.endAddr.toNat)
    (fuel : ℕ) {l : Loop} (hl : 16 ∣ l.currAddr.toNat)
    (hmiss : l.currAddr.toNat % 512 ≠ pkg.data.endAddr.toNat % 512) :
    decompose dynamicBurstMaxLength pkg fuel l = none := by
  have hne : l.currAddr ≠ pkg.data.endAddr := fun heq => hmiss (by rw [heq])
  induction fuel generalizing l with
  | zero => rw [decompose, if_neg hne]
  | succ fuel ih =>
      have hnext : (nextLoop dynamicBurstMaxLength pkg l).currAddr.toNat = _ := toNat_nextLoop
      have hend' := pkg.data.endAddr.isLt
      have hcurr := l.currAddr.isLt
      have hkept : 16 ∣ (nextLoop dynamicBurstMaxLength pkg l).currAddr.toNat ∧
          (nextLoop dynamicBurstMaxLength pkg l).currAddr.toNat % 512 ≠
            pkg.data.endAddr.toNat % 512 := by
        rw [hnext]
        rcases lt_or_ge (l.currAddr.toNat + 512) (2 ^ 32) with hroom | hwrap
        · rw [burstLength_eq (.inl hroom)]
          split <;> omega
        · rw [burstLength_wrapped hwrap hend]
          omega
      have hne' : (nextLoop dynamicBurstMaxLength pkg l).currAddr ≠ pkg.data.endAddr :=
        fun heq => hkept.2 (by rw [heq])
      rw [decompose, if_neg hne]
      simp only [ih hkept.1 hkept.2 hne', Option.map_none]

/-! ## The loop that meets its end -/

/-- From address `c` on the loop meets the end address `e`. -/
def Meets (c e : ℕ) : Prop := e + 512 ≤ 2 ^ 32 ∨ 512 ∣ e - c

/-- A loop that meets its end advances by what fits and meets it still. -/
theorem nextLoop_meets {pkg : AxiPkg VertexDescriptorOrdered} {l : Loop}
    (hl : 16 ∣ l.currAddr.toNat) (haligned : 16 ∣ pkg.data.endAddr.toNat)
    (hlt : l.currAddr.toNat < pkg.data.endAddr.toNat)
    (hmeets : Meets l.currAddr.toNat pkg.data.endAddr.toNat) :
    ∃ n, burstLength dynamicBurstMaxLength pkg l = n ∧ (n = 32 ∨ n = 1) ∧
      l.currAddr.toNat + n * 16 ≤ pkg.data.endAddr.toNat ∧
      (nextLoop dynamicBurstMaxLength pkg l).currAddr.toNat = l.currAddr.toNat + n * 16 ∧
      Meets (l.currAddr.toNat + n * 16) pkg.data.endAddr.toNat := by
  have hend := pkg.data.endAddr.isLt
  unfold Meets at hmeets ⊢
  refine ⟨_, rfl, ?_⟩
  rw [toNat_nextLoop, burstLength_eq (by omega)]
  split <;> omega

section Commands

variable {pkg : AxiPkg VertexDescriptorOrdered} {l : Loop}

theorem endOfBurst_nextCmd : endOfBurst (nextCmd dynamicBurstMaxLength pkg l) =
    decide ((nextLoop dynamicBurstMaxLength pkg l).currAddr = pkg.data.endAddr) := by
  rw [endOfBurst, nextCmd, sendDynamicCmd, getLsbD_setRange _ _ (by omega)]
  simp [nextLoop]

theorem last_nextCmd : (nextCmd dynamicBurstMaxLength pkg l).2.last =
    (decide ((nextLoop dynamicBurstMaxLength pkg l).currAddr = pkg.data.endAddr) && pkg.last) := by
  rw [nextCmd, sendDynamicCmd, nextLoop]

theorem lines_nextCmd {n : ℕ} (hn : burstLength dynamicBurstMaxLength pkg l = n)
    (hle : n < 2 ^ 32) : lines (nextCmd dynamicBurstMaxLength pkg l) =
      (l.currAddr.toNat, l.currAddr.toNat + 16 * n) := by
  rw [lines, nextCmd, sendDynamicCmd, hn, BitVec.toNat_ofNat, Nat.mod_eq_of_lt hle]

theorem mask_nextCmd (h : InRange pkg.data) : mask (nextCmd dynamicBurstMaxLength pkg l) =
    (max pkg.data.start.toNat l.currAddr.toNat,
      min (nextLoop dynamicBurstMaxLength pkg l).currAddr.toNat
        (pkg.data.start.toNat + pkg.data.size.toNat)) := by
  have hend := h.toNat_end
  have hstart : (if l.currAddr < pkg.data.start then pkg.data.start else l.currAddr).toNat =
      max pkg.data.start.toNat l.currAddr.toNat := by
    split
    · rename_i hlt
      rw [max_eq_left (BitVec.lt_def.mp hlt).le]
    · rename_i hge
      rw [max_eq_right (not_lt.mp fun hlt => hge (BitVec.lt_def.mpr hlt))]
  have hstop : ∀ x : BitVec 32, (if x > pkg.data.end_ then pkg.data.end_ else x).toNat =
      min x.toNat (pkg.data.start.toNat + pkg.data.size.toNat) := by
    intro x
    split
    · rename_i hgt
      rw [← hend, min_eq_right (BitVec.lt_def.mp hgt).le]
    · rename_i hle
      rw [← hend, min_eq_left (not_lt.mp fun hgt => hle (BitVec.lt_def.mpr hgt))]
  rw [mask, nextCmd, sendDynamicCmd, nextLoop, hstart, hstop]

theorem size_nextCmd : (nextCmd dynamicBurstMaxLength pkg l).2.data.size.toNat =
    if (nextCmd dynamicBurstMaxLength pkg l).1 = .burst32Cmd then dynamicBurstMaxLength else 1 := by
  rw [nextCmd, sendDynamicCmd, burstLength]
  cases long dynamicBurstMaxLength pkg l
  · rfl
  · exact BitVec.toNat_ofNat _ _

end Commands

/-- A command and what follows it. -/
theorem Tiled.cons {pkg : AxiPkg VertexDescriptorOrdered} {l : Loop} {rest : List CmdSend} {n : ℕ}
    (h : InRange pkg.data) (hstart : pkg.data.startAddr.toNat ≤ l.currAddr.toNat)
    (hl : 16 ∣ l.currAddr.toNat)
    (hn : burstLength dynamicBurstMaxLength pkg l = n) (hcases : n = 32 ∨ n = 1)
    (hle : l.currAddr.toNat + n * 16 ≤ pkg.data.endAddr.toNat)
    (hnext : (nextLoop dynamicBurstMaxLength pkg l).currAddr.toNat = l.currAddr.toNat + n * 16)
    (hrest : Tiled pkg (l.currAddr.toNat + n * 16) rest)
    (hempty : rest.isEmpty =
      decide ((nextLoop dynamicBurstMaxLength pkg l).currAddr = pkg.data.endAddr)) :
    Tiled pkg l.currAddr.toNat (nextCmd dynamicBurstMaxLength pkg l :: rest) := by
  have hsize := h.size
  have hlines := lines_nextCmd hn (by omega)
  have hmask := mask_nextCmd (l := l) h
  rw [hnext] at hmask
  rw [toNat_startAddr] at hstart
  rw [h.toNat_endAddr] at hle
  refine ⟨?_, ?_, ?_, ?_, ?_, ?_⟩
  · rw [List.map_cons, hlines]
    exact ⟨rfl, by omega, Nat.mul_comm n 16 ▸ hrest.lines⟩
  · rw [List.map_cons, hmask]
    refine ⟨by omega, by omega, ?_⟩
    have hmasks := hrest.masks
    rwa [max_eq_right (by omega)] at hmasks
  · refine List.forall_mem_cons.mpr ⟨?_, hrest.contained⟩
    rw [hlines, hmask]
    simp only
    omega
  · exact List.forall_mem_cons.mpr ⟨size_nextCmd, hrest.ports⟩
  · refine ⟨?_, hrest.ends⟩
    rw [endOfBurst_nextCmd, hempty, Bool.and_true]
  · refine ⟨?_, hrest.last⟩
    rw [hempty]
    exact last_nextCmd

/-- The loop meets its end, and its commands tile the lines on the way. -/
theorem decompose_tiled {pkg : AxiPkg VertexDescriptorOrdered} (h : InRange pkg.data) (fuel : ℕ)
    {l : Loop} (hstart : pkg.data.startAddr.toNat ≤ l.currAddr.toNat)
    (hl : 16 ∣ l.currAddr.toNat) (hle : l.currAddr.toNat ≤ pkg.data.endAddr.toNat)
    (hmeets : Meets l.currAddr.toNat pkg.data.endAddr.toNat)
    (hfuel : pkg.data.endAddr.toNat ≤ l.currAddr.toNat + 16 * fuel) :
    ∃ cmds l', decompose dynamicBurstMaxLength pkg fuel l = some (cmds, l') ∧
      Tiled pkg l.currAddr.toNat cmds ∧
      cmds.isEmpty = decide (l.currAddr = pkg.data.endAddr) := by
  have hend := h.toNat_endAddr
  have hsize := h.size
  have haligned : 16 ∣ pkg.data.endAddr.toNat := ⟨_, by rw [hend, Nat.mul_comm]⟩
  have hdone : ∀ fuel {l : Loop}, l.currAddr = pkg.data.endAddr →
      ∃ cmds l', decompose dynamicBurstMaxLength pkg fuel l = some (cmds, l') ∧
        Tiled pkg l.currAddr.toNat cmds ∧
        cmds.isEmpty = decide (l.currAddr = pkg.data.endAddr) := by
    intro fuel l hl
    refine ⟨[], l, decompose_done _ _ hl fuel, ⟨?_, ?_, by simp, by simp, trivial, trivial⟩,
      by simp [hl]⟩
    · rw [hl]
      exact hend
    · rw [hl, hend]
      change min _ _ = _
      omega
  induction fuel generalizing l with
  | zero => exact hdone 0 (BitVec.eq_of_toNat_eq (by omega))
  | succ fuel ih =>
      by_cases heq : l.currAddr = pkg.data.endAddr
      · exact hdone _ heq
      have hlt : l.currAddr.toNat < pkg.data.endAddr.toNat :=
        lt_of_le_of_ne hle fun hnat => heq (BitVec.eq_of_toNat_eq hnat)
      obtain ⟨n, hn, hcases, hle', hnext, hmeets'⟩ := nextLoop_meets hl haligned hlt hmeets
      rw [← hnext] at hmeets'
      obtain ⟨cmds, l', hcmds, htiled, hempty⟩ := ih (l := nextLoop dynamicBurstMaxLength pkg l)
        (by omega) (by omega) (by omega) hmeets' (by omega)
      refine ⟨nextCmd dynamicBurstMaxLength pkg l :: cmds, l', ?_, ?_, ?_⟩
      · rw [decompose, if_neg heq]
        simp only [hcmds, Option.map_some]
      · rw [hnext] at htiled
        exact htiled.cons h hstart hl hn hcases hle' hnext hempty
      · rw [decide_eq_false heq]
        rfl

/-! ## Dynamic ids -/

/-- The dynamic ids of the commands of a descriptor are consecutive, and the commands of a
descriptor that does not count leave the next one alone. -/
theorem decompose_ids {maxLength : ℕ} {pkg : AxiPkg VertexDescriptorOrdered} {fuel : ℕ}
    {l l' : Loop} {cmds : List CmdSend} {k : ℕ}
    (h : decompose maxLength pkg fuel l = some (cmds, l')) (hk : l.dynamicBurstId = .ofNat 16 k) :
    if pkg.data.counts then
      cmds.map (fun c => c.2.data.dynamicId) = (List.range' k cmds.length).map syncIds.num ∧
        l'.dynamicBurstId = .ofNat 16 (k + cmds.length)
    else l'.dynamicBurstId = .ofNat 16 k := by
  induction fuel generalizing l cmds k with
  | zero =>
      rw [decompose] at h
      split at h
      · cases h
        split
        · exact ⟨rfl, hk⟩
        · exact hk
      · cases h
  | succ fuel ih =>
      rw [decompose] at h
      split at h
      · cases h
        split
        · exact ⟨rfl, hk⟩
        · exact hk
      · obtain ⟨⟨rest, l''⟩, hrest, hcmds⟩ := Option.map_eq_some_iff.mp h
        cases hcmds
        have hid : (nextCmd maxLength pkg l).2.data.dynamicId = syncIds.num k := by
          apply BitVec.eq_of_toNat_eq
          have hand := toNat_and_7fff l.dynamicBurstId
          rw [hk, BitVec.toNat_ofNat] at hand
          have hnum : (syncIds.num k).toNat = k % 2 ^ 15 % 2 ^ 16 := BitVec.toNat_ofNat _ _
          rw [hnum, nextCmd, sendDynamicCmd, hk, hand]
          omega
        cases hcounts : pkg.data.counts
        · have hsame : (nextLoop maxLength pkg l).dynamicBurstId = .ofNat 16 k := by
            rw [nextLoop, hcounts, ← hk]
            rfl
          have hrest' := ih hrest hsame
          rw [hcounts] at hrest'
          exact hrest'
        · have hnext : (nextLoop maxLength pkg l).dynamicBurstId = .ofNat 16 (k + 1) := by
            rw [nextLoop, hcounts, BitVec.ofNat_add, ← hk]
            rfl
          have hrest' := ih hrest hnext
          rw [hcounts] at hrest'
          obtain ⟨hids, hlast⟩ := hrest'
          refine ⟨?_, ?_⟩
          · rw [List.map_cons, hid, hids, List.length_cons, List.range'_succ, List.map_cons]
          · rw [hlast, List.length_cons, Nat.add_assoc, Nat.add_comm 1]

/-- The dynamic ids of the commands of those descriptors that count. -/
def dynamicIds (pkgs : List (AxiPkg VertexDescriptorOrdered)) (cmds : List (List CmdSend)) :
    List (BitVec 16) :=
  (pkgs.zip cmds).flatMap fun x =>
    if x.1.data.counts then x.2.map fun c => c.2.data.dynamicId else []

/-- Over a sequence of descriptors the dynamic ids are consecutive. -/
theorem cmdGenerator_ids {maxLength fuel : ℕ} {pkgs : List (AxiPkg VertexDescriptorOrdered)}
    {cmds : List (List CmdSend)} {k : ℕ}
    (h : cmdGenerator maxLength fuel pkgs (.ofNat 16 k) = some cmds) :
    dynamicIds pkgs cmds = (List.range' k (dynamicIds pkgs cmds).length).map syncIds.num := by
  induction pkgs generalizing cmds k with
  | nil =>
      cases h
      rfl
  | cons pkg pkgs ih =>
      rw [cmdGenerator] at h
      split at h
      · cases h
      · rename_i first l hfirst
        obtain ⟨rest, hrest, rfl⟩ := Option.map_eq_some_iff.mp h
        have hids := decompose_ids hfirst rfl
        simp only [dynamicIds, List.zip_cons_cons, List.flatMap_cons] at ih ⊢
        cases hcounts : pkg.data.counts
        · rw [hcounts] at hids
          rw [hids] at hrest
          exact ih hrest
        · rw [hcounts] at hids
          obtain ⟨hfirstIds, hlast⟩ := hids
          rw [hlast] at hrest
          have hrestIds := ih hrest
          simp only [if_true]
          rw [hfirstIds, List.length_append, List.length_map, List.length_range',
            List.range'_append_1.symm, List.map_append, ← hrestIds]

/-! ## A sequence of descriptors -/

/-- The commands of a sequence of descriptors are as intended. -/
def Generates (pkgs : List (AxiPkg VertexDescriptorOrdered)) : Prop :=
  ∃ fuel cmds, cmdGenerator dynamicBurstMaxLength fuel pkgs 0 = some cmds ∧
    List.Forall₂ (fun pkg c => Tiled pkg (pkg.data.start.toNat / 16 * 16) c) pkgs cmds ∧
    dynamicIds pkgs cmds = (List.range (dynamicIds pkgs cmds).length).map syncIds.num

/-- A loop that stops meets its end from the start. -/
theorem stops_of_decompose {pkg : AxiPkg VertexDescriptorOrdered} (h : InRange pkg.data)
    {fuel : ℕ} {dynamicBurstId : BitVec 16} {r : List CmdSend × Loop}
    (hr : decompose dynamicBurstMaxLength pkg fuel ⟨pkg.data.startAddr, dynamicBurstId⟩ = some r) :
    Stops pkg.data := by
  have hend := h.toNat_endAddr
  have hstart : pkg.data.startAddr.toNat = pkg.data.start.toNat / 16 * 16 := toNat_startAddr
  have hsize := h.size
  by_contra hnot
  obtain ⟨hclose, hodd⟩ := not_or.mp hnot
  have hnone := decompose_diverges (l := ⟨pkg.data.startAddr, dynamicBurstId⟩)
    (not_le.mp hclose) ⟨_, by rw [hend, Nat.mul_comm]⟩ fuel
    ⟨_, by rw [hstart, Nat.mul_comm]⟩ fun hmod => hodd ((Nat.modEq_iff_dvd' (by omega)).mp hmod)
  rw [hnone] at hr
  cases hr

/-- A descriptor whose loop meets its end is decomposed as intended. -/
theorem exists_decompose {pkg : AxiPkg VertexDescriptorOrdered} (h : InRange pkg.data)
    (hstops : Stops pkg.data) (dynamicBurstId : BitVec 16) :
    ∃ cmds l, decompose dynamicBurstMaxLength pkg (2 ^ 28) ⟨pkg.data.startAddr, dynamicBurstId⟩ =
      some (cmds, l) ∧ Tiled pkg (pkg.data.start.toNat / 16 * 16) cmds := by
  have hend := h.toNat_endAddr
  have hstart : pkg.data.startAddr.toNat = pkg.data.start.toNat / 16 * 16 := toNat_startAddr
  have hlt := pkg.data.endAddr.isLt
  obtain ⟨cmds, l, hcmds, htiled, -⟩ := decompose_tiled h (2 ^ 28)
    (l := ⟨pkg.data.startAddr, dynamicBurstId⟩) le_rfl ⟨_, by rw [hstart, Nat.mul_comm]⟩
    (by simp only; omega) hstops (by omega)
  rw [← hstart]
  exact ⟨cmds, l, hcmds, htiled⟩

/-- For every sequence of descriptors that have lines and end before the last line of the address
space: all loops stop with the intended commands exactly if the end of every descriptor leaves room
for a long burst, or its lines are a number of them. -/
theorem cmdGenerator_generates (pkgs : List (AxiPkg VertexDescriptorOrdered))
    (hrange : ∀ pkg ∈ pkgs, InRange pkg.data) :
    Generates pkgs ↔ ∀ pkg ∈ pkgs, Stops pkg.data := by
  constructor
  · rintro ⟨fuel, cmds, hcmds, -⟩
    generalize (0 : BitVec 16) = dynamicBurstId at hcmds
    induction pkgs generalizing cmds dynamicBurstId with
    | nil => simp
    | cons pkg pkgs ih =>
        rw [cmdGenerator] at hcmds
        split at hcmds
        · cases hcmds
        · rename_i first l hfirst
          obtain ⟨rest, hrest, -⟩ := Option.map_eq_some_iff.mp hcmds
          obtain ⟨hpkg, hpkgs⟩ := List.forall_mem_cons.mp hrange
          exact List.forall_mem_cons.mpr
            ⟨stops_of_decompose hpkg hfirst, ih hpkgs _ _ hrest⟩
  · intro hstops
    have hall : ∀ dynamicBurstId, ∃ cmds,
        cmdGenerator dynamicBurstMaxLength (2 ^ 28) pkgs dynamicBurstId = some cmds ∧
          List.Forall₂ (fun pkg c => Tiled pkg (pkg.data.start.toNat / 16 * 16) c) pkgs cmds := by
      induction pkgs with
      | nil => exact fun _ => ⟨[], rfl, .nil⟩
      | cons pkg pkgs ih =>
          intro dynamicBurstId
          obtain ⟨hpkg, hpkgs⟩ := List.forall_mem_cons.mp hrange
          obtain ⟨hstop, hstopss⟩ := List.forall_mem_cons.mp hstops
          obtain ⟨first, l, hfirst, htiled⟩ := exists_decompose hpkg hstop dynamicBurstId
          obtain ⟨rest, hrest, hforall⟩ := ih hpkgs hstopss l.dynamicBurstId
          refine ⟨first :: rest, ?_, .cons htiled hforall⟩
          rw [cmdGenerator, hfirst]
          simp only [hrest, Option.map_some]
    obtain ⟨cmds, hcmds, hforall⟩ := hall 0
    refine ⟨2 ^ 28, cmds, hcmds, hforall, ?_⟩
    rw [List.range_eq_range']
    exact cmdGenerator_ids (k := 0) hcmds

/-- A descriptor of 33 lines from address 0 on. -/
def firstLines : AxiPkg VertexDescriptorOrdered := ⟨⟨0, 33 * 16, 0, 0, 0⟩, true⟩

/-- It is decomposed as intended. -/
theorem cmdGenerator_generates_firstLines : Generates [firstLines] :=
  (cmdGenerator_generates [firstLines] (by simpa using ⟨by decide, by decide⟩)).mpr
    (by simpa using .inl (by decide))

/-- A descriptor of two lines close to the end of the address space. -/
def lastLines : AxiPkg VertexDescriptorOrdered := ⟨⟨0xffffff00#32, 0x20, 0, 0, 0⟩, false⟩

/-- Its loop never stops. -/
theorem cmdGenerator_lastLines :
    ¬ ∀ pkgs : List (AxiPkg VertexDescriptorOrdered), (∀ pkg ∈ pkgs, InRange pkg.data) →
      Generates pkgs := by
  intro hall
  have hrange : ∀ pkg ∈ [lastLines], InRange pkg.data := by simpa using ⟨by decide, by decide⟩
  have hstops := (cmdGenerator_generates [lastLines] hrange).mp (hall _ hrange)
  have hlast : ¬ Stops lastLines.data := by
    rintro (hroom | hdvd)
    · exact absurd hroom (by decide)
    · exact absurd hdvd (by decide)
  exact hlast (hstops _ List.mem_cons_self)

end RidgeWalker.Burst
