import RidgeWalker.Dataflow.Lanes
import RidgeWalker.Memory.Lane
import RidgeWalker.Rng.Periods

/-!
# The lanes of random words

`rng_instance` turns every state of `irsgu` into a line of sixteen random words.  Each lane mixes the
state with a xorshift generator of its own, and all lanes work on their own; still word `i` of line
`k` is made of state `k` and of step `k` of generator `i`.

Main results:

- Theorem `rng_lines`: the lines that leave `rng_instance` are those of the states that it reads, and
  no state is held back.
-/

namespace RidgeWalker.Rng

open Bits Dataflow Network Memory Function

/-! ## The functions of `sou_function.h` -/

/-- `multi_stream`. -/
def multiStream (state seq : BitVec 64) : BitVec 64 := state + ((rngA * (seq <<< 1)) ||| 1)

/-- `output_function`. -/
def outputFunction (oldstate : BitVec 64) : BitVec 32 :=
  let xorshifted : BitVec 32 := (((oldstate >>> 18) ^^^ oldstate) >>> 27).setWidth 32
  let rot : BitVec 32 := (oldstate >>> 59).setWidth 32
  (xorshifted >>> rot) ||| (xorshifted <<< ((-rot) &&& 31))

/-! ## The processes -/

/-- `axis_to_hls_stream` on states. -/
def axisToHlsStream : Emitter (AxiPkg (BitVec 64)) fun _ : Unit => BitVec 64 :=
  mapEmitter AxiPkg.data

/-- `NRNG`. -/
abbrev nRng : ℕ := 16

/-- `KERNEL_ID`. -/
def kernelId : ℕ := 1

/-- A line of random words. -/
abbrev RngLine : Type := Fin nRng → BitVec 32

/-- `state_duplicate`. -/
def stateDuplicate : Emitter (BitVec 64) fun _ : Fin nRng => BitVec 64 :=
  forkEmitter nRng (BitVec 64)

/-- What `leaf_state_stream` makes of a state. -/
def leafState (localId : Fin nRng) (state : BitVec 64) : BitVec 32 :=
  let id := kernelId + localId
  let update := multiStream state (.ofNat 64 (54 + id))
  outputFunction update

/-- `leaf_state_stream`. -/
def leafStateStream (localId : Fin nRng) : Emitter (BitVec 64) fun _ : Unit => BitVec 32 :=
  mapEmitter (leafState localId)

/-- The seed of a lane: `tmp_xor32_s` at `KERNEL_ID + local_id`, where `KERNEL_ID` is one. -/
def laneSeed (localId : Fin nRng) : BitVec 32 := tmpXor32s localId.succ

/-- `instance`; `sg_state` is kept from word to word. -/
def instanceStream (localId : Fin nRng) : Emitter (BitVec 32) fun _ : Unit => BitVec 32 where
  σ := BitVec 32
  start := laneSeed localId
  answer sgState rng :=
    let sg := xorshiftjump sgState
    (sg, [⟨(), sg ^^^ rng⟩])

/-- `output_merge`. -/
def outputMerge : Kernel (fun _ : Fin nRng => BitVec 32) (fun _ : Unit => RngLine) :=
  joinKernel id fun _ => 0

/-- `hls_to_axis_stream` on lines. -/
def hlsToAxisStream : Emitter RngLine fun _ : Unit => AxiPkg RngLine :=
  mapEmitter fun data => ⟨data, false⟩

/-- What a lane makes of the states. -/
def laneWords (localId : Fin nRng) (states : List (BitVec 64)) : List (BitVec 32) :=
  states.mapIdx fun k state =>
    xorshiftjump^[k + 1] (laneSeed localId) ^^^ leafState localId state

/-- The lines of random words of the states. -/
def rngLines (states : List (BitVec 64)) : List RngLine :=
  states.mapIdx fun k state localId =>
    xorshiftjump^[k + 1] (laneSeed localId) ^^^ leafState localId state

theorem rngLines_lane (i : Fin nRng) (states : List (BitVec 64)) :
    (rngLines states).map (fun line => line i) = laneWords i states := by
  simp only [rngLines, laneWords, List.mapIdx_eq_zipIdx_map, List.map_map]
  rfl

theorem sentTo_instanceStream (i : Fin nRng) (sgState : BitVec 32) (words : List (BitVec 32)) :
    sentTo () ((instanceStream i).answers (sgState : (instanceStream i).σ) words) =
      words.mapIdx fun k rng => xorshiftjump^[k + 1] sgState ^^^ rng := by
  induction words generalizing sgState with
  | nil => rfl
  | cons rng words ih =>
      have hrest := ih (xorshiftjump sgState)
      rw [List.mapIdx_cons]
      exact congrArg (List.cons (xorshiftjump sgState ^^^ rng)) hrest

theorem laneWords_eq (i : Fin nRng) (states : List (BitVec 64)) :
    laneWords i states = (states.map (leafState i)).mapIdx fun k rng =>
      xorshiftjump^[k + 1] (laneSeed i) ^^^ rng := by
  simp only [laneWords, List.mapIdx_eq_zipIdx_map, List.zipIdx_map, List.map_map]
  rfl

theorem mapIdx_isPrefix {A B : Type} (f : ℕ → A → B) {l l' : List A} (h : l <+: l') :
    l.mapIdx f <+: l'.mapIdx f := by
  obtain ⟨t, rfl⟩ := h
  rw [List.mapIdx_append]
  exact List.prefix_append _ _

/-! ## The network -/

/-- The sorts of streams of `rng_instance`. -/
inductive RngSort where
  | statePkg
  | state
  | word
  | line
  | linePkg
deriving DecidableEq

/-- The words of every sort. -/
abbrev RngWord : RngSort → Type
  | .statePkg => AxiPkg (BitVec 64)
  | .state => BitVec 64
  | .word => BitVec 32
  | .line => RngLine
  | .linePkg => AxiPkg RngLine

/-- The streams of `rng_instance`. -/
inductive RngStream : RngSort → Type where
  | sIn : RngStream .statePkg
  | sInner : RngStream .state
  | s (i : Fin nRng) : RngStream .state
  | leafState (i : Fin nRng) : RngStream .word
  | o (i : Fin nRng) : RngStream .word
  | wInner : RngStream .line
  | rng : RngStream .linePkg
deriving DecidableEq

/-- A stream as a stream of the system. -/
abbrev RngStream.chan {x : RngSort} (c : RngStream x) : Chan RngStream := ⟨x, c⟩

/-- The processes of `rng_instance`. -/
inductive RngProc where
  | axisToHls
  | stateDuplicate
  | leafStateStream (i : Fin nRng)
  | instance_ (i : Fin nRng)
  | outputMerge
  | hlsToAxis
deriving DecidableEq, Fintype

/-- The call of each process. -/
def rngCall : RngProc → Call RngStream RngWord
  | .axisToHls => {
      In := Unit
      Out := Unit
      src := fun _ => RngStream.sIn.chan
      dst := fun _ => RngStream.sInner.chan
      kernel := emitterKernel axisToHlsStream }
  | .stateDuplicate => {
      In := Unit
      Out := Fin nRng
      src := fun _ => RngStream.sInner.chan
      dst := fun i => (RngStream.s i).chan
      kernel := emitterKernel stateDuplicate }
  | .leafStateStream i => {
      In := Unit
      Out := Unit
      src := fun _ => (RngStream.s i).chan
      dst := fun _ => (RngStream.leafState i).chan
      kernel := emitterKernel (leafStateStream i) }
  | .instance_ i => {
      In := Unit
      Out := Unit
      src := fun _ => (RngStream.leafState i).chan
      dst := fun _ => (RngStream.o i).chan
      kernel := emitterKernel (instanceStream i) }
  | .outputMerge => {
      In := Fin nRng
      Out := Unit
      src := fun i => (RngStream.o i).chan
      dst := fun _ => RngStream.wInner.chan
      kernel := outputMerge }
  | .hlsToAxis => {
      In := Unit
      Out := Unit
      src := fun _ => RngStream.wInner.chan
      dst := fun _ => RngStream.rng.chan
      kernel := emitterKernel hlsToAxisStream }

/-- `rng_instance`, with streams of any depth. -/
def rngInstance (depth : Chan RngStream → ℕ) : Network RngProc RngStream RngWord where
  node := rngCall
  depth := depth

variable {depth : Chan RngStream → ℕ}

theorem rngInstance_pointToPoint : (rngInstance depth).PointToPoint := by
  constructor
  · rintro ⟨p, i⟩ ⟨q, j⟩ h
    cases p <;> cases q <;> first | (cases h; rfl) | cases h
  · rintro ⟨p, i⟩ ⟨q, j⟩ h
    cases p <;> cases q <;> first | (cases h; rfl) | cases h

section Account

variable {s : (rngInstance depth).State} (hs : (rngInstance depth).Reachable s)
include hs

theorem sInner_written :
    s.written RngStream.sInner.chan ++ sentTo () (s.regs .axisToHls).2 =
      (s.taken RngStream.sIn.chan).map AxiPkg.data := by
  have h := emitter_path axisToHlsStream (hs.path rngInstance_pointToPoint .axisToHls) ()
  exact h.trans (sentTo_mapEmitter _ _)

theorem s_written (i : Fin nRng) :
    s.written (RngStream.s i).chan ++ sentTo i (s.regs .stateDuplicate).2 =
      s.taken RngStream.sInner.chan := by
  have h := emitter_path stateDuplicate (hs.path rngInstance_pointToPoint .stateDuplicate) i
  exact h.trans (sentTo_forkEmitter i _)

theorem leafState_written (i : Fin nRng) :
    s.written (RngStream.leafState i).chan ++ sentTo () (s.regs (.leafStateStream i)).2 =
      (s.taken (RngStream.s i).chan).map (leafState i) := by
  have h := emitter_path (leafStateStream i)
    (hs.path rngInstance_pointToPoint (.leafStateStream i)) ()
  exact h.trans (sentTo_mapEmitter _ _)

theorem o_written (i : Fin nRng) :
    s.written (RngStream.o i).chan ++ sentTo () (s.regs (.instance_ i)).2 =
      (s.taken (RngStream.leafState i).chan).mapIdx fun k rng =>
        xorshiftjump^[k + 1] (laneSeed i) ^^^ rng := by
  have h := emitter_path (instanceStream i) (hs.path rngInstance_pointToPoint (.instance_ i)) ()
  exact h.trans (sentTo_instanceStream i _ _)

theorem rng_written :
    s.written RngStream.rng.chan ++ sentTo () (s.regs .hlsToAxis).2 =
      (s.taken RngStream.wInner.chan).map fun data => ⟨data, false⟩ := by
  have h := emitter_path hlsToAxisStream (hs.path rngInstance_pointToPoint .hlsToAxis) ()
  exact h.trans (sentTo_mapEmitter _ _)

/-- The words of a lane are those of the states that were read. -/
theorem o_isPrefix (i : Fin nRng) : s.written (RngStream.o i).chan <+:
    laneWords i ((s.taken RngStream.sIn.chan).map AxiPkg.data) := by
  have hstates : s.taken (RngStream.s i).chan <+:
      (s.taken RngStream.sIn.chan).map AxiPkg.data :=
    calc s.taken (RngStream.s i).chan <+: s.written (RngStream.s i).chan := s.taken_isPrefix _
      _ <+: s.taken RngStream.sInner.chan := ⟨_, s_written hs i⟩
      _ <+: s.written RngStream.sInner.chan := s.taken_isPrefix _
      _ <+: (s.taken RngStream.sIn.chan).map AxiPkg.data := ⟨_, sInner_written hs⟩
  have hleaves : s.taken (RngStream.leafState i).chan <+:
      ((s.taken RngStream.sIn.chan).map AxiPkg.data).map (leafState i) :=
    calc s.taken (RngStream.leafState i).chan
      _ <+: s.written (RngStream.leafState i).chan := s.taken_isPrefix _
      _ <+: (s.taken (RngStream.s i).chan).map (leafState i) := ⟨_, leafState_written hs i⟩
      _ <+: _ := hstates.map _
  rw [laneWords_eq]
  exact List.IsPrefix.trans ⟨_, o_written hs i⟩ (mapIdx_isPrefix _ hleaves)

/-- The rounds of `output_merge` are lines of the states that were read. -/
theorem exists_rounds : ∃ rounds : List RngLine,
    rounds <+: rngLines ((s.taken RngStream.sIn.chan).map AxiPkg.data) ∧
      Joined id rounds (s.regs .outputMerge) (fun i => s.taken (RngStream.o i).chan)
        (s.written RngStream.wInner.chan) := by
  obtain ⟨rounds, h⟩ := join_history (hs.path rngInstance_pointToPoint .outputMerge)
  refine ⟨rounds, rounds_isPrefix fun i => ?_, h⟩
  have hreceived : rounds.map (fun v => v i) <+: s.taken (RngStream.o i).chan := h.received i
  rw [rngLines_lane]
  exact hreceived.trans ((s.taken_isPrefix _).trans (o_isPrefix hs i))

theorem rng_isPrefix : (s.written RngStream.rng.chan).map AxiPkg.data <+:
    rngLines ((s.taken RngStream.sIn.chan).map AxiPkg.data) := by
  obtain ⟨rounds, hrounds, h⟩ := exists_rounds hs
  have hwords : (s.written RngStream.rng.chan).map AxiPkg.data <+:
      s.taken RngStream.wInner.chan := by
    have hpre : s.written RngStream.rng.chan <+: _ := ⟨_, rng_written hs⟩
    have hmap := hpre.map AxiPkg.data
    rwa [List.map_map, show AxiPkg.data ∘ (fun data : RngLine => (⟨data, false⟩ : AxiPkg RngLine)) =
      id from rfl, List.map_id] at hmap
  have hsent := h.sent
  rw [List.map_id] at hsent
  exact hwords.trans ((s.taken_isPrefix _).trans (hsent.trans hrounds))

/-- A lane passes on no more words than it gets states. -/
theorem lane_le (i : Fin nRng) :
    (s.taken (RngStream.o i).chan).length ≤ (s.taken (RngStream.s i).chan).length := by
  have hwords := (s.taken_isPrefix (RngStream.o i).chan).length_le
  have hleaves := (s.taken_isPrefix (RngStream.leafState i).chan).length_le
  have ho := congrArg List.length (o_written hs i)
  have hleaf := congrArg List.length (leafState_written hs i)
  rw [List.length_append, List.length_mapIdx] at ho
  rw [List.length_append, List.length_map] at hleaf
  omega

end Account

/-! ## At a standstill -/

section Rest

variable {s : (rngInstance depth).State} (hs : (rngInstance depth).Reachable s)
  (hstill : (rngInstance depth).Still s) (hdepth : ∀ c, 1 ≤ depth c)
include hs hstill hdepth

/-- A lane whose words have all been read has passed all its states on. -/
theorem lane_rests {i : Fin nRng} (ho : (s.fifo (RngStream.o i).chan).queue = []) :
    (s.written (RngStream.s i).chan).length = (s.taken (RngStream.o i).chan).length := by
  have hroom : ∀ {c : Chan RngStream}, (s.fifo c).queue = [] →
      (s.fifo c).queue.length < depth c := by
    intro c hc
    rw [hc]
    exact hdepth c
  obtain ⟨hsends, hleaf⟩ := Network.emitter_rests (hstill (.instance_ i)) fun _ => hroom ho
  obtain ⟨hsends', hqueue⟩ := Network.emitter_rests (hstill (.leafStateStream i)) fun _ =>
    hroom hleaf
  have hwords := congrArg List.length (o_written hs i)
  have hleaves := congrArg List.length (leafState_written hs i)
  rw [hsends, sentTo, List.append_nil, List.length_mapIdx] at hwords
  rw [hsends', sentTo, List.append_nil, List.length_map] at hleaves
  rw [s.taken_eq_written ho, hwords, s.taken_eq_written hleaf, hleaves, s.taken_eq_written hqueue]

/-- Nothing is held back at a standstill, if there is room for the lines. -/
theorem rng_complete (hroom : (s.fifo RngStream.rng.chan).queue.length < depth RngStream.rng.chan) :
    (s.written RngStream.rng.chan).length = (s.written RngStream.sIn.chan).length := by
  have hempty : ∀ {c : Chan RngStream}, (s.fifo c).queue = [] →
      (s.fifo c).queue.length < depth c := by
    intro c hc
    rw [hc]
    exact hdepth c
  obtain ⟨hrng, hwInner⟩ := Network.emitter_rests (hstill .hlsToAxis) fun _ => hroom
  obtain ⟨rounds, -, h⟩ := exists_rounds hs
  have hjoin : ∃ i w, s.regs .outputMerge = JoinRegs.read i w ∧
      (s.fifo (RngStream.o i).chan).queue = [] :=
    join_still (hstill .outputMerge) (hempty hwInner)
  obtain ⟨i, w, hregs, ho⟩ := hjoin
  obtain ⟨hlines, hreads⟩ := h.length i w hregs
  have hlane := lane_rests hs hstill hdepth ho
  have hi := hreads i
  rw [if_neg (lt_irrefl i)] at hi
  -- A lane that is full would be ahead of the lane that `output_merge` waits for.
  obtain ⟨hfork, hsInner⟩ : (s.regs .stateDuplicate).2 = [] ∧
      (s.fifo RngStream.sInner.chan).queue = [] := by
    rcases Network.emitter_still (hstill .stateDuplicate) with hrests | ⟨j, b, rest, -, hfull⟩
    · exact hrests
    · have hj := hreads j
      have hle := lane_le hs j
      have hone := hdepth (RngStream.s j).chan
      have hwritten : (s.written (RngStream.s j).chan).length =
          (s.taken (RngStream.s j).chan).length + (s.fifo (RngStream.s j).chan).queue.length := by
        simp [Network.State.written, Network.State.taken, Fifo.written]
      have hpath := hs.path rngInstance_pointToPoint .stateDuplicate
      have hfull' : depth (RngStream.s j).chan ≤ (s.fifo (RngStream.s j).chan).queue.length := hfull
      rcases lt_or_ge j i with hji | hij
      · have hlengths : (s.written (RngStream.s i).chan).length ≤
            (s.written (RngStream.s j).chan).length ∧ (s.written (RngStream.s j).chan).length ≤
              (s.written (RngStream.s i).chan).length + 1 := fork_lengths hpath hji.le
        rw [if_pos hji] at hj
        omega
      · have hlengths : (s.written (RngStream.s j).chan).length ≤
            (s.written (RngStream.s i).chan).length ∧ (s.written (RngStream.s i).chan).length ≤
              (s.written (RngStream.s j).chan).length + 1 := fork_lengths hpath hij
        rw [if_neg (not_lt.mpr hij)] at hj
        omega
  obtain ⟨haxis, hsIn⟩ := Network.emitter_rests (hstill .axisToHls) fun _ => hempty hsInner
  have hstates := s_written hs i
  have hpkgs := congrArg List.length (sInner_written hs)
  have hwords := congrArg List.length (rng_written hs)
  rw [hfork, sentTo, List.append_nil] at hstates
  rw [haxis, sentTo, List.append_nil, List.length_map, s.taken_eq_written hsIn] at hpkgs
  rw [hrng, sentTo, List.append_nil, List.length_map, s.taken_eq_written hwInner, hlines,
    List.length_map] at hwords
  rw [hstates, s.taken_eq_written hsInner] at hlane
  omega

end Rest

/-- For every stream of states, all depths of the streams and every interleaving of the lanes: the
lines that leave `rng_instance` are the first ones of those of the states that it has read, and when
it stands still and the lines have room, they are the lines of all states. -/
theorem rng_lines (depth : Chan RngStream → ℕ) {s : (rngInstance depth).State}
    (hs : (rngInstance depth).Reachable s) :
    (s.written RngStream.rng.chan).map AxiPkg.data <+:
        rngLines ((s.taken RngStream.sIn.chan).map AxiPkg.data) ∧
      ((∀ c, 1 ≤ depth c) → (rngInstance depth).Still s →
        (s.fifo RngStream.rng.chan).queue.length < depth RngStream.rng.chan →
          (s.written RngStream.rng.chan).map AxiPkg.data =
            rngLines ((s.written RngStream.sIn.chan).map AxiPkg.data)) := by
  refine ⟨rng_isPrefix hs, fun hdepth hstill hroom => ?_⟩
  have hstates : (s.taken RngStream.sIn.chan).map AxiPkg.data <+:
      (s.written RngStream.sIn.chan).map AxiPkg.data :=
    List.IsPrefix.map _ (s.taken_isPrefix RngStream.sIn.chan)
  have hpre : (s.written RngStream.rng.chan).map AxiPkg.data <+:
      rngLines ((s.written RngStream.sIn.chan).map AxiPkg.data) :=
    (rng_isPrefix hs).trans (mapIdx_isPrefix _ hstates)
  refine hpre.eq_of_length ?_
  rw [rngLines, List.length_mapIdx, List.length_map, List.length_map]
  exact rng_complete hs hstill hdepth hroom

/-- `rng_instance` on streams that hold three words. -/
abbrev smallRng : Network RngProc RngStream RngWord := rngInstance fun _ => 3

/-- Two states pass all lanes. -/
def passTwo : List smallRng.Action :=
  [.put RngStream.sIn.chan ⟨baseSequence 0, false⟩, .put RngStream.sIn.chan ⟨baseSequence 1, false⟩] ++
    List.replicate 4 (.fire .axisToHls none) ++ List.replicate 34 (.fire .stateDuplicate none) ++
      (List.finRange nRng).flatMap (fun i => List.replicate 4 (.fire (.leafStateStream i) none) ++
        List.replicate 4 (.fire (.instance_ i) none)) ++
          List.replicate 34 (.fire .outputMerge none) ++ List.replicate 4 (.fire .hlsToAxis none)

/-- The words that a process on one stream has still to send. -/
def unsent (s : smallRng.State) : RngProc → ℕ
  | .axisToHls => (s.regs .axisToHls).2.length
  | .stateDuplicate => (s.regs .stateDuplicate).2.length
  | .leafStateStream i => (s.regs (.leafStateStream i)).2.length
  | .instance_ i => (s.regs (.instance_ i)).2.length
  | .hlsToAxis => (s.regs .hlsToAxis).2.length
  | .outputMerge => JoinRegs.lane (s.regs .outputMerge)

/-- What a process reads next is not queued. -/
def starved (s : smallRng.State) : RngProc → Bool
  | .axisToHls => (s.fifo RngStream.sIn.chan).queue.isEmpty
  | .stateDuplicate => (s.fifo RngStream.sInner.chan).queue.isEmpty
  | .leafStateStream i => (s.fifo (RngStream.s i).chan).queue.isEmpty
  | .instance_ i => (s.fifo (RngStream.leafState i).chan).queue.isEmpty
  | .outputMerge => (s.fifo (RngStream.o 0).chan).queue.isEmpty
  | .hlsToAxis => (s.fifo RngStream.wInner.chan).queue.isEmpty

theorem still_of_starved {s : smallRng.State} (hunsent : ∀ p, unsent s p = 0)
    (hstarved : ∀ p, starved s p) : smallRng.Still s := by
  have hqueue : ∀ {c : Chan RngStream}, (s.fifo c).queue.isEmpty → (s.fifo c).queue = [] :=
    List.isEmpty_iff.mp
  intro p
  have hp := hunsent p
  have hs := hstarved p
  cases p with
  | outputMerge => exact join_idle (i := 0) hp (hqueue hs)
  | axisToHls => exact Network.emitter_idle (List.eq_nil_of_length_eq_zero hp) (hqueue hs)
  | stateDuplicate => exact Network.emitter_idle (List.eq_nil_of_length_eq_zero hp) (hqueue hs)
  | leafStateStream i => exact Network.emitter_idle (List.eq_nil_of_length_eq_zero hp) (hqueue hs)
  | instance_ i => exact Network.emitter_idle (List.eq_nil_of_length_eq_zero hp) (hqueue hs)
  | hlsToAxis => exact Network.emitter_idle (List.eq_nil_of_length_eq_zero hp) (hqueue hs)

set_option maxRecDepth 8000 in
/-- Two lines leave `rng_instance`, which stands still then. -/
theorem rng_lines_two : ∃ s : smallRng.State, (s.written RngStream.rng.chan).length = 2 ∧
    (s.written RngStream.rng.chan).map AxiPkg.data =
      rngLines ((s.written RngStream.sIn.chan).map AxiPkg.data) := by
  obtain ⟨tr, s, hs⟩ : ∃ tr s, Network.execute (fun _ _ => True) passTwo []
      smallRng.init = some (tr, s) := ⟨_, _, rfl⟩
  have hstate : (s.written RngStream.rng.chan).length = 2 ∧ (∀ p, unsent s p = 0) ∧
      (∀ p, starved s p) ∧ (s.fifo RngStream.rng.chan).queue.length < 3 := by
    cases hs
    decide +kernel
  obtain ⟨htwo, hunsent, hstarved, hroom⟩ := hstate
  exact ⟨s, htwo, (rng_lines (fun _ => 3) ⟨tr, (Network.execute_run .nil hs).run⟩).2
    (fun _ => by decide) (still_of_starved hunsent hstarved) hroom⟩

end RidgeWalker.Rng
