import RidgeWalker.Bits.Ranges
import RidgeWalker.Dataflow.Streams

/-!
# Kernels of the weighted reservoir sampler

Six kernels sample weight lists that arrive in lines of sixteen lanes.  Each reads one word
from every input and then writes one word to every output; they pair their streams by
position.

Main results:

- Definitions `partialSums`, `perfixSums`, `scaleItem`, `maskItem` and `sampleStep`: what one
  line is turned into.
- Theorems `bsDuplicatorRounds_sound` to `sampleRounds_sound`: what every kernel sends, as a
  function of what it has received.
-/

namespace RidgeWalker.Wrs

open Dataflow Bits

/-! ## Words -/

/-- `NUM_OF_WEIGHTS`. -/
abbrev numOfWeights : ℕ := 16

/-- `weight_item_t`: the sixteen 32-bit ranges of a 512-bit word. -/
abbrev WeightItem : Type := Fin numOfWeights → BitVec 32

/-- `rs_mask_item_t`: a bit for every lane. -/
abbrev MaskItem : Type := Fin numOfWeights → Bool

/-- `burst_sync_t` and its `last` flag. -/
structure BurstSyncPkg where
  addr : BitVec 32
  id : BitVec 16
  burstId : BitVec 16
  last : Bool
deriving DecidableEq

/-- `burst_id & 0x8000`. -/
def BurstSyncPkg.ends (p : BurstSyncPkg) : Bool := p.burstId &&& 0x8000#16 != 0#16

/-- `next_vertex_ordered_t` and its `last` flag. -/
structure NextVertexPkg where
  vertex : BitVec 32
  id : BitVec 16
  last : Bool
deriving DecidableEq

/-- The sorts of streams. -/
inductive WrsSort where
  | sync
  | weight
  | mask
  | next
deriving DecidableEq

/-- The words of every sort. -/
abbrev WrsWord : WrsSort → Type
  | .sync => BurstSyncPkg
  | .weight => WeightItem
  | .mask => MaskItem
  | .next => NextVertexPkg

/-! ## One line -/

/-- The loop of `partial_sum` over the lanes of a line. -/
def partialSums (weights : WeightItem) : WeightItem :=
  Fin.induction (motive := fun _ => BitVec 32) (weights 0) fun i sum => sum + weights i.succ

/-- The lane at `range(512 - 1, 512 - 32)`. -/
def lastLane (data : WeightItem) : BitVec 32 := data 15

/-- `base_sum` of `perfix_sum` after a line. -/
def nextBase (base : WeightItem) (sync : BurstSyncPkg) (data : WeightItem) : WeightItem :=
  fun i => if sync.ends then 0 else base i + lastLane data

/-- The product of `scale_weight`, truncated. -/
def scaleItem (rngs pwss basev : WeightItem) : WeightItem := fun i =>
  range ((rngs i).setWidth 64 * ((pwss i).setWidth 33 + (basev i).setWidth 33).setWidth 64) 32 32

/-- The comparison of `reservoir_mask`. -/
def maskItem (weights scales : WeightItem) : MaskItem := fun i => decide (scales i < weights i)

/-- `MSB_OF_4BIT`. -/
def msbOf4Bit (masks : MaskItem) (start : Fin numOfWeights) : ℕ :=
  if masks start then start + 1
  else if masks (start - 1) then start
  else if masks (start - 2) then start - 1
  else if masks (start - 3) then start - 2
  else 0

/-- The priority reduction of `sample`: the highest lane of a mask, counted from one. -/
def msbBit (masks : MaskItem) : ℕ :=
  let msb0 := msbOf4Bit masks 15
  let msb1 := msbOf4Bit masks 11
  let msb2 := msbOf4Bit masks 7
  let msb3 := msbOf4Bit masks 3
  let level0 := if msb0 > msb1 then msb0 else msb1
  let level1 := if msb2 > msb3 then msb2 else msb3
  if level0 > level1 then level0 else level1

/-- `selected_index` after a line. -/
def selectLine (selected : BitVec 32) (sync : BurstSyncPkg) (masks : MaskItem) : BitVec 32 :=
  if msbBit masks ≠ 0 then sync.addr + BitVec.ofNat 32 (msbBit masks - 1) else selected

/-- The package `sample` sends at the end of a list. -/
def outPkg (selected : BitVec 32) (sync : BurstSyncPkg) : NextVertexPkg :=
  ⟨selected, sync.id, sync.last⟩

/-! ## Sequences of lines -/

/-- What `perfix_sum` sends for a sequence of lines. -/
def perfixSums (base : WeightItem) : List (BurstSyncPkg × WeightItem) → List WeightItem
  | [] => []
  | (sync, data) :: rest => base :: perfixSums (nextBase base sync data) rest

/-- `base_sum` of `perfix_sum` after a sequence of lines. -/
def baseAfter (base : WeightItem) (lines : List (BurstSyncPkg × WeightItem)) : WeightItem :=
  lines.foldl (fun base line => nextBase base line.1 line.2) base

/-- `selected_index` of `sample` when no lane of the current list has been selected. -/
def noIndex : BitVec 32 := 0x80000000#32

/-- `selected_index` of `sample` for the next line. -/
def nextSelected (selected : BitVec 32) (sync : BurstSyncPkg) (masks : MaskItem) : BitVec 32 :=
  if sync.ends then noIndex else selectLine selected sync masks

/-- What `sample` sends for a sequence of lines. -/
def samples (selected : BitVec 32) : List (BurstSyncPkg × MaskItem) → List NextVertexPkg
  | [] => []
  | (sync, masks) :: rest =>
      (if sync.ends then [outPkg (selectLine selected sync masks) sync] else []) ++
        samples (nextSelected selected sync masks) rest

/-- `selected_index` of `sample` after a sequence of lines. -/
def selectedAfter (selected : BitVec 32) (lines : List (BurstSyncPkg × MaskItem)) : BitVec 32 :=
  lines.foldl (fun selected line => nextSelected selected line.1 line.2) selected

theorem perfixSums_append (base : WeightItem) (lines lines' : List (BurstSyncPkg × WeightItem)) :
    perfixSums base (lines ++ lines') =
      perfixSums base lines ++ perfixSums (baseAfter base lines) lines' := by
  induction lines generalizing base with
  | nil => rfl
  | cons line rest ih => simp [perfixSums, baseAfter, ih]

theorem samples_append (selected : BitVec 32) (lines lines' : List (BurstSyncPkg × MaskItem)) :
    samples selected (lines ++ lines') =
      samples selected lines ++ samples (selectedAfter selected lines) lines' := by
  induction lines generalizing selected with
  | nil => rfl
  | cons line rest ih => simp [samples, selectedAfter, ih]

theorem perfixSums_isPrefix {lines lines' : List (BurstSyncPkg × WeightItem)}
    (h : lines <+: lines') (base : WeightItem) : perfixSums base lines <+: perfixSums base lines' := by
  obtain ⟨t, rfl⟩ := h
  rw [perfixSums_append]
  exact List.prefix_append _ _

theorem samples_isPrefix {lines lines' : List (BurstSyncPkg × MaskItem)} (h : lines <+: lines')
    (selected : BitVec 32) : samples selected lines <+: samples selected lines' := by
  obtain ⟨t, rfl⟩ := h
  rw [samples_append]
  exact List.prefix_append _ _

/-- What one more line makes `sample` send. -/
theorem samples_snoc (selected : BitVec 32) (lines : List (BurstSyncPkg × MaskItem))
    (sync : BurstSyncPkg) (masks : MaskItem) :
    samples selected (lines ++ [(sync, masks)]) = samples selected lines ++
      if sync.ends then [outPkg (selectLine (selectedAfter selected lines) sync masks) sync]
      else [] := by
  rw [samples_append]
  simp [samples]

/-! ## Kernels -/

/-- What the idle branch does to `flush_counter` and `notidle`: when the window is exceeded
the kernel leaves its inner loop and starts over. -/
def idleStep (flushWindow flushCounter : BitVec 8) (notidle : Bool) : BitVec 8 × Bool :=
  let flushCounter := if notidle then flushCounter + 1 else flushCounter
  if flushWindow < flushCounter then (0, false) else (flushCounter, notidle)

/-- The output streams of `bs_duplicator`. -/
inductive DupOut where
  | perfixSum
  | sample
deriving DecidableEq

instance : Fintype DupOut := ⟨{.perfixSum, .sample}, fun x => by cases x <;> decide⟩

/-- Registers of `bs_duplicator`. -/
inductive DupRegs where
  | read
  | writePerfixSum (pkg : BurstSyncPkg)
  | writeSample (pkg : BurstSyncPkg)

/-- `bs_duplicator`. -/
def bsDuplicatorKernel :
    Kernel (fun _ : Unit => BurstSyncPkg) (fun _ : DupOut => BurstSyncPkg) where
  σ := DupRegs
  Ω := Empty
  start := .read
  op
    | .read => .read () .writePerfixSum
    | .writePerfixSum pkg => .write .perfixSum pkg (.writeSample pkg)
    | .writeSample pkg => .write .sample pkg .read

/-- The output streams of `partial_sum`. -/
inductive PartialOut where
  | weight
  | partialSum
deriving DecidableEq

instance : Fintype PartialOut := ⟨{.weight, .partialSum}, fun x => by cases x <;> decide⟩

/-- Registers of `partial_sum`. -/
inductive PartialRegs where
  | read (flushCounter : BitVec 8) (notidle : Bool)
  | writeWeight (weightPkg : WeightItem)
  | writePartialSum (weightPkg : WeightItem)

/-- `partial_sum`. -/
def partialSumKernel : Kernel (fun _ : Unit => WeightItem) (fun _ : PartialOut => WeightItem) where
  σ := PartialRegs
  Ω := Empty
  start := .read 0 false
  op
    | .read flushCounter notidle => .readNb () fun
        | some weightPkg => .writeWeight weightPkg
        | none =>
            let idle := idleStep 16 flushCounter notidle
            .read idle.1 idle.2
    | .writeWeight weightPkg => .write .weight weightPkg (.writePartialSum weightPkg)
    | .writePartialSum weightPkg =>
        .write .partialSum (partialSums weightPkg) (.read 0 true)

/-- The streams `perfix_sum` reads. -/
inductive PerfixIn where
  | burstSync
  | partialSum
deriving DecidableEq

instance : Fintype PerfixIn := ⟨{.burstSync, .partialSum}, fun x => by cases x <;> decide⟩

/-- The streams `perfix_sum` writes. -/
inductive PerfixOut where
  | perfixSum
  | partialSum
deriving DecidableEq

instance : Fintype PerfixOut := ⟨{.perfixSum, .partialSum}, fun x => by cases x <;> decide⟩

/-- The sorts of the streams `perfix_sum` reads. -/
abbrev PerfixIn.sort : PerfixIn → WrsSort
  | .burstSync => .sync
  | .partialSum => .weight

/-- Registers of `perfix_sum`. -/
inductive PerfixRegs where
  | read (flushCounter : BitVec 8) (base : WeightItem)
  | readPartial (base : WeightItem) (sync : BurstSyncPkg)
  | writePerfix (base : WeightItem) (sync : BurstSyncPkg) (data : WeightItem)
  | writePartial (base : WeightItem) (sync : BurstSyncPkg) (data : WeightItem)

/-- `perfix_sum`. -/
def perfixSumKernel :
    Kernel (fun i : PerfixIn => WrsWord i.sort) (fun _ : PerfixOut => WeightItem) where
  σ := PerfixRegs
  Ω := Empty
  start := .read 0 fun _ => 0
  op
    | .read flushCounter base => .readNb .burstSync fun
        | some sync => .readPartial base sync
        | none => .read (flushCounter + 1) base
    | .readPartial base sync => .read .partialSum fun data => .writePerfix base sync data
    | .writePerfix base sync data => .write .perfixSum base (.writePartial base sync data)
    | .writePartial base sync data =>
        .write .partialSum data (.read 0 (nextBase base sync data))

/-- The streams `scale_weight` reads. -/
inductive ScaleIn where
  | rng
  | perfixSum
  | baseSum
deriving DecidableEq

instance : Fintype ScaleIn := ⟨{.rng, .perfixSum, .baseSum}, fun x => by cases x <;> decide⟩

/-- Registers of `scale_weight`. -/
inductive ScaleRegs where
  | read (flushCounter : BitVec 8) (notidle : Bool)
  | readRng (pws : WeightItem)
  | readBase (pws rngs : WeightItem)
  | write (rngs pws basev : WeightItem)

/-- `scale_weight`. -/
def scaleWeightKernel : Kernel (fun _ : ScaleIn => WeightItem) (fun _ : Unit => WeightItem) where
  σ := ScaleRegs
  Ω := Empty
  start := .read 0 false
  op
    | .read flushCounter notidle => .readNb .perfixSum fun
        | some pws => .readRng pws
        | none =>
            let idle := idleStep 8 flushCounter notidle
            .read idle.1 idle.2
    | .readRng pws => .read .rng fun rngs => .readBase pws rngs
    | .readBase pws rngs => .read .baseSum fun basev => .write rngs pws basev
    | .write rngs pws basev => .write () (scaleItem rngs pws basev) (.read 0 true)

/-- The streams `reservoir_mask` reads. -/
inductive MaskIn where
  | weight
  | scale
deriving DecidableEq

instance : Fintype MaskIn := ⟨{.weight, .scale}, fun x => by cases x <;> decide⟩

/-- Registers of `reservoir_mask`. -/
inductive MaskRegs where
  | read (flushCounter : BitVec 8) (notidle : Bool)
  | readScale (weights : WeightItem)
  | write (weights scales : WeightItem)

/-- `reservoir_mask`. -/
def reservoirMaskKernel : Kernel (fun _ : MaskIn => WeightItem) (fun _ : Unit => MaskItem) where
  σ := MaskRegs
  Ω := Empty
  start := .read 0 false
  op
    | .read flushCounter notidle => .readNb .weight fun
        | some weights => .readScale weights
        | none =>
            let idle := idleStep 8 flushCounter notidle
            .read idle.1 idle.2
    | .readScale weights => .read .scale fun scales => .write weights scales
    | .write weights scales => .write () (maskItem weights scales) (.read 0 true)

/-- The streams `sample` reads. -/
inductive SampleIn where
  | burstSync
  | mask
deriving DecidableEq

instance : Fintype SampleIn := ⟨{.burstSync, .mask}, fun x => by cases x <;> decide⟩

/-- The sorts of the streams `sample` reads. -/
abbrev SampleIn.sort : SampleIn → WrsSort
  | .burstSync => .sync
  | .mask => .mask

/-- Registers of `sample`. -/
inductive SampleRegs where
  | read (flushCounter : BitVec 8) (selectedIndex : BitVec 32)
  | readMask (selectedIndex : BitVec 32) (sync : BurstSyncPkg)
  | write (pkg : NextVertexPkg)

/-- The end of an iteration of `sample`. -/
def sampleLine (selectedIndex : BitVec 32) (sync : BurstSyncPkg) (masks : MaskItem) : SampleRegs :=
  let selectedIndex := selectLine selectedIndex sync masks
  if sync.ends then .write (outPkg selectedIndex sync) else .read 0 selectedIndex

/-- `sample`. -/
def sampleKernel : Kernel (fun i : SampleIn => WrsWord i.sort) (fun _ : Unit => NextVertexPkg) where
  σ := SampleRegs
  Ω := Empty
  start := .read 0 noIndex
  op
    | .read flushCounter selectedIndex => .readNb .burstSync fun
        | some sync => .readMask selectedIndex sync
        | none => .read (flushCounter + 1) selectedIndex
    | .readMask selectedIndex sync => .read .mask fun masks => sampleLine selectedIndex sync masks
    | .write pkg => .write () pkg (.read 0 noIndex)

/-! ## What the kernels have received and sent -/

/-- The rounds of `bs_duplicator`. -/
def bsDuplicatorRounds : Rounds bsDuplicatorKernel BurstSyncPkg where
  ins rounds _ := rounds
  outs rounds _ := rounds
  got _ _ := []
  owes
    | .read, _ => []
    | .writePerfixSum pkg, _ => [pkg]
    | .writeSample _, .perfixSum => []
    | .writeSample pkg, .sample => [pkg]
  agrees _ _ := True

theorem bsDuplicatorRounds_sound : bsDuplicatorRounds.Sound := by
  refine ⟨⟨trivial, fun _ => rfl, fun _ => rfl⟩, ?_⟩
  intro rounds r R S h
  cases r with
  | read =>
      intro pkg
      exact ⟨_, h.round pkg trivial (fun _ => rfl) (fun _ => rfl) (fun _ => rfl) (fun _ => rfl)⟩
  | writePerfixSum pkg =>
      refine ⟨_, h.give trivial rfl ?_⟩
      ext1 o
      cases o <;> rfl
  | writeSample pkg =>
      refine ⟨_, h.give trivial rfl ?_⟩
      ext1 o
      cases o <;> rfl


/-- The rounds of `perfix_sum`. -/
def perfixSumRounds : Rounds perfixSumKernel (BurstSyncPkg × WeightItem) where
  ins rounds
    | .burstSync => rounds.map Prod.fst
    | .partialSum => rounds.map Prod.snd
  outs rounds
    | .perfixSum => perfixSums (fun _ => 0) rounds
    | .partialSum => rounds.map Prod.snd
  got
    | .readPartial _ sync, .burstSync => [sync]
    | _, _ => []
  owes
    | .writePerfix base _ _, .perfixSum => [base]
    | .writePerfix _ _ data, .partialSum => [data]
    | .writePartial _ _ data, .partialSum => [data]
    | _, _ => []
  agrees rounds
    | .read _ base => baseAfter (fun _ => 0) rounds = base
    | .readPartial base _ => baseAfter (fun _ => 0) rounds = base
    | .writePerfix base sync data => baseAfter (fun _ => 0) rounds = nextBase base sync data
    | .writePartial base sync data => baseAfter (fun _ => 0) rounds = nextBase base sync data

theorem perfixSumRounds_sound : perfixSumRounds.Sound := by
  refine ⟨⟨rfl, fun i => ?_, fun o => ?_⟩, ?_⟩
  · cases i <;> rfl
  · cases o <;> rfl
  intro rounds r R S h
  cases r with
  | read flushCounter base =>
      refine ⟨⟨_, h.idle h.agrees rfl rfl⟩, fun sync => ⟨_, h.take h.agrees ?_ rfl⟩⟩
      ext1 i
      cases i <;> rfl
  | readPartial base sync =>
      intro data
      have hbase : baseAfter (fun _ => 0) rounds = base := h.agrees
      refine ⟨_, h.round (sync, data) ?_ ?_ ?_ ?_ ?_⟩
      · simp [perfixSumRounds, baseAfter, ← hbase]
      · intro i
        cases i <;> simp [perfixSumRounds]
      · intro i
        cases i <;> rfl
      · intro o
        cases o <;> rfl
      · intro o
        cases o with
        | perfixSum =>
            show perfixSums (fun _ => 0) (rounds ++ [(sync, data)]) = _
            rw [perfixSums_append, hbase]
            rfl
        | partialSum => simp [perfixSumRounds]
  | writePerfix base sync data =>
      refine ⟨_, h.give h.agrees rfl ?_⟩
      ext1 o
      cases o <;> rfl
  | writePartial base sync data =>
      refine ⟨_, h.give h.agrees rfl ?_⟩
      ext1 o
      cases o <;> rfl

/-- The rounds of `partial_sum`. -/
def partialSumRounds : Rounds partialSumKernel WeightItem where
  ins rounds _ := rounds
  outs rounds
    | .weight => rounds
    | .partialSum => rounds.map partialSums
  got _ _ := []
  owes
    | .writeWeight weightPkg, .weight => [weightPkg]
    | .writeWeight weightPkg, .partialSum => [partialSums weightPkg]
    | .writePartialSum weightPkg, .partialSum => [partialSums weightPkg]
    | _, _ => []
  agrees _ _ := True

theorem partialSumRounds_sound : partialSumRounds.Sound := by
  refine ⟨⟨trivial, fun _ => rfl, fun o => ?_⟩, ?_⟩
  · cases o <;> rfl
  intro rounds r R S h
  cases r with
  | read flushCounter notidle =>
      refine ⟨⟨_, h.idle trivial rfl rfl⟩, fun weightPkg =>
        ⟨_, h.round weightPkg trivial (fun _ => rfl) (fun _ => rfl) (fun _ => rfl) ?_⟩⟩
      intro o
      cases o <;> simp [partialSumRounds]
  | writeWeight weightPkg =>
      refine ⟨_, h.give trivial rfl ?_⟩
      ext1 o
      cases o <;> rfl
  | writePartialSum weightPkg =>
      refine ⟨_, h.give trivial rfl ?_⟩
      ext1 o
      cases o <;> rfl

/-- The rounds of `scale_weight`: random words, base sums and partial sums. -/
def scaleWeightRounds : Rounds scaleWeightKernel (WeightItem × WeightItem × WeightItem) where
  ins rounds
    | .rng => rounds.map fun x => x.1
    | .perfixSum => rounds.map fun x => x.2.1
    | .baseSum => rounds.map fun x => x.2.2
  outs rounds _ := rounds.map fun x => scaleItem x.1 x.2.1 x.2.2
  got
    | .readRng pws, .perfixSum => [pws]
    | .readBase pws _, .perfixSum => [pws]
    | .readBase _ rngs, .rng => [rngs]
    | _, _ => []
  owes
    | .write rngs pws basev, _ => [scaleItem rngs pws basev]
    | _, _ => []
  agrees _ _ := True

theorem scaleWeightRounds_sound : scaleWeightRounds.Sound := by
  refine ⟨⟨trivial, fun i => ?_, fun o => rfl⟩, ?_⟩
  · cases i <;> rfl
  intro rounds r R S h
  cases r with
  | read flushCounter notidle =>
      refine ⟨⟨_, h.idle trivial ?_ rfl⟩, fun pws => ⟨_, h.take trivial ?_ rfl⟩⟩
      · ext1 i
        cases i <;> rfl
      · ext1 i
        cases i <;> rfl
  | readRng pws =>
      refine fun rngs => ⟨_, h.take trivial ?_ rfl⟩
      ext1 i
      cases i <;> rfl
  | readBase pws rngs =>
      intro basev
      refine ⟨_, h.round (rngs, pws, basev) trivial ?_ ?_ (fun _ => rfl) ?_⟩
      · intro i
        cases i <;> simp [scaleWeightRounds]
      · intro i
        cases i <;> rfl
      · intro o
        simp [scaleWeightRounds]
  | write rngs pws basev =>
      refine ⟨_, h.give trivial rfl ?_⟩
      ext1 o
      rfl

/-- The rounds of `reservoir_mask`. -/
def reservoirMaskRounds : Rounds reservoirMaskKernel (WeightItem × WeightItem) where
  ins rounds
    | .weight => rounds.map Prod.fst
    | .scale => rounds.map Prod.snd
  outs rounds _ := rounds.map fun x => maskItem x.1 x.2
  got
    | .readScale weights, .weight => [weights]
    | _, _ => []
  owes
    | .write weights scales, _ => [maskItem weights scales]
    | _, _ => []
  agrees _ _ := True

theorem reservoirMaskRounds_sound : reservoirMaskRounds.Sound := by
  refine ⟨⟨trivial, fun i => ?_, fun o => rfl⟩, ?_⟩
  · cases i <;> rfl
  intro rounds r R S h
  cases r with
  | read flushCounter notidle =>
      refine ⟨⟨_, h.idle trivial ?_ rfl⟩, fun weights => ⟨_, h.take trivial ?_ rfl⟩⟩
      · ext1 i
        cases i <;> rfl
      · ext1 i
        cases i <;> rfl
  | readScale weights =>
      intro scales
      refine ⟨_, h.round (weights, scales) trivial ?_ ?_ (fun _ => rfl) ?_⟩
      · intro i
        cases i <;> simp [reservoirMaskRounds]
      · intro i
        cases i <;> rfl
      · intro o
        simp [reservoirMaskRounds]
  | write weights scales =>
      refine ⟨_, h.give trivial rfl ?_⟩
      ext1 o
      rfl

/-- The rounds of `sample`. -/
def sampleRounds : Rounds sampleKernel (BurstSyncPkg × MaskItem) where
  ins rounds
    | .burstSync => rounds.map Prod.fst
    | .mask => rounds.map Prod.snd
  outs rounds _ := samples noIndex rounds
  got
    | .readMask _ sync, .burstSync => [sync]
    | _, _ => []
  owes
    | .write pkg, _ => [pkg]
    | _, _ => []
  agrees rounds
    | .read _ selected => selectedAfter noIndex rounds = selected
    | .readMask selected _ => selectedAfter noIndex rounds = selected
    | .write _ => selectedAfter noIndex rounds = noIndex

theorem sampleRounds_sound : sampleRounds.Sound := by
  refine ⟨⟨rfl, fun i => ?_, fun o => rfl⟩, ?_⟩
  · cases i <;> rfl
  intro rounds r R S h
  cases r with
  | read flushCounter selected =>
      refine ⟨⟨_, h.idle h.agrees ?_ rfl⟩, fun sync => ⟨_, h.take h.agrees ?_ rfl⟩⟩
      · ext1 i
        cases i <;> rfl
      · ext1 i
        cases i <;> rfl
  | readMask selected sync =>
      intro masks
      have hselected : selectedAfter noIndex rounds = selected := h.agrees
      have hnext : selectedAfter noIndex (rounds ++ [(sync, masks)]) =
          nextSelected selected sync masks := by
        rw [← hselected]
        simp [selectedAfter]
      refine ⟨_, h.round (sync, masks) ?_ ?_ ?_ (fun _ => rfl) ?_⟩
      · unfold sampleLine
        split
        · rename_i hends
          exact hnext.trans (if_pos hends)
        · rename_i hends
          exact hnext.trans (if_neg hends)
      · intro i
        cases i <;> simp [sampleRounds]
      · intro i
        unfold sampleLine
        split <;> cases i <;> rfl
      · intro o
        show samples noIndex (rounds ++ [(sync, masks)]) = _
        rw [samples_snoc, hselected]
        unfold sampleLine
        split <;> rfl
  | write pkg =>
      refine ⟨_, h.give h.agrees ?_ ?_⟩
      · ext1 i
        cases i <;> rfl
      · ext1 o
        rfl

end RidgeWalker.Wrs
