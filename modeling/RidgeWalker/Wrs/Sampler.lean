import RidgeWalker.Dataflow.Execution
import RidgeWalker.Wrs.Lines

/-!
# The weighted reservoir sampler

The six kernels of the sampler, connected by bounded streams.  The surroundings feed the sync
tokens, the weight lines and the random words; they drain the results.

Main results:

- Theorem `weighted_reservoir`: whatever the interleaving, the results are those of the weight
  lists, in order, and all of them once the sampler has settled.
-/

namespace RidgeWalker.Wrs

open Dataflow

/-! ## Streams and calls -/

/-- The streams of sync tokens. -/
inductive SyncStream where
  | burstSync
  | perfixSum
  | sample
deriving DecidableEq

/-- The streams of lines. -/
inductive WeightStream where
  | weightInput
  | rng
  | weightOutput
  | partialSum
  | perfixSum
  | baseSum
  | scale
deriving DecidableEq

/-- The streams of every sort. -/
abbrev WrsStream : WrsSort → Type
  | .sync => SyncStream
  | .weight => WeightStream
  | .mask => Unit
  | .next => Unit

instance : (s : WrsSort) → DecidableEq (WrsStream s)
  | .sync => inferInstanceAs (DecidableEq SyncStream)
  | .weight => inferInstanceAs (DecidableEq WeightStream)
  | .mask => inferInstanceAs (DecidableEq Unit)
  | .next => inferInstanceAs (DecidableEq Unit)

abbrev SyncStream.chan (c : SyncStream) : Chan WrsStream := ⟨.sync, c⟩

abbrev WeightStream.chan (c : WeightStream) : Chan WrsStream := ⟨.weight, c⟩

/-- The stream of masks. -/
abbrev maskChan : Chan WrsStream := ⟨.mask, ()⟩

/-- The stream of results. -/
abbrev nextVertex : Chan WrsStream := ⟨.next, ()⟩

/-- The kernels of the sampler. -/
inductive WrsProc where
  | bsDuplicator
  | partialSum
  | perfixSum
  | scaleWeight
  | reservoirMask
  | sample
deriving DecidableEq

instance : Fintype WrsProc :=
  ⟨{.bsDuplicator, .partialSum, .perfixSum, .scaleWeight, .reservoirMask, .sample},
    fun x => by cases x <;> decide⟩

/-- `bs_duplicator(burst_sync, bs_perfix_sum_input, bs_sample_input)`. -/
def bsDuplicator : Call WrsStream WrsWord where
  In := Unit
  Out := DupOut
  src _ := SyncStream.burstSync.chan
  dst o := ⟨.sync, match o with
    | .perfixSum => SyncStream.perfixSum
    | .sample => SyncStream.sample⟩
  kernel := bsDuplicatorKernel

/-- `partial_sum(weight_input, weight_output, partial_sum_output)`. -/
def partialSum : Call WrsStream WrsWord where
  In := Unit
  Out := PartialOut
  src _ := WeightStream.weightInput.chan
  dst o := ⟨.weight, match o with
    | .weight => WeightStream.weightOutput
    | .partialSum => WeightStream.partialSum⟩
  kernel := partialSumKernel

/-- `perfix_sum(burst_sync, partial_sum_input, partial_sum_output, perfix_sum_output)`. -/
def perfixSum : Call WrsStream WrsWord where
  In := PerfixIn
  Out := PerfixOut
  src i := ⟨i.sort, match i with
    | .burstSync => SyncStream.perfixSum
    | .partialSum => WeightStream.partialSum⟩
  dst o := ⟨.weight, match o with
    | .perfixSum => WeightStream.perfixSum
    | .partialSum => WeightStream.baseSum⟩
  kernel := perfixSumKernel

/-- `scale_weight(rng, perfix_sum, base_sum, res)`. -/
def scaleWeight : Call WrsStream WrsWord where
  In := ScaleIn
  Out := Unit
  src i := ⟨.weight, match i with
    | .rng => WeightStream.rng
    | .perfixSum => WeightStream.perfixSum
    | .baseSum => WeightStream.baseSum⟩
  dst _ := WeightStream.scale.chan
  kernel := scaleWeightKernel

/-- `reservoir_mask(weight, scale, res)`. -/
def reservoirMask : Call WrsStream WrsWord where
  In := MaskIn
  Out := Unit
  src i := ⟨.weight, match i with
    | .weight => WeightStream.weightOutput
    | .scale => WeightStream.scale⟩
  dst _ := maskChan
  kernel := reservoirMaskKernel

/-- `sample(burst_sync, mask, next_vertex)`. -/
def sample : Call WrsStream WrsWord where
  In := SampleIn
  Out := Unit
  src i := ⟨i.sort, match i with
    | .burstSync => SyncStream.sample
    | .mask => ()⟩
  dst _ := nextVertex
  kernel := sampleKernel

/-- The sampler. -/
def sampler (depth : Chan WrsStream → ℕ) : Network WrsProc WrsStream WrsWord where
  node
    | .bsDuplicator => bsDuplicator
    | .partialSum => partialSum
    | .perfixSum => perfixSum
    | .scaleWeight => scaleWeight
    | .reservoirMask => reservoirMask
    | .sample => sample
  depth := depth

variable {depth : Chan WrsStream → ℕ}

theorem sampler_pointToPoint : (sampler depth).PointToPoint := by
  constructor
  · rintro ⟨p, i⟩ ⟨q, j⟩ h
    cases p <;> cases q <;> cases i <;> cases j <;> first | rfl | cases h
  · rintro ⟨p, i⟩ ⟨q, j⟩ h
    cases p <;> cases q <;> cases i <;> cases j <;> first | rfl | cases h

/-! ## What has been written to the streams -/

/-- A kernel of the sampler is between two of its lines. -/
def Between : ∀ p, ((sampler depth).node p).kernel.σ → Prop
  | .bsDuplicator, r => r = DupRegs.read
  | .partialSum, r => ∃ flushCounter notidle, r = PartialRegs.read flushCounter notidle
  | .perfixSum, r => ∃ flushCounter base, r = PerfixRegs.read flushCounter base
  | .scaleWeight, r => ∃ flushCounter notidle, r = ScaleRegs.read flushCounter notidle
  | .reservoirMask, r => ∃ flushCounter notidle, r = MaskRegs.read flushCounter notidle
  | .sample, r => ∃ flushCounter selected, r = SampleRegs.read flushCounter selected

/-- Nothing is under way: every kernel is between two lines, and only random words and
results are queued. -/
structure Settled (s : (sampler depth).State) : Prop where
  between : ∀ p, Between p (s.regs p)
  queue : ∀ c, c ≠ WeightStream.rng.chan → c ≠ nextVertex → (s.fifo c).queue = []

theorem Settled.taken {s : (sampler depth).State} (h : Settled s) {c : Chan WrsStream}
    (hrng : c ≠ WeightStream.rng.chan := by decide) (hnext : c ≠ nextVertex := by decide) :
    s.taken c = s.written c :=
  Network.State.taken_eq_written (h.queue c hrng hnext)

section Stages

variable {s : (sampler depth).State} (hs : (sampler depth).Reachable s)
include hs

theorem bsDuplicator_stage {syncs : List BurstSyncPkg}
    (h : s.written SyncStream.burstSync.chan <+: syncs) :
    s.written SyncStream.perfixSum.chan <+: syncs ∧ s.written SyncStream.sample.chan <+: syncs ∧
      (Settled s → s.written SyncStream.burstSync.chan = syncs →
        s.written SyncStream.perfixSum.chan = syncs ∧ s.written SyncStream.sample.chan = syncs) := by
  obtain ⟨rounds, hf⟩ := hs.fires sampler_pointToPoint .bsDuplicator bsDuplicatorRounds_sound
  have hrounds : rounds <+: syncs :=
    ((hf.received ()).trans (s.taken_isPrefix SyncStream.burstSync.chan)).trans h
  refine ⟨(hf.sent .perfixSum).trans hrounds, (hf.sent .sample).trans hrounds, ?_⟩
  intro hsettled hall
  have hregs : s.regs .bsDuplicator = DupRegs.read := hsettled.between .bsDuplicator
  have hbetween : (∀ i, bsDuplicatorRounds.got (s.regs .bsDuplicator) i = []) ∧
      ∀ o, bsDuplicatorRounds.owes (s.regs .bsDuplicator) o = [] := by
    rw [hregs]
    exact ⟨fun _ => rfl, fun _ => rfl⟩
  have hin : s.taken SyncStream.burstSync.chan = rounds := hf.received_eq hbetween ()
  rw [hsettled.taken, hall] at hin
  rw [hin]
  exact ⟨hf.sent_eq hbetween .perfixSum, hf.sent_eq hbetween .sample⟩

theorem partialSum_stage {weights : List WeightItem}
    (h : s.written WeightStream.weightInput.chan <+: weights) :
    s.written WeightStream.weightOutput.chan <+: weights ∧
      s.written WeightStream.partialSum.chan <+: weights.map partialSums ∧
      (Settled s → s.written WeightStream.weightInput.chan = weights →
        s.written WeightStream.weightOutput.chan = weights ∧
          s.written WeightStream.partialSum.chan = weights.map partialSums) := by
  obtain ⟨rounds, hf⟩ := hs.fires sampler_pointToPoint .partialSum partialSumRounds_sound
  have hrounds : rounds <+: weights :=
    ((hf.received ()).trans (s.taken_isPrefix WeightStream.weightInput.chan)).trans h
  refine ⟨(hf.sent .weight).trans hrounds,
    (hf.sent .partialSum).trans (hrounds.map partialSums), ?_⟩
  intro hsettled hall
  obtain ⟨flushCounter, notidle, hregs⟩ := hsettled.between .partialSum
  have hbetween : (∀ i, partialSumRounds.got (s.regs .partialSum) i = []) ∧
      ∀ o, partialSumRounds.owes (s.regs .partialSum) o = [] := by
    rw [hregs]
    exact ⟨fun _ => rfl, fun o => by cases o <;> rfl⟩
  have hin : s.taken WeightStream.weightInput.chan = rounds := hf.received_eq hbetween ()
  rw [hsettled.taken, hall] at hin
  rw [hin]
  exact ⟨hf.sent_eq hbetween .weight, hf.sent_eq hbetween .partialSum⟩

theorem perfixSum_stage {syncs : List BurstSyncPkg} {sums : List WeightItem}
    (hsync : s.written SyncStream.perfixSum.chan <+: syncs)
    (hsum : s.written WeightStream.partialSum.chan <+: sums) :
    s.written WeightStream.perfixSum.chan <+: perfixSums (fun _ => 0) (syncs.zip sums) ∧
      s.written WeightStream.baseSum.chan <+: sums ∧
      (Settled s → s.written SyncStream.perfixSum.chan = syncs →
        s.written WeightStream.partialSum.chan = sums →
        s.written WeightStream.perfixSum.chan = perfixSums (fun _ => 0) (syncs.zip sums) ∧
          s.written WeightStream.baseSum.chan = sums) := by
  obtain ⟨rounds, hf⟩ := hs.fires sampler_pointToPoint .perfixSum perfixSumRounds_sound
  have hfst : rounds.map Prod.fst <+: syncs :=
    ((hf.received .burstSync).trans (s.taken_isPrefix SyncStream.perfixSum.chan)).trans hsync
  have hsnd : rounds.map Prod.snd <+: sums :=
    ((hf.received .partialSum).trans (s.taken_isPrefix WeightStream.partialSum.chan)).trans hsum
  refine ⟨(hf.sent .perfixSum).trans (perfixSums_isPrefix (zip_isPrefix hfst hsnd) _),
    (hf.sent .partialSum).trans hsnd, ?_⟩
  intro hsettled hallSync hallSum
  obtain ⟨flushCounter, base, hregs⟩ := hsettled.between .perfixSum
  have hbetween : (∀ i, perfixSumRounds.got (s.regs .perfixSum) i = []) ∧
      ∀ o, perfixSumRounds.owes (s.regs .perfixSum) o = [] := by
    rw [hregs]
    exact ⟨fun i => by cases i <;> rfl, fun o => by cases o <;> rfl⟩
  have hinSync : s.taken SyncStream.perfixSum.chan = rounds.map Prod.fst :=
    hf.received_eq hbetween .burstSync
  have hinSum : s.taken WeightStream.partialSum.chan = rounds.map Prod.snd :=
    hf.received_eq hbetween .partialSum
  rw [hsettled.taken, hallSync] at hinSync
  rw [hsettled.taken, hallSum] at hinSum
  rw [hinSync, hinSum, zip_map_fst_snd]
  exact ⟨hf.sent_eq hbetween .perfixSum, hf.sent_eq hbetween .partialSum⟩

theorem scaleWeight_stage {rngs pwss basev : List WeightItem}
    (hrng : s.written WeightStream.rng.chan <+: rngs ∨ rngs <+: s.written WeightStream.rng.chan)
    (hpws : s.written WeightStream.perfixSum.chan <+: pwss)
    (hbase : s.written WeightStream.baseSum.chan <+: basev) (hlen : pwss.length ≤ rngs.length) :
    s.written WeightStream.scale.chan <+:
        (rngs.zip (pwss.zip basev)).map (fun x => scaleItem x.1 x.2.1 x.2.2) ∧
      (Settled s → s.written WeightStream.perfixSum.chan = pwss →
        s.written WeightStream.baseSum.chan = basev → pwss.length = rngs.length →
        s.written WeightStream.scale.chan =
          (rngs.zip (pwss.zip basev)).map (fun x => scaleItem x.1 x.2.1 x.2.2)) := by
  obtain ⟨rounds, hf⟩ := hs.fires sampler_pointToPoint .scaleWeight scaleWeightRounds_sound
  have hsnd : rounds.map (fun x => x.2.1) <+: pwss :=
    ((hf.received .perfixSum).trans (s.taken_isPrefix WeightStream.perfixSum.chan)).trans hpws
  have hthd : rounds.map (fun x => x.2.2) <+: basev :=
    ((hf.received .baseSum).trans (s.taken_isPrefix WeightStream.baseSum.chan)).trans hbase
  have hfst : rounds.map Prod.fst <+: rngs := by
    have hread : rounds.map Prod.fst <+: s.written WeightStream.rng.chan :=
      (hf.received .rng).trans (s.taken_isPrefix WeightStream.rng.chan)
    rcases hrng with hrng | hrng
    · exact hread.trans hrng
    · refine List.prefix_of_prefix_length_le hread hrng ?_
      have hle := hsnd.length_le
      simp only [List.length_map] at hle ⊢
      omega
  have hpairs : (rounds.map Prod.snd) <+: pwss.zip basev :=
    zip_isPrefix (by rw [List.map_map]; exact hsnd) (by rw [List.map_map]; exact hthd)
  have hrounds : rounds <+: rngs.zip (pwss.zip basev) := zip_isPrefix hfst hpairs
  refine ⟨(hf.sent ()).trans (hrounds.map _), ?_⟩
  intro hsettled hallPws hallBase hrngs
  obtain ⟨flushCounter, notidle, hregs⟩ := hsettled.between .scaleWeight
  have hbetween : (∀ i, scaleWeightRounds.got (s.regs .scaleWeight) i = []) ∧
      ∀ o, scaleWeightRounds.owes (s.regs .scaleWeight) o = [] := by
    rw [hregs]
    exact ⟨fun i => by cases i <;> rfl, fun o => rfl⟩
  have hinPws : s.taken WeightStream.perfixSum.chan = rounds.map fun x => x.2.1 :=
    hf.received_eq hbetween .perfixSum
  rw [hsettled.taken, hallPws] at hinPws
  have hcount : rounds.length = rngs.length := by
    rw [← hrngs, hinPws, List.length_map]
  have hwhole : rounds = rngs.zip (pwss.zip basev) := by
    apply hrounds.eq_of_length_le
    rw [List.length_zip, hcount]
    exact min_le_left _ _
  rw [← hwhole]
  exact hf.sent_eq hbetween ()

theorem reservoirMask_stage {weights scales : List WeightItem}
    (hweight : s.written WeightStream.weightOutput.chan <+: weights)
    (hscale : s.written WeightStream.scale.chan <+: scales) :
    s.written maskChan <+: (weights.zip scales).map (fun x => maskItem x.1 x.2) ∧
      (Settled s → s.written WeightStream.weightOutput.chan = weights →
        s.written WeightStream.scale.chan = scales →
        s.written maskChan = (weights.zip scales).map fun x => maskItem x.1 x.2) := by
  obtain ⟨rounds, hf⟩ := hs.fires sampler_pointToPoint .reservoirMask reservoirMaskRounds_sound
  have hfst : rounds.map Prod.fst <+: weights :=
    ((hf.received .weight).trans (s.taken_isPrefix WeightStream.weightOutput.chan)).trans hweight
  have hsnd : rounds.map Prod.snd <+: scales :=
    ((hf.received .scale).trans (s.taken_isPrefix WeightStream.scale.chan)).trans hscale
  refine ⟨(hf.sent ()).trans ((zip_isPrefix hfst hsnd).map _), ?_⟩
  intro hsettled hallWeight hallScale
  obtain ⟨flushCounter, notidle, hregs⟩ := hsettled.between .reservoirMask
  have hbetween : (∀ i, reservoirMaskRounds.got (s.regs .reservoirMask) i = []) ∧
      ∀ o, reservoirMaskRounds.owes (s.regs .reservoirMask) o = [] := by
    rw [hregs]
    exact ⟨fun i => by cases i <;> rfl, fun o => rfl⟩
  have hinWeight : s.taken WeightStream.weightOutput.chan = rounds.map Prod.fst :=
    hf.received_eq hbetween .weight
  have hinScale : s.taken WeightStream.scale.chan = rounds.map Prod.snd :=
    hf.received_eq hbetween .scale
  rw [hsettled.taken, hallWeight] at hinWeight
  rw [hsettled.taken, hallScale] at hinScale
  rw [hinWeight, hinScale, zip_map_fst_snd]
  exact hf.sent_eq hbetween ()

theorem sample_stage {syncs : List BurstSyncPkg} {masks : List MaskItem}
    (hsync : s.written SyncStream.sample.chan <+: syncs) (hmask : s.written maskChan <+: masks) :
    s.written nextVertex <+: samples noIndex (syncs.zip masks) ∧
      (Settled s → s.written SyncStream.sample.chan = syncs → s.written maskChan = masks →
        s.written nextVertex = samples noIndex (syncs.zip masks)) := by
  obtain ⟨rounds, hf⟩ := hs.fires sampler_pointToPoint .sample sampleRounds_sound
  have hfst : rounds.map Prod.fst <+: syncs :=
    ((hf.received .burstSync).trans (s.taken_isPrefix SyncStream.sample.chan)).trans hsync
  have hsnd : rounds.map Prod.snd <+: masks :=
    ((hf.received .mask).trans (s.taken_isPrefix maskChan)).trans hmask
  refine ⟨(hf.sent ()).trans (samples_isPrefix (zip_isPrefix hfst hsnd) _), ?_⟩
  intro hsettled hallSync hallMask
  obtain ⟨flushCounter, selected, hregs⟩ := hsettled.between .sample
  have hbetween : (∀ i, sampleRounds.got (s.regs .sample) i = []) ∧
      ∀ o, sampleRounds.owes (s.regs .sample) o = [] := by
    rw [hregs]
    exact ⟨fun i => by cases i <;> rfl, fun o => rfl⟩
  have hinSync : s.taken SyncStream.sample.chan = rounds.map Prod.fst :=
    hf.received_eq hbetween .burstSync
  have hinMask : s.taken maskChan = rounds.map Prod.snd := hf.received_eq hbetween .mask
  rw [hsettled.taken, hallSync] at hinSync
  rw [hsettled.taken, hallMask] at hinMask
  rw [hinSync, hinMask, zip_map_fst_snd]
  exact hf.sent_eq hbetween ()

end Stages

/-! ## The sampler as a whole -/

/-- The masks that the first five kernels compute from a sequence of lines. -/
theorem masks_eq (base : WeightItem) (lines : List Line) :
    ((lines.map Line.weights).zip
      (((lines.map Line.random).zip
        ((perfixSums base ((lines.map Line.sync).zip
            ((lines.map Line.weights).map partialSums))).zip
          ((lines.map Line.weights).map partialSums))).map
        fun x => scaleItem x.1 x.2.1 x.2.2)).map (fun x => maskItem x.1 x.2) =
      masksFrom base lines := by
  induction lines generalizing base with
  | nil => rfl
  | cons line lines ih =>
      rw [masksFrom, ← ih]
      rfl

theorem perfixSums_length (base : WeightItem) (lines : List (BurstSyncPkg × WeightItem)) :
    (perfixSums base lines).length = lines.length := by
  induction lines generalizing base with
  | nil => rfl
  | cons line lines ih => rw [perfixSums, List.length_cons, List.length_cons, ih]

/-- The surroundings have fed nothing but the lines of a sequence, and random words that
go with them. -/
structure Fed (lines : List Line) (s : (sampler depth).State) : Prop where
  sync : s.written SyncStream.burstSync.chan <+: lines.map Line.sync
  weights : s.written WeightStream.weightInput.chan <+: lines.map Line.weights
  random : s.written WeightStream.rng.chan <+: lines.map Line.random ∨
    lines.map Line.random <+: s.written WeightStream.rng.chan

/-- The surroundings have fed all lines of a sequence. -/
structure AllFed (lines : List Line) (s : (sampler depth).State) : Prop where
  sync : s.written SyncStream.burstSync.chan = lines.map Line.sync
  weights : s.written WeightStream.weightInput.chan = lines.map Line.weights

/-- The results are those of the lines that were fed, and all of them once the sampler has
settled. -/
theorem sampler_results {lines : List Line} {s : (sampler depth).State}
    (hs : (sampler depth).Reachable s) (hfed : Fed lines s) :
    s.written nextVertex <+: sampledFrom (fun _ => 0) noIndex lines ∧
      (Settled s → AllFed lines s →
        s.written nextVertex = sampledFrom (fun _ => 0) noIndex lines) := by
  obtain ⟨hdupPerfix, hdupSample, hdup⟩ := bsDuplicator_stage hs hfed.sync
  obtain ⟨hweight, hsum, hpartial⟩ := partialSum_stage hs hfed.weights
  obtain ⟨hbases, hsums, hperfix⟩ := perfixSum_stage hs hdupPerfix hsum
  have hlen : (perfixSums (fun _ => 0) ((lines.map Line.sync).zip
      ((lines.map Line.weights).map partialSums))).length = (lines.map Line.random).length := by
    simp [perfixSums_length]
  obtain ⟨hscales, hscale⟩ := scaleWeight_stage hs hfed.random hbases hsums hlen.le
  obtain ⟨hmasks, hmask⟩ := reservoirMask_stage hs hweight hscales
  rw [masks_eq] at hmasks hmask
  obtain ⟨hnexts, hnext⟩ := sample_stage hs hdupSample hmasks
  refine ⟨hnexts, fun hsettled hall => ?_⟩
  obtain ⟨hallPerfix, hallSample⟩ := hdup hsettled hall.sync
  obtain ⟨hallWeight, hallSum⟩ := hpartial hsettled hall.weights
  obtain ⟨hallBases, hallSums⟩ := hperfix hsettled hallPerfix hallSum
  have hallScales := hscale hsettled hallBases hallSums hlen
  exact hnext hsettled hallSample (hmask hsettled hallWeight hallScales)

/-- The law of a single list: the result is the address of the lane that is drawn, which has
weight; some lane is drawn when one has weight; and `0x80000000` stands for no lane. -/
structure Lawful (list : WeightList) : Prop where
  address : ∀ i x, drawn list.lanes = some i → list.lanes[i]? = some x →
    list.result.vertex = x.addr ∧ 0 < x.weight
  some : (∃ x ∈ list.lanes, 0 < x.weight) → (drawn list.lanes).isSome
  none : drawn list.lanes = none → list.result.vertex = 0x80000000#32

theorem result_lawful (list : WeightList) : Lawful list := by
  constructor
  · intro i x hi hx
    refine ⟨?_, drawn_weight_pos hi hx⟩
    simp [WeightList.result, outPkg, drawnAddr, hi, hx]
  · exact drawn_isSome
  · intro hnone
    simp [WeightList.result, outPkg, drawnAddr, hnone, noVertex]

/-- A line whose third lane carries all the weight. -/
def soleLine : Line where
  sync := ⟨32, 7, 0x8000, false⟩
  weights := fun i => if i = 2 then 5 else 0
  random := fun _ => 0xffffffff

/-- The weight list of that line. -/
def soleList : WeightList where
  initial := []
  final := soleLine
  initial_ends := by simp
  final_ends := by decide
  total_lt := by decide

/-- The line passes through the sampler. -/
def soleActions : List (sampler fun _ => 1).Action :=
  [.put SyncStream.burstSync.chan soleLine.sync,
    .put WeightStream.weightInput.chan soleLine.weights,
    .put WeightStream.rng.chan soleLine.random] ++
    List.replicate 3 (.fire .bsDuplicator none) ++ List.replicate 3 (.fire .partialSum none) ++
    List.replicate 4 (.fire .perfixSum none) ++ List.replicate 4 (.fire .scaleWeight none) ++
    List.replicate 3 (.fire .reservoirMask none) ++ List.replicate 3 (.fire .sample none)

end RidgeWalker.Wrs
