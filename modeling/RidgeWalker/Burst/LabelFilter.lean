import RidgeWalker.Burst.Units
import RidgeWalker.Dataflow.Execution

/-!
# Filtering by label

`label_filter` turns a line of edge labels into a line of weights: 1 where the label is that of the
state of the walk, 0 elsewhere.  It joins the lines with the tokens of their bursts by two polls, the
second of which is only made if the first was successful.

Main results:

- Theorem `labelWeights_masked`: the weights of a masked line.
- Theorem `labelFilter_pairs`: tokens and lines are joined by position, as long as a line is there
  whenever a token has been read.
- Theorem `labelFilter_loses`: a token that arrives before its line is lost.
-/

namespace RidgeWalker.Burst

open Dataflow Memory Wrs

/-! ## One line -/

/-- The weights that `label_filter` computes for a line. -/
def labelWeights (state : BitVec 16) (inData : WeightItem) : WeightItem :=
  fun i => if inData i = state.setWidth 32 then 1 else 0

/-- A line of stored labels, and which of its lanes lie in the range of the vertex. -/
structure LabelLine where
  label : WeightItem
  inRange : Fin numOfWeights → Bool

namespace LabelLine

/-- The line as a burst process sends it. -/
def masked (line : LabelLine) : WeightItem := fun i => if line.inRange i then line.label i else 0

/-- Weight 1 for the lanes in the range whose label is `state`. -/
def weights (state : BitVec 16) (line : LabelLine) : WeightItem :=
  fun i => if line.inRange i ∧ line.label i = state.setWidth 32 then 1 else 0

end LabelLine

/-- The line that `dynamic_burst_1` and `single_burst` read for a command. -/
def BurstCmd.labelLine (cmd : BurstCmd) (mem : ℕ → BitVec 32) : LabelLine where
  label i := mem ((cmd.addr.toNat / 16 + 0) * 16 + i)
  inRange i := ¬(.ofNat 32 i + cmd.addr < cmd.start ∨ .ofNat 32 i + cmd.addr ≥ cmd.end_)

/-- It is sent with the lanes outside the range of the command masked. -/
theorem BurstCmd.maskedOut_eq (cmd : BurstCmd) (mem : ℕ → BitVec 32) :
    cmd.maskedOut mem 0 = (cmd.labelLine mem).masked := by
  funext i
  unfold BurstCmd.maskedOut LabelLine.masked
  have hrange : (cmd.labelLine mem).inRange i = true ↔
      ¬(.ofNat 32 i + cmd.addr < cmd.start ∨ .ofNat 32 i + cmd.addr ≥ cmd.end_) :=
    decide_eq_true_iff
  by_cases hout : .ofNat 32 i + cmd.addr < cmd.start ∨ .ofNat 32 i + cmd.addr ≥ cmd.end_
  · rw [if_pos hout, if_neg fun hin => hrange.mp hin hout]
  · rw [if_neg hout, if_pos (hrange.mpr hout)]
    rfl

/-- No label is 0, so a masked lane has weight 0, whatever is stored there. -/
theorem labelWeights_masked {state : BitVec 16} (hstate : state ≠ 0) (line : LabelLine) :
    labelWeights state line.masked = line.weights state := by
  funext i
  have hne : (0 : BitVec 32) ≠ state.setWidth 32 := by
    intro hzero
    apply hstate
    apply BitVec.eq_of_toNat_eq
    have hvalue := congrArg BitVec.toNat hzero
    have hlt := state.isLt
    rw [BitVec.toNat_setWidth, Nat.mod_eq_of_lt (by omega)] at hvalue
    exact hvalue.symm
  unfold labelWeights LabelLine.masked LabelLine.weights
  cases hrange : line.inRange i with
  | true => simp
  | false => simpa using hne

/-! ## `label_filter` -/

/-- The sorts of streams around `label_filter`. -/
inductive LabelSort where
  | sync
  | weight
  | filtered
deriving DecidableEq

/-- The words of every sort; the flag `last` of a filtered line is never assigned. -/
abbrev LabelWord : LabelSort → Type
  | .sync => AxiPkg BurstSync
  | .weight => AxiPkg WeightItem
  | .filtered => WeightItem

/-- The streams of every sort. -/
inductive LabelStream : LabelSort → Type where
  | syncIn : LabelStream .sync
  | weightIn : LabelStream .weight
  | syncOut : LabelStream .sync
  | weightOut : LabelStream .filtered
deriving DecidableEq

/-- A stream as a stream of the system. -/
abbrev LabelStream.chan {s : LabelSort} (c : LabelStream s) : Chan LabelStream := ⟨s, c⟩

/-- The streams that `label_filter` reads. -/
inductive LabelIn where
  | syncIn
  | weightIn
deriving DecidableEq

instance : Fintype LabelIn := ⟨{.syncIn, .weightIn}, fun x => by cases x <;> decide⟩

/-- The streams that `label_filter` writes. -/
inductive LabelOut where
  | syncOut
  | weightOut
deriving DecidableEq

instance : Fintype LabelOut := ⟨{.syncOut, .weightOut}, fun x => by cases x <;> decide⟩

abbrev LabelIn.sort : LabelIn → LabelSort
  | .syncIn => .sync
  | .weightIn => .weight

abbrev LabelOut.sort : LabelOut → LabelSort
  | .syncOut => .sync
  | .weightOut => .filtered

/-- Registers of `label_filter`. -/
inductive LabelRegs where
  | pollSync
  | pollWeight (sync : AxiPkg BurstSync)
  | writeSync (sync : AxiPkg BurstSync) (outWeight : WeightItem)
  | writeWeight (outWeight : WeightItem)

/-- The loop of `label_filter`.  A token that finds no line is overwritten by the next one. -/
def labelFilterKernel :
    Kernel (fun i : LabelIn => LabelWord i.sort) (fun o : LabelOut => LabelWord o.sort) where
  σ := LabelRegs
  Ω := Empty
  start := .pollSync
  op
    | .pollSync => .readNb .syncIn fun
        | some sync => .pollWeight sync
        | none => .pollSync
    | .pollWeight sync => .readNb .weightIn fun
        | some weight => .writeSync sync (labelWeights sync.data.state weight.data)
        | none => .pollSync
    | .writeSync sync outWeight => .write .syncOut sync (.writeWeight outWeight)
    | .writeWeight outWeight => .write .weightOut outWeight .pollSync

/-- The token that waits for its line. -/
def LabelRegs.token : LabelRegs → List (AxiPkg BurstSync)
  | .pollWeight sync => [sync]
  | _ => []

/-- The token that is still to be sent. -/
def LabelRegs.owedSync : LabelRegs → List (AxiPkg BurstSync)
  | .writeSync sync _ => [sync]
  | _ => []

/-- The line that is still to be sent. -/
def LabelRegs.owedWeight : LabelRegs → List WeightItem
  | .writeSync _ outWeight => [outWeight]
  | .writeWeight outWeight => [outWeight]
  | _ => []

/-- What `label_filter` has read and written when no token has been lost. -/
structure Filtered (pairs : List (AxiPkg BurstSync × AxiPkg WeightItem)) (r : LabelRegs)
    (R : ∀ i : LabelIn, List (LabelWord i.sort)) (S : ∀ o : LabelOut, List (LabelWord o.sort)) :
    Prop where
  syncIn : R .syncIn = pairs.map Prod.fst ++ r.token
  weightIn : R .weightIn = pairs.map Prod.snd
  syncOut : S .syncOut ++ r.owedSync = pairs.map Prod.fst
  weightOut : S .weightOut ++ r.owedWeight =
    pairs.map fun x => labelWeights x.1.data.state x.2.data

/-- Every operation but a failed second poll keeps tokens and lines together. -/
theorem Filtered.step {pairs} {r r' : LabelRegs}
    {e : Event (fun i : LabelIn => LabelWord i.sort) (fun o : LabelOut => LabelWord o.sort) Empty}
    {R : ∀ i : LabelIn, List (LabelWord i.sort)} {S : ∀ o : LabelOut, List (LabelWord o.sort)}
    (h : Filtered pairs r R S) (hl : labelFilterKernel.Local r e r')
    (hready : r.token ≠ [] → e ≠ .readNone LabelIn.weightIn) :
    ∃ pairs, Filtered pairs r' (e.received R) (e.sent S) := by
  obtain ⟨hsyncIn, hweightIn, hsyncOut, hweightOut⟩ := h
  have hy := hl.yields
  have hin : LabelIn.weightIn ≠ .syncIn := by decide
  have hout : LabelOut.weightOut ≠ .syncOut := by decide
  cases r with
  | pollSync =>
      rcases hy with ⟨rfl, rfl⟩ | ⟨sync, rfl, rfl⟩
      · exact ⟨pairs, hsyncIn, hweightIn, hsyncOut, hweightOut⟩
      · refine ⟨pairs, ?_, ?_, hsyncOut, hweightOut⟩
        · show Function.update R .syncIn (R .syncIn ++ [sync]) .syncIn = _
          rw [Function.update_self, hsyncIn]
          simp [LabelRegs.token]
        · show Function.update R .syncIn (R .syncIn ++ [sync]) .weightIn = _
          rw [Function.update_of_ne hin]
          exact hweightIn
  | pollWeight sync =>
      rcases hy with ⟨rfl, rfl⟩ | ⟨weight, rfl, rfl⟩
      · exact absurd rfl (hready (List.cons_ne_nil _ _))
      · refine ⟨pairs ++ [(sync, weight)], ?_, ?_, ?_, ?_⟩
        · show Function.update R .weightIn (R .weightIn ++ [weight]) .syncIn = _
          rw [Function.update_of_ne hin.symm, hsyncIn]
          simp [LabelRegs.token]
        · show Function.update R .weightIn (R .weightIn ++ [weight]) .weightIn = _
          rw [Function.update_self, hweightIn, List.map_append]
          rfl
        · rw [List.map_append, ← hsyncOut]
          simp [LabelRegs.owedSync, Event.sent]
        · rw [List.map_append, ← hweightOut]
          simp [LabelRegs.owedWeight, Event.sent]
  | writeSync sync outWeight =>
      obtain ⟨rfl, rfl⟩ := hy
      refine ⟨pairs, hsyncIn, hweightIn, ?_, ?_⟩
      · show Function.update S .syncOut (S .syncOut ++ [sync]) .syncOut ++ _ = _
        rw [Function.update_self, ← hsyncOut]
        simp [LabelRegs.owedSync]
      · show Function.update S .syncOut (S .syncOut ++ [sync]) .weightOut ++ _ = _
        rw [Function.update_of_ne hout]
        exact hweightOut
  | writeWeight outWeight =>
      obtain ⟨rfl, rfl⟩ := hy
      refine ⟨pairs, hsyncIn, hweightIn, ?_, ?_⟩
      · show Function.update S .weightOut (S .weightOut ++ [outWeight]) .syncOut ++ _ = _
        rw [Function.update_of_ne hout.symm]
        exact hsyncOut
      · show Function.update S .weightOut (S .weightOut ++ [outWeight]) .weightOut ++ _ = _
        rw [Function.update_self, ← hweightOut]
        simp [LabelRegs.owedWeight]

/-! ## Runs -/

/-- `label_filter` on its four streams. -/
def labelFilter : Call LabelStream LabelWord where
  In := LabelIn
  Out := LabelOut
  src i := ⟨i.sort, match i with
    | .syncIn => LabelStream.syncIn
    | .weightIn => LabelStream.weightIn⟩
  dst o := ⟨o.sort, match o with
    | .syncOut => LabelStream.syncOut
    | .weightOut => LabelStream.weightOut⟩
  kernel := labelFilterKernel

/-- `label_filter` between surroundings that may delay tokens and lines as they like. -/
def labelNet (depth : Chan LabelStream → ℕ) : Network Unit LabelStream LabelWord where
  node _ := labelFilter
  depth := depth

variable {depth : Chan LabelStream → ℕ}

theorem labelNet_pointToPoint : (labelNet depth).PointToPoint := by
  constructor
  · rintro ⟨p, i⟩ ⟨q, j⟩ h
    cases i <;> cases j <;> cases h <;> rfl
  · rintro ⟨p, i⟩ ⟨q, j⟩ h
    cases i <;> cases j <;> cases h <;> rfl

/-- When `label_filter` polls for the line of a token it has read, a line is queued. -/
def LineReady (s : (labelNet depth).State) (l : (labelNet depth).Label) : Prop :=
  (∃ e, l = .fire () (s.regs ()) e) → LabelRegs.token (s.regs ()) ≠ [] →
    (s.fifo LabelStream.weightIn.chan).queue ≠ []

/-- A poll that fails has found its stream empty. -/
theorem queue_of_readNone {s s' : (labelNet depth).State} {r} {i : LabelIn}
    (hs : (labelNet depth).Step s (.fire () r (.readNone i)) s') :
    (s.fifo (labelFilter.src i)).queue = [] := by
  obtain ⟨-, -, he⟩ := hs.fire_effect
  generalize s'.fifo = f at he
  cases he with
  | readNone h => exact h

/-- What has been read and written in every run in which the lines are ready. -/
theorem run_filtered {tr} {s : (labelNet depth).State}
    (hr : (labelNet depth).GuardedRun LineReady (labelNet depth).init tr s) :
    ∃ pairs, Filtered pairs (s.regs ()) (fun i => s.taken (labelFilter.src i))
      (fun o => s.written (labelFilter.dst o)) := by
  refine Network.GuardedRun.histories (N := labelNet depth) (p := ())
    (I := fun r R S => ∃ pairs, Filtered pairs r R S) labelNet_pointToPoint
      ⟨[], rfl, rfl, rfl, rfl⟩ ?_ hr
  rintro s s' e hok hs hl ⟨pairs, h⟩
  refine h.step hl ?_
  rintro htoken rfl
  exact hok ⟨_, rfl⟩ htoken (queue_of_readNone (i := .weightIn) hs)

/-- For all labels and ranges, all states that are no padding and every timing of tokens and lines
in which a line is ready whenever the token before it has been read: the `k`-th token is joined with
the `k`-th line, and the weights are 1 for the lanes in the range whose label is the state. -/
theorem labelFilter_pairs (depth : Chan LabelStream → ℕ) {tr} {s : (labelNet depth).State}
    (hr : (labelNet depth).GuardedRun LineReady (labelNet depth).init tr s)
    {lines : List LabelLine}
    (hlines : (s.written LabelStream.weightIn.chan).map AxiPkg.data = lines.map LabelLine.masked)
    (hstate : ∀ sync ∈ s.written LabelStream.syncIn.chan, sync.data.state ≠ 0) :
    s.written LabelStream.syncOut.chan <+: s.written LabelStream.syncIn.chan ∧
      s.written LabelStream.weightOut.chan <+:
        List.zipWith (fun sync line => LabelLine.weights sync.data.state line)
          (s.written LabelStream.syncIn.chan) lines ∧
      (s.regs () = LabelRegs.pollSync →
        s.written LabelStream.syncOut.chan = s.taken LabelStream.syncIn.chan ∧
          (s.written LabelStream.weightOut.chan).length =
            (s.written LabelStream.syncOut.chan).length) := by
  obtain ⟨pairs, h⟩ := run_filtered hr
  have hsyncIn : s.taken LabelStream.syncIn.chan =
      pairs.map Prod.fst ++ LabelRegs.token (s.regs ()) := h.syncIn
  have hweightIn : s.taken LabelStream.weightIn.chan = pairs.map Prod.snd := h.weightIn
  have hsyncOut : s.written LabelStream.syncOut.chan ++ LabelRegs.owedSync (s.regs ()) =
      pairs.map Prod.fst := h.syncOut
  have hweightOut : s.written LabelStream.weightOut.chan ++ LabelRegs.owedWeight (s.regs ()) =
      pairs.map fun x => labelWeights x.1.data.state x.2.data := h.weightOut
  have hsync : pairs.map Prod.fst <+: s.written LabelStream.syncIn.chan :=
    (hsyncIn ▸ List.prefix_append _ _).trans (s.taken_isPrefix _)
  have hweight : pairs.map Prod.snd <+: s.written LabelStream.weightIn.chan :=
    hweightIn ▸ s.taken_isPrefix _
  refine ⟨List.IsPrefix.trans ⟨_, hsyncOut⟩ hsync, List.IsPrefix.trans ⟨_, hweightOut⟩ ?_, ?_⟩
  · have hdata : pairs.map (fun x => x.2.data) <+: lines.map LabelLine.masked := by
      have hmap := hweight.map AxiPkg.data
      rw [hlines, List.map_map] at hmap
      exact hmap
    have hjoined := zipWith_isPrefix (fun sync data => labelWeights sync.data.state data) hsync hdata
    rw [List.zipWith_map, List.zipWith_self, List.zipWith_map_right,
      ← List.map_uncurry_zip_eq_zipWith] at hjoined
    have hweights : ((s.written LabelStream.syncIn.chan).zip lines).map
          (Function.uncurry fun sync line => labelWeights sync.data.state (LabelLine.masked line)) =
        ((s.written LabelStream.syncIn.chan).zip lines).map
          (Function.uncurry fun sync line => LabelLine.weights sync.data.state line) :=
      List.map_congr_left fun x hx =>
        labelWeights_masked (hstate x.1 (List.of_mem_zip hx).1) x.2
    rw [hweights] at hjoined
    rw [← List.map_uncurry_zip_eq_zipWith]
    exact hjoined
  · intro hbetween
    rw [hbetween] at hsyncIn hsyncOut hweightOut
    simp only [LabelRegs.token, LabelRegs.owedSync, LabelRegs.owedWeight, List.append_nil]
      at hsyncIn hsyncOut hweightOut
    refine ⟨hsyncOut.trans hsyncIn.symm, ?_⟩
    rw [hsyncOut, hweightOut, List.length_map, List.length_map]

/-- A token of a step in which the walk is in `state`. -/
def tokenOf (state : BitVec 16) : AxiPkg BurstSync := ⟨⟨0, 0, 0, 0, state⟩, false⟩

/-- A line of stored labels whose first four lanes lie in the range, with label 3 in the second and
the seventh lane. -/
def exampleLine : LabelLine where
  label i := if i = 1 ∨ i = 6 then 3 else 0x10003
  inRange i := i < 4

/-- The line arrives before its token. -/
def lineFirst : List (labelNet fun _ => 2).Action :=
  [.put LabelStream.weightIn.chan ⟨exampleLine.masked, false⟩,
    .put LabelStream.syncIn.chan (tokenOf 3)] ++ List.replicate 4 (.fire () none)

/-- Only the lane in the range has weight 1, and the label that agrees in 16 bits has not. -/
theorem labelFilter_pairs_lineFirst :
    ∃ s : (labelNet fun _ => 2).State,
      s.written LabelStream.weightOut.chan = [exampleLine.weights 3] ∧
        s.written LabelStream.weightOut.chan <+:
          List.zipWith (fun sync line => LabelLine.weights sync.data.state line)
            (s.written LabelStream.syncIn.chan) [exampleLine] ∧
          exampleLine.weights 3 = fun i => if i = 1 then 1 else 0 := by
  have hready : ∀ (s : (labelNet fun _ => 2).State) l,
      ((LabelRegs.token (s.regs ())).length = 0 ∨
        (s.fifo LabelStream.weightIn.chan).queue.length ≠ 0) → LineReady s l := by
    rintro s l hline - htoken hqueue
    rcases hline with htoken' | hqueue'
    · exact htoken (List.eq_nil_of_length_eq_zero htoken')
    · exact hqueue' (by rw [hqueue]; rfl)
  obtain ⟨tr, s, hs⟩ : ∃ tr s, Network.execute (fun (s : (labelNet fun _ => 2).State) _ =>
      (LabelRegs.token (s.regs ())).length = 0 ∨
        (s.fifo LabelStream.weightIn.chan).queue.length ≠ 0) lineFirst []
          (labelNet fun _ => 2).init = some (tr, s) := ⟨_, _, rfl⟩
  have hwritten : s.written LabelStream.syncIn.chan = [tokenOf 3] ∧
      (s.written LabelStream.weightIn.chan).map AxiPkg.data = [exampleLine].map LabelLine.masked ∧
        s.written LabelStream.weightOut.chan = [exampleLine.weights 3] := by
    cases hs
    decide +kernel
  obtain ⟨hsync, hlines, hout⟩ := hwritten
  have hstate : ∀ sync ∈ s.written LabelStream.syncIn.chan, sync.data.state ≠ 0 := by
    rw [hsync]
    decide
  exact ⟨s, hout, (labelFilter_pairs _ ((Network.execute_run .nil hs).mono hready) hlines hstate).2.1,
    by decide +kernel⟩

/-- The first of two tokens arrives before its line. -/
def tokenFirst : List (labelNet fun _ => 2).Action :=
  .put LabelStream.syncIn.chan (tokenOf 3) :: List.replicate 2 (.fire () none) ++
    [.put LabelStream.weightIn.chan ⟨exampleLine.masked, false⟩,
      .put LabelStream.syncIn.chan (tokenOf 4)] ++ List.replicate 4 (.fire () none)

/-- The first token is lost, and the second one is joined with the first line. -/
theorem labelFilter_loses :
    ¬∀ s : (labelNet fun _ => 2).State, (labelNet fun _ => 2).Reachable s →
      ∀ lines : List LabelLine,
        (s.written LabelStream.weightIn.chan).map AxiPkg.data = lines.map LabelLine.masked →
          (∀ sync ∈ s.written LabelStream.syncIn.chan, sync.data.state ≠ 0) →
            s.written LabelStream.syncOut.chan <+: s.written LabelStream.syncIn.chan ∧
              s.written LabelStream.weightOut.chan <+:
                List.zipWith (fun sync line => LabelLine.weights sync.data.state line)
                  (s.written LabelStream.syncIn.chan) lines := by
  intro hpairs
  obtain ⟨tr, s, hs⟩ : ∃ tr s, Network.execute (fun _ _ => True) tokenFirst []
      (labelNet fun _ => 2).init = some (tr, s) := ⟨_, _, rfl⟩
  have hwritten : s.written LabelStream.syncIn.chan = [tokenOf 3, tokenOf 4] ∧
      (s.written LabelStream.weightIn.chan).map AxiPkg.data = [exampleLine].map LabelLine.masked ∧
        s.written LabelStream.syncOut.chan = [tokenOf 4] := by
    cases hs
    decide +kernel
  obtain ⟨hsyncIn, hlines, hsyncOut⟩ := hwritten
  have hstate : ∀ sync ∈ s.written LabelStream.syncIn.chan, sync.data.state ≠ 0 := by
    rw [hsyncIn]
    decide
  have hprefix := (hpairs s ⟨tr, (Network.execute_run .nil hs).run⟩ [exampleLine] hlines hstate).1
  rw [hsyncIn, hsyncOut] at hprefix
  exact absurd hprefix (by decide)

end RidgeWalker.Burst
