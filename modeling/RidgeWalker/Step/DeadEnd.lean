import RidgeWalker.Burst.Scheduler

/-!
# Dead ends

A walk that gets the no-neighbour marker is meant to stay where it is: its vertex carries the
dead-end bit from then on, and nothing is requested for it.  `step_update` treats a query with
two remaining steps apart from all others and lets the update override its vertex, so that a
dead end loses its vertex there.

Main results:

- Theorem `later_deadEnd`: after the marker nothing is requested any more.
- Theorem `dead_end_kept`: the vertex is kept exactly if the marker comes with the last step, or
  the vertex is vertex 0.
-/

namespace RidgeWalker.Step

open Dataflow Bits Memory Cache Burst RidgeWalker.Ring

/-! ## The loop of a walk -/

/-- The dead-end bit. -/
def deadEndBit : BitVec 32 := 0x80000000#32

/-- The no-neighbour marker as `step_update` receives it. -/
def marker : BitVec 64 := 0x80000000#64

/-- `metapath_sm`, on one query. -/
def metapathSm (lut : BitVec 9 → BitVec 16) (v : StepMetadata) : StepMetadata :=
  let remainStep := range v.remainStep 0 9
  { v with remainStep := remainStep.setWidth 32, state := lut remainStep }

/-- `step_update` of `srw`, on one query, and the `assert` field of what it sends. -/
def srwStepUpdate (originStep : StepMetadata) (nvitem : BitVec 64) : StepMetadata × BitVec 32 :=
  let updateVertex : BitVec 32 := nvitem.setWidth 32
  let newStep : StepMetadata :=
    { currVertex :=
        if originStep.remainStep = 2 then updateVertex ||| deadEndBit
        else if updateVertex &&& deadEndBit = deadEndBit then originStep.currVertex ||| deadEndBit
        else updateVertex
      remainStep := originStep.remainStep - 1
      state := originStep.state
      ringState := originStep.ringState
      innerState := originStep.innerState }
  (newStep, originStep.currVertex)

/-- What happens to a query on its way round: what is done to it before its vertex is requested,
how an answer is fetched, and how it updates the query. -/
structure WalkLoop where
  relay : StepMetadata → StepMetadata
  fetch : BitVec 64 → BitVec 64
  update : StepMetadata → BitVec 64 → StepMetadata

/-- The loop of the metapath application. -/
def metapathLoop (lut : BitVec 9 → BitVec 16) (vertex : BitVec 32 → BitVec 32) : WalkLoop where
  relay := metapathSm lut
  fetch answer := (fetched vertex ⟨answer, false⟩).data
  update := stepUpdate

/-- The loop of the node2vec application, whose `fetch_next_instance` copies the vertex. -/
def node2vecLoop : WalkLoop where
  relay q := q
  fetch answer := (answer.setWidth 32).setWidth 64
  update q answer := (srwStepUpdate q answer).1

/-- The request for the vertex of a query. -/
def requestPkg (q : StepMetadata) : AxiPkg (BitVec 64) := ⟨q.currVertex.setWidth 64, false⟩

/-- An answer to a query: the marker if the descriptor of its vertex is empty, and whatever the
sampler selects if it is not. -/
inductive Answer (data : BitVec 32 → BitVec 64) (q : StepMetadata) : BitVec 64 → Prop where
  | shortcut (h : (descriptorOf data (requestPkg q)).data.size = 0) : Answer data q marker
  | sampled (h : (descriptorOf data (requestPkg q)).data.size ≠ 0) (x : BitVec 32) :
      Answer data q (x.setWidth 64)

/-- A query after one more round. -/
def WalkLoop.hop (L : WalkLoop) (q : StepMetadata) (answer : BitVec 64) : StepMetadata :=
  L.update (L.relay q) (L.fetch answer)

/-- What `step_update` sends for a query from the marker on, until no step remains. -/
inductive Later (L : WalkLoop) (data : BitVec 32 → BitVec 64) (q : StepMetadata) :
    StepMetadata → Prop where
  | marker : Later L data q (L.hop q marker)
  | next {q' answer} (h : Later L data q q') (hremain : q'.remainStep ≠ 0)
      (hanswer : Answer data q' answer) : Later L data q (L.hop q' answer)

/-- Nothing is requested for a query: the loader does not read memory, whatever it has cached,
and `vd_scheduler` sends no command. -/
def NoRequest (data : BitVec 32 → BitVec 64) (q : StepMetadata) : Prop :=
  (∀ arrays : VCache, arrays.memAccessFlag (requestPkg q).data = false) ∧
    ∀ d : Dispatch, d.pkg.data = (descriptorOf data (requestPkg q)).data →
      d.sends .singleBurst = [] ∧ d.sends .dynamicBurstVd = []

/-- The walk stays where it got the marker, and nothing is requested for it any more. -/
def StaysAt (L : WalkLoop) (data : BitVec 32 → BitVec 64) (q : StepMetadata) : Prop :=
  ∀ q', Later L data q q' → q'.currVertex = q.currVertex ||| deadEndBit ∧ NoRequest data q'

/-! ## The dead-end bit -/

theorem or_and_cancel {n : ℕ} (x y : BitVec n) : (x ||| y) &&& y = y := by
  ext i hi
  rw [BitVec.getElem_and, BitVec.getElem_or]
  cases x[i] <;> cases y[i] <;> rfl

/-- A vertex with the dead-end bit is requested as a dead end. -/
theorem deadEnd_requestPkg {q : StepMetadata} {v : BitVec 32}
    (h : q.currVertex = v ||| deadEndBit) : deadEnd (requestPkg q).data = true := by
  have hbit : deadEndBit.setWidth 64 = 0x80000000#64 := by decide
  rw [deadEnd, requestPkg, h, BitVec.setWidth_or, hbit, or_and_cancel]
  rfl

/-- Nothing is requested for a dead end. -/
theorem noRequest_of_deadEnd (data : BitVec 32 → BitVec 64) {q : StepMetadata}
    (h : deadEnd (requestPkg q).data = true) : NoRequest data q := by
  refine ⟨fun arrays => by simp [VCache.memAccessFlag, h], fun d hd => ?_⟩
  have hempty : d.isEmpty = true := by
    rw [Dispatch.isEmpty, hd, descriptorOf, h]
    rfl
  constructor
  · simp [Dispatch.sends, hempty]
  · simp [Dispatch.sends, hempty]

/-- The answer to a dead end is the marker. -/
theorem answer_of_deadEnd {data : BitVec 32 → BitVec 64} {q : StepMetadata}
    (h : deadEnd (requestPkg q).data = true) (answer : BitVec 64) :
    Answer data q answer ↔ answer = marker := by
  have hsize : (descriptorOf data (requestPkg q)).data.size = 0 := by
    rw [descriptorOf, h]
    rfl
  constructor
  · intro hanswer
    cases hanswer with
    | shortcut _ => rfl
    | sampled hne _ => exact absurd hsize hne
  · rintro rfl
    exact .shortcut hsize

/-! ## Rounds with the marker -/

/-- The remaining steps that `step_update` sees. -/
def WalkLoop.remain (L : WalkLoop) (q : StepMetadata) : BitVec 32 := (L.relay q).remainStep

/-- What a round with the marker does to a query: with two steps left its vertex is lost. -/
structure WalkLoop.Marks (L : WalkLoop) : Prop where
  currVertex : ∀ q, (L.hop q marker).currVertex =
    if L.remain q = 2 then deadEndBit else q.currVertex ||| deadEndBit
  remainStep : ∀ q, (L.hop q marker).remainStep = L.remain q - 1
  remain_zero : ∀ q, q.remainStep = 0 → L.remain q = 0
  remain_pred : ∀ q, L.remain q ≠ 0 → L.remain (L.hop q marker) = L.remain q - 1
  remain_wrap : ∀ q, L.remain q = 0 → 2 ≤ (L.remain (L.hop q marker)).toNat

theorem toNat_pred {x : BitVec 32} (h : x ≠ 0) : (x - 1).toNat = x.toNat - 1 := by
  have hlt := x.isLt
  have hpos : x.toNat ≠ 0 := fun h0 => h (BitVec.eq_of_toNat_eq h0)
  have hone : (1 : BitVec 32).toNat = 1 := rfl
  rw [BitVec.toNat_sub, hone]
  omega

/-- Masking with a single bit reads it. -/
theorem and_twoPow_eq_iff {w i : ℕ} (hi : i < w) (x : BitVec w) :
    x &&& BitVec.twoPow w i = BitVec.twoPow w i ↔ x.getLsbD i = true := by
  have hone : (BitVec.twoPow w i).getLsbD i = true := by
    rw [BitVec.getLsbD_twoPow, decide_eq_true hi]
    simp
  rw [BitVec.and_twoPow]
  split
  case isTrue hbit => exact iff_of_true rfl hbit
  case isFalse hbit =>
    refine iff_of_false (fun h => ?_) hbit
    rw [← h, BitVec.getLsbD_zero] at hone
    cases hone

/-- `step_update` of `srw` updates a query as that of `mrw` does. -/
theorem srwStepUpdate_fst (q : StepMetadata) (nvitem : BitVec 64) :
    (srwStepUpdate q nvitem).1 = stepUpdate q nvitem := by
  have hor : nvitem.setWidth 32 ||| deadEndBit = (nvitem ||| 0x80000000#64).setWidth 32 := by
    rw [BitVec.setWidth_or]
    rfl
  have hand : nvitem.setWidth 32 &&& deadEndBit = deadEndBit ↔
      nvitem &&& 0x80000000#64 = 0x80000000#64 := by
    have h32 := and_twoPow_eq_iff (i := 31) (by decide) (nvitem.setWidth 32)
    have h64 := and_twoPow_eq_iff (i := 31) (by decide) nvitem
    rw [BitVec.getLsbD_setWidth, Bool.and_eq_true] at h32
    exact h32.trans ((and_iff_right (by decide)).trans h64.symm)
  simp only [srwStepUpdate, stepUpdate, hor, hand]
  rfl

/-- What the marker does to the vertex of a query. -/
theorem stepUpdate_marker (q : StepMetadata) : (stepUpdate q marker).currVertex =
    if q.remainStep = 2 then deadEndBit else q.currVertex ||| deadEndBit := by
  simp only [stepUpdate]
  split <;> rfl

theorem toNat_remain_metapath (lut : BitVec 9 → BitVec 16) (vertex : BitVec 32 → BitVec 32)
    (q : StepMetadata) :
    ((metapathLoop lut vertex).remain q).toNat = q.remainStep.toNat % 512 := by
  simp only [WalkLoop.remain, metapathLoop, metapathSm, BitVec.toNat_setWidth, toNat_range]
  omega

theorem metapathLoop_marks (lut : BitVec 9 → BitVec 16) (vertex : BitVec 32 → BitVec 32) :
    (metapathLoop lut vertex).Marks := by
  have hremain : ∀ q, ((metapathLoop lut vertex).hop q marker).remainStep =
      (metapathLoop lut vertex).remain q - 1 := fun q => rfl
  refine ⟨fun q => ?_, hremain, fun q hq => ?_, fun q hq => ?_, fun q hq => ?_⟩
  · exact stepUpdate_marker (metapathSm lut q)
  · apply BitVec.eq_of_toNat_eq
    rw [toNat_remain_metapath, hq]
    rfl
  · apply BitVec.eq_of_toNat_eq
    have hlt := toNat_remain_metapath lut vertex q
    rw [toNat_remain_metapath, hremain, toNat_pred hq]
    omega
  · rw [toNat_remain_metapath, hremain, hq]
    decide

theorem node2vecLoop_marks : node2vecLoop.Marks := by
  have hhop : ∀ q, node2vecLoop.hop q marker = stepUpdate q marker := by
    intro q
    exact srwStepUpdate_fst q _
  have hremain : ∀ q, (node2vecLoop.hop q marker).remainStep = node2vecLoop.remain q - 1 :=
    fun q => rfl
  refine ⟨fun q => ?_, hremain, fun q hq => hq, fun q _ => rfl, fun q hq => ?_⟩
  · rw [hhop]
    exact stepUpdate_marker q
  · change 2 ≤ ((node2vecLoop.hop q marker).remainStep).toNat
    rw [hremain, hq]
    decide

section Marked

variable {L : WalkLoop} (hL : L.Marks) {data : BitVec 32 → BitVec 64} {q : StepMetadata}
include hL

/-- After the marker every query is a dead end. -/
theorem later_deadEnd {q' : StepMetadata} (h : Later L data q q') :
    deadEnd (requestPkg q').data = true := by
  have hmarked : ∀ q, ∃ v, (L.hop q marker).currVertex = v ||| deadEndBit := by
    intro q
    rw [hL.currVertex]
    split
    · exact ⟨0, by decide⟩
    · exact ⟨_, rfl⟩
  induction h with
  | marker =>
      obtain ⟨v, hv⟩ := hmarked q
      exact deadEnd_requestPkg hv
  | @next q' answer h _ hanswer ih =>
      rw [(answer_of_deadEnd ih answer).mp hanswer]
      obtain ⟨v, hv⟩ := hmarked q'
      exact deadEnd_requestPkg hv

/-- The last round of a walk is the one that gets the marker with one step left. -/
theorem later_last (hq : L.remain q = 1) {q' : StepMetadata} (h : Later L data q q') :
    q' = L.hop q marker := by
  induction h with
  | marker => rfl
  | next _ hremain _ ih =>
      refine absurd ?_ hremain
      rw [ih, hL.remainStep, hq]
      rfl

/-- Vertex 0 cannot be lost. -/
theorem later_zero (hq : q.currVertex ||| deadEndBit = deadEndBit) {q' : StepMetadata}
    (h : Later L data q q') : q'.currVertex = deadEndBit := by
  induction h with
  | marker =>
      rw [hL.currVertex, hq]
      split <;> rfl
  | @next q' answer h _ hanswer ih =>
      rw [(answer_of_deadEnd (later_deadEnd hL h) answer).mp hanswer, hL.currVertex, ih]
      split <;> rfl

/-- A walk with two or more steps left comes to the round that loses its vertex. -/
theorem later_lost (n : ℕ) {q' : StepMetadata} (h : Later L data q q')
    (hremain : (L.remain q').toNat = n + 2) :
    ∃ q'', Later L data q q'' ∧ q''.currVertex = deadEndBit := by
  have hne : L.remain q' ≠ 0 := by
    intro h0
    simp [h0] at hremain
  have hstep : q'.remainStep ≠ 0 := fun h0 => hne (hL.remain_zero q' h0)
  have hnext := h.next hstep ((answer_of_deadEnd (later_deadEnd hL h) marker).mpr rfl)
  induction n generalizing q' with
  | zero =>
      refine ⟨_, hnext, ?_⟩
      rw [hL.currVertex, if_pos (BitVec.eq_of_toNat_eq hremain)]
  | succ n ih =>
      have hpred : (L.remain (L.hop q' marker)).toNat = n + 2 := by
        rw [hL.remain_pred q' hne, toNat_pred hne]
        omega
      have hne' : L.remain (L.hop q' marker) ≠ 0 := by
        intro h0
        rw [h0] at hpred
        cases hpred
      have hstep' : (L.hop q' marker).remainStep ≠ 0 := fun h0 => hne' (hL.remain_zero _ h0)
      exact ih hnext hpred hne' hstep'
        (hnext.next hstep' ((answer_of_deadEnd (later_deadEnd hL hnext) marker).mpr rfl))

/-- The vertex is kept exactly if the marker comes with the last step, or the vertex is vertex
0. -/
theorem staysAt_iff :
    StaysAt L data q ↔ L.remain q = 1 ∨ q.currVertex ||| deadEndBit = deadEndBit := by
  constructor
  · intro hstays
    by_contra hnot
    obtain ⟨hone, hzero⟩ := not_or.mp hnot
    have hlost : ∃ q', Later L data q q' ∧ q'.currVertex = deadEndBit := by
      by_cases htwo : L.remain q = 2
      · exact ⟨_, .marker, by rw [hL.currVertex, if_pos htwo]⟩
      · have htwoLe : 2 ≤ (L.remain (L.hop q marker)).toNat := by
          by_cases h0 : L.remain q = 0
          · exact hL.remain_wrap q h0
          · have h0' : (L.remain q).toNat ≠ 0 := fun h => h0 (BitVec.eq_of_toNat_eq h)
            have hone' : (L.remain q).toNat ≠ 1 := fun h => hone (BitVec.eq_of_toNat_eq h)
            have htwo' : (L.remain q).toNat ≠ 2 := fun h => htwo (BitVec.eq_of_toNat_eq h)
            rw [hL.remain_pred q h0, toNat_pred h0]
            omega
        obtain ⟨n, hn⟩ := Nat.exists_eq_add_of_le' htwoLe
        exact later_lost hL n .marker hn
    obtain ⟨q', hlater, hcurr⟩ := hlost
    exact hzero ((hstays q' hlater).1.symm.trans hcurr)
  · intro hwhen q' hlater
    refine ⟨?_, noRequest_of_deadEnd data (later_deadEnd hL hlater)⟩
    rcases hwhen with hone | hzero
    · rw [later_last hL hone hlater, hL.currVertex, hone]
      rfl
    · rw [later_zero hL hzero hlater, hzero]

end Marked

/-- For every graph, every query and every number of remaining steps, in both applications: a
walk that gets the marker keeps its vertex exactly if it gets it with one step left or stands on
vertex 0. -/
theorem dead_end_kept (data : BitVec 32 → BitVec 64) (lut : BitVec 9 → BitVec 16)
    (vertex : BitVec 32 → BitVec 32) (q : StepMetadata) :
    (StaysAt (metapathLoop lut vertex) data q ↔
      (metapathLoop lut vertex).remain q = 1 ∨ q.currVertex ||| deadEndBit = deadEndBit) ∧
    (StaysAt node2vecLoop data q ↔
      node2vecLoop.remain q = 1 ∨ q.currVertex ||| deadEndBit = deadEndBit) :=
  ⟨staysAt_iff (metapathLoop_marks lut vertex), staysAt_iff node2vecLoop_marks⟩

/-- Vertex 5, at which a walk gets the marker with two steps left, becomes vertex 0. -/
theorem dead_end_lost :
    ¬ ∀ (data : BitVec 32 → BitVec 64) (lut : BitVec 9 → BitVec 16)
      (vertex : BitVec 32 → BitVec 32) (q : StepMetadata),
      StaysAt (metapathLoop lut vertex) data q := by
  intro hall
  have hstays := hall (fun _ => 0) (fun _ => 0) (fun _ => 0) ⟨5, 2, 0, 0, 0⟩
  have hcurr := (hstays _ .marker).1
  exact absurd hcurr (by decide)

end RidgeWalker.Step
