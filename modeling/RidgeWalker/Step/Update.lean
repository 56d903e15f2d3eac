import RidgeWalker.Dataflow.Streams
import RidgeWalker.Memory.Engine
import RidgeWalker.Ring.Manager

/-!
# Fetching the next vertex and updating a step

`fetch_next` turns the index that the sampler has selected into a vertex and joins it with the
query it was selected for, by position.  The metapath application (`mrw`) looks the index up in
the column list and returns after the last step; the node2vec application (`srw`) receives
vertices and runs freely.

Main results:

- Theorem `fetchNextKernel_path`: every selected index is fetched, in order.
- Theorem `stepUpdateKernel_path`: the k-th fetched vertex updates the k-th query.
-/

namespace RidgeWalker.Step

open Dataflow Memory RidgeWalker.Ring

/-! ## One step -/

/-- `fetch_next_instance` of `mrw`, on one index. -/
def fetched (vertex : BitVec 32 → BitVec 32) (inPkg : AxiPkg (BitVec 64)) : AxiPkg (BitVec 64) where
  data :=
    let sampleIndex : BitVec 32 := inPkg.data.setWidth 32
    if sampleIndex &&& 0x80000000#32 = 0x80000000#32 then sampleIndex.setWidth 64
    else (vertex sampleIndex).setWidth 64
  last := inPkg.last

/-- `step_update` of `mrw`, on one query.  The assignment for `remain_step == 2` comes last and
overrides the others. -/
def stepUpdate (originStep : StepMetadata) (updateVertex : BitVec 64) : StepMetadata where
  currVertex :=
    if originStep.remainStep = 2 then (updateVertex ||| 0x80000000#64).setWidth 32
    else if updateVertex &&& 0x80000000#64 = 0x80000000#64 then
      originStep.currVertex ||| 0x80000000#32
    else updateVertex.setWidth 32
  remainStep := originStep.remainStep - 1
  state := originStep.state
  ringState := originStep.ringState
  innerState := originStep.innerState

/-- The query that `step_update` sends. -/
def newStepPkg (originStep : StepMetadataPkg) (updateVertexPkg : AxiPkg (BitVec 64)) :
    StepMetadataPkg :=
  ⟨stepUpdate originStep.data updateVertexPkg.data, updateVertexPkg.last⟩

/-! ## The kernels of `mrw` -/

/-- Registers of `fetch_next_instance`. -/
inductive FetchRegs where
  | read
  | write (vPkg : AxiPkg (BitVec 64))
  | returned

/-- The loop of `fetch_next_instance`.  After it has returned the host may start it again. -/
def fetchNextKernel (vertex : BitVec 32 → BitVec 32) :
    Kernel (fun _ : Unit => AxiPkg (BitVec 64)) (fun _ : Unit => AxiPkg (BitVec 64)) where
  σ := FetchRegs
  Ω := Unit
  start := .read
  op
    | .read => .read () fun inPkg => .write (fetched vertex inPkg)
    | .write vPkg => .write () vPkg (if vPkg.last then .returned else .read)
    | .returned => .choose fun _ => .read

/-- The vertex that is still to be sent. -/
def FetchRegs.pending : FetchRegs → List (AxiPkg (BitVec 64))
  | .write vPkg => [vPkg]
  | _ => []

/-- Every selected index is fetched, in order and across all invocations. -/
theorem fetchNextKernel_path {vertex : BitVec 32 → BitVec 32} {r : FetchRegs}
    {R : Unit → List (AxiPkg (BitVec 64))} {S : Unit → List (AxiPkg (BitVec 64))}
    (h : (fetchNextKernel vertex).Path .read r R S) :
    S () ++ r.pending = (R ()).map (fetched vertex) := by
  refine h.induct (I := fun (r : FetchRegs) R S =>
    S () ++ r.pending = (R ()).map (fetched vertex)) rfl ?_
  intro r R S hI
  cases r with
  | read =>
      intro inPkg
      simp only [FetchRegs.pending, List.append_nil] at hI
      simp [FetchRegs.pending, hI]
  | write vPkg =>
      simp only [Kernel.Keeps, fetchNextKernel, Function.update_self]
      split <;> simpa [FetchRegs.pending] using hI
  | returned => exact fun _ => hI

/-- The streams that `step_update` reads. -/
inductive UpdateIn where
  | origin
  | update
deriving DecidableEq

instance : Fintype UpdateIn := ⟨{.origin, .update}, fun x => by cases x <;> decide⟩

/-- The sorts of streams around `fetch_next`. -/
inductive StepSort where
  | query
  | vertex
deriving DecidableEq

/-- The words of every sort. -/
abbrev StepWord : StepSort → Type
  | .query => StepMetadataPkg
  | .vertex => AxiPkg (BitVec 64)

abbrev UpdateIn.sort : UpdateIn → StepSort
  | .origin => .query
  | .update => .vertex

/-- Registers of `step_update`. -/
inductive StepRegs where
  | readOrigin
  | readUpdate (originStep : StepMetadataPkg)
  | write (newStepPkg : StepMetadataPkg)
  | returned

/-- The loop of `step_update`.  After it has returned the host may start it again. -/
def stepUpdateKernel :
    Kernel (fun i : UpdateIn => StepWord i.sort) (fun _ : Unit => StepMetadataPkg) where
  σ := StepRegs
  Ω := Unit
  start := .readOrigin
  op
    | .readOrigin => .read .origin .readUpdate
    | .readUpdate originStep => .read .update fun updateVertexPkg =>
        .write (newStepPkg originStep updateVertexPkg)
    | .write newStepPkg => .write () newStepPkg (if newStepPkg.last then .returned else .readOrigin)
    | .returned => .choose fun _ => .readOrigin

/-- The query that waits for its update. -/
def StepRegs.waiting : StepRegs → List StepMetadataPkg
  | .readUpdate originStep => [originStep]
  | _ => []

/-- The query that is still to be sent. -/
def StepRegs.pending : StepRegs → List StepMetadataPkg
  | .write newStepPkg => [newStepPkg]
  | _ => []

/-- What `step_update` has sent for the queries `updated`, which are all but a waiting one. -/
structure Updating (r : StepRegs) (R : ∀ i : UpdateIn, List (StepWord i.sort))
    (S : Unit → List StepMetadataPkg) (updated : List StepMetadataPkg) : Prop where
  origin : R .origin = updated ++ r.waiting
  update : updated.length = (R .update).length
  out : S () ++ r.pending = List.zipWith newStepPkg updated (R .update)

/-- The k-th fetched vertex updates the k-th query, across all invocations. -/
theorem stepUpdateKernel_path {r : StepRegs} {R : ∀ i : UpdateIn, List (StepWord i.sort)}
    {S : Unit → List StepMetadataPkg} (h : stepUpdateKernel.Path .readOrigin r R S) :
    ∃ updated, Updating r R S updated := by
  refine h.induct (I := fun (r : StepRegs) (R : ∀ i : UpdateIn, List (StepWord i.sort)) S =>
    ∃ updated, Updating r R S updated) ⟨[], rfl, rfl, rfl⟩ ?_
  rintro r R S ⟨updated, horigin, hupdate, hout⟩
  have hne : UpdateIn.origin ≠ .update := by decide
  cases r with
  | readOrigin =>
      intro originStep
      refine ⟨updated, ?_, ?_, ?_⟩
      · rw [Function.update_self, horigin]
        simp [StepRegs.waiting]
      · rwa [Function.update_of_ne hne.symm]
      · rw [Function.update_of_ne hne.symm]
        exact hout
  | readUpdate originStep =>
      intro updateVertexPkg
      simp only [StepRegs.pending, List.append_nil] at hout
      refine ⟨updated ++ [originStep], ?_, ?_, ?_⟩
      · rw [Function.update_of_ne hne, horigin]
        simp [StepRegs.waiting]
      · rw [Function.update_self, List.length_append, List.length_append, hupdate]
        rfl
      · rw [Function.update_self, List.zipWith_append hupdate, ← hout]
        rfl
  | write newStepPkg =>
      refine ⟨updated, ?_, hupdate, ?_⟩
      · rw [horigin]
        split <;> rfl
      · rw [Function.update_self]
        split <;> simpa [StepRegs.pending] using hout
  | returned => exact fun _ => ⟨updated, horigin, hupdate, hout⟩

/-- Queries and vertices that are known only in part are updated by position all the same. -/
theorem Updating.isPrefix {r : StepRegs} {R : ∀ i : UpdateIn, List (StepWord i.sort)}
    {S : Unit → List StepMetadataPkg} {updated : List StepMetadataPkg} (h : Updating r R S updated)
    {origins : List StepMetadataPkg} {vertices : List (AxiPkg (BitVec 64))}
    (horigin : R .origin <+: origins) (hupdate : R .update <+: vertices) :
    S () <+: List.zipWith newStepPkg origins vertices := by
  have hupdated : updated <+: origins := by
    rw [h.origin] at horigin
    exact (List.prefix_append _ _).trans horigin
  refine (List.prefix_append _ r.pending).trans ?_
  rw [h.out]
  exact zipWith_isPrefix newStepPkg hupdated hupdate

end RidgeWalker.Step
