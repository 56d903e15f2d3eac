import RidgeWalker.Dataflow.Streams

/-!
# Joining responses with what was sent past the engine

`rpa_out_frp`, `cla_out_frp`, `vcache_vd` and `vcache_update` poll for a response of a memory
engine, wait for the word that was sent past the engine, and send what the two make together,
if anything.

Main results:

- Theorem `joinKernel_path`: the two streams are joined by position.
-/

namespace RidgeWalker.Memory

open Dataflow

/-- The streams to be joined: the responses and what was sent past the engine. -/
inductive JoinIn where
  | inData
  | inState
deriving DecidableEq

instance : Fintype JoinIn := ⟨{.inData, .inState}, fun x => by cases x <;> decide⟩

section Join

variable {S : Type} {word : S → Type} {sort : JoinIn → S} {w : Type}

/-- Registers of a joining kernel. -/
inductive JoinRegs (d w : Type) where
  | poll
  | readState (dataPkg : d)
  | write (item : w)

/-- The loop of a joining kernel. -/
def joinKernel (word : S → Type) (sort : JoinIn → S)
    (join : word (sort .inData) → word (sort .inState) → Option w) :
    Kernel (fun i => word (sort i)) (fun _ : Unit => w) where
  σ := JoinRegs (word (sort .inData)) w
  Ω := Empty
  start := .poll
  op
    | .poll => .readNb .inData fun
        | some dataPkg => .readState dataPkg
        | none => .poll
    | .readState dataPkg => .read .inState fun statePkg =>
        match join dataPkg statePkg with
        | some item => .write item
        | none => .poll
    | .write item => .write () item .poll

/-- The response that waits for its other half. -/
def JoinRegs.waiting {d w : Type} : JoinRegs d w → List d
  | .readState dataPkg => [dataPkg]
  | _ => []

/-- The item that is still to be sent. -/
def JoinRegs.pending {d w : Type} : JoinRegs d w → List w
  | .write item => [item]
  | _ => []

/-- What a joining kernel has sent for the responses `done`, which are all but a waiting
one. -/
structure Joining (join : word (sort .inData) → word (sort .inState) → Option w)
    (r : JoinRegs (word (sort .inData)) w) (R : ∀ i, List (word (sort i))) (S : Unit → List w)
    (done : List (word (sort .inData))) : Prop where
  inData : R .inData = done ++ r.waiting
  inState : done.length = (R .inState).length
  out : S () ++ r.pending = (done.zip (R .inState)).filterMap fun x => join x.1 x.2

/-- Responses and what was sent past the engine are joined by position. -/
theorem joinKernel_path {join : word (sort .inData) → word (sort .inState) → Option w}
    {r : JoinRegs (word (sort .inData)) w} {R : ∀ i, List (word (sort i))}
    {T : Unit → List w} (h : (joinKernel word sort join).Path .poll r R T) :
    ∃ done, Joining join r R T done := by
  refine h.induct (I := fun (r : JoinRegs (word (sort .inData)) w) R T =>
    ∃ done, Joining join r R T done) ⟨[], rfl, rfl, rfl⟩ ?_
  rintro r R T ⟨done, hdata, hstate, hout⟩
  have hne : JoinIn.inState ≠ .inData := by decide
  cases r with
  | poll =>
      refine ⟨⟨done, hdata, hstate, hout⟩, fun dataPkg => ⟨done, ?_, ?_, ?_⟩⟩
      · rw [Function.update_self, hdata]
        simp [JoinRegs.waiting]
      · rwa [Function.update_of_ne hne]
      · rw [Function.update_of_ne hne]
        exact hout
  | readState dataPkg =>
      intro statePkg
      simp only [JoinRegs.pending, List.append_nil] at hout
      refine ⟨done ++ [dataPkg], ?_, ?_, ?_⟩
      · rw [Function.update_of_ne hne.symm, hdata]
        cases hjoin : join dataPkg statePkg <;> simp [JoinRegs.waiting, hjoin]
      · rw [Function.update_self, List.length_append, List.length_append, hstate]
        rfl
      · rw [Function.update_self, List.zip_append hstate, List.filterMap_append, ← hout]
        cases hjoin : join dataPkg statePkg <;> simp [JoinRegs.pending, hjoin]
  | write item =>
      refine ⟨done, hdata, hstate, ?_⟩
      simpa [JoinRegs.pending] using hout

/-- Joining prefixes of two streams yields a prefix of what the streams make together. -/
theorem Joining.isPrefix {join : word (sort .inData) → word (sort .inState) → Option w}
    {r : JoinRegs (word (sort .inData)) w} {R : ∀ i, List (word (sort i))} {T : Unit → List w}
    {done : List (word (sort .inData))} (h : Joining join r R T done)
    {datas : List (word (sort .inData))} {states : List (word (sort .inState))}
    (hdata : R .inData <+: datas) (hstate : R .inState <+: states) :
    T () <+: (datas.zip states).filterMap fun x => join x.1 x.2 := by
  have hdone : done <+: datas := by
    rw [h.inData] at hdata
    exact (List.prefix_append _ _).trans hdata
  have hzip := zipWith_isPrefix Prod.mk hdone hstate
  have hall := hzip.filterMap fun x => join x.1 x.2
  refine (List.prefix_append _ r.pending).trans ?_
  rw [h.out]
  exact hall

end Join

end RidgeWalker.Memory
