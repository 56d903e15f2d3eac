import RidgeWalker.Dataflow.Conservation
import RidgeWalker.Dataflow.Interleave

/-!
# Package kernels of the butterfly networks

The kernels from which the butterfly networks are built: `distribute_package` sends a
package to one of two streams by a masked field of its destination,
`ws_distribute_package` sends it to whichever of two streams has room, and
`merge_package` arbitrates between two streams.

Main results:

- Theorem `distributePackageKernel_path`: what was sent on each output, together with
  the package still in the registers, is what was received for that output.
- Theorem `mergePackageKernel_path`: what was sent, together with the package still in
  the registers, is an order-preserving merge of the two inputs.
- Theorem `PackageCall.balanced`: no operation of a kernel whose route is total loses or
  repeats a package.
-/

namespace RidgeWalker.Switch

open Dataflow

/-- `route_id_t`. -/
abbrev RouteId := BitVec 8

/-- A package with a destination in front of its data, as `route_vertex_t`. -/
structure Routed (α : Type) where
  dest : RouteId
  data : α
deriving DecidableEq

/-- An item of a `frp` stream: the packed structure and the `last` bit above it. -/
structure Frp (α : Type) where
  data : α
  last : Bool
deriving DecidableEq

/-! ## `distribute_package` -/

section Distribute

variable {w : Type}

/-- Registers of `distribute_package`. -/
inductive DistributeRegs (w : Type) where
  | poll
  | emit (o : Fin 2) (item : w)

/-- The output that `distribute_package` selects; `none` drops the package. -/
def distributeRoute (dest : w → RouteId) (id1 id2 mask : RouteId) (item : w) : Option (Fin 2) :=
  if dest item &&& mask = id1 then some 0
  else if dest item &&& mask = id2 then some 1
  else none

/-- The loop of `distribute_package`. -/
def distributePackageKernel (dest : w → RouteId) (id1 id2 mask : RouteId) :
    Kernel (fun _ : Unit => w) (fun _ : Fin 2 => w) where
  σ := DistributeRegs w
  Ω := Empty
  start := .poll
  op
    | .poll => .readNb () fun
        | none => .poll
        | some item =>
            match distributeRoute dest id1 id2 mask item with
            | some o => .emit o item
            | none => .poll
    | .emit o item => .write o item .poll

/-- The package in the registers, if it is to leave on output `o`. -/
def DistributeRegs.pending (o : Fin 2) : DistributeRegs w → List w
  | .poll => []
  | .emit o' item => if o' = o then [item] else []

/-- Everything sent or about to be sent on an output is what was received for it. -/
theorem distributePackageKernel_path {dest : w → RouteId} {id1 id2 mask : RouteId}
    {r : DistributeRegs w} {R : Unit → List w} {S : Fin 2 → List w}
    (h : (distributePackageKernel dest id1 id2 mask).Path .poll r R S) (o : Fin 2) :
    S o ++ r.pending o =
      (R ()).filter fun x => distributeRoute dest id1 id2 mask x = some o := by
  refine h.induct (I := fun (r : DistributeRegs w) R S => S o ++ r.pending o =
    (R ()).filter fun x => distributeRoute dest id1 id2 mask x = some o) ?_ ?_
  · rfl
  · intro r R S hI
    cases r with
    | poll =>
        refine ⟨hI, fun item => ?_⟩
        simp only [DistributeRegs.pending, List.append_nil] at hI
        simp only [Function.update_self, List.filter_append, List.filter_cons, List.filter_nil,
          ← hI]
        cases hroute : distributeRoute dest id1 id2 mask item with
        | none => simp [DistributeRegs.pending]
        | some o' => by_cases ho : o' = o <;> simp [DistributeRegs.pending, ho]
    | emit o' item =>
        by_cases ho : o' = o
        · subst ho
          simpa [DistributeRegs.pending, Kernel.Keeps, distributePackageKernel] using hI
        · have ho' : o ≠ o' := Ne.symm ho
          simpa [DistributeRegs.pending, Kernel.Keeps, distributePackageKernel, ho,
            Function.update_of_ne ho'] using hI

/-- The amount held by the registers of `distribute_package`. -/
def DistributeRegs.held {M : Type} [AddCancelCommMonoid M] (tok : w → M) :
    DistributeRegs w → M
  | .poll => 0
  | .emit _ item => tok item

/-- When one of the two outputs matches every package, no operation loses a package. -/
theorem distributePackageKernel_balanced {M : Type} [AddCancelCommMonoid M] (tok : w → M)
    {dest : w → RouteId} {id1 id2 mask : RouteId}
    (hroute : ∀ item, (distributeRoute dest id1 id2 mask item).isSome) :
    (distributePackageKernel dest id1 id2 mask).Balanced (fun _ => tok) (fun _ => tok)
      (DistributeRegs.held tok) := by
  intro r
  cases r with
  | poll =>
      refine ⟨rfl, fun item => ?_⟩
      obtain ⟨o, ho⟩ := Option.isSome_iff_exists.mp (hroute item)
      simp [ho, DistributeRegs.held]
  | emit o item => exact zero_add _

end Distribute

/-! ## `ws_distribute_package` -/

section WorkStealing

variable {w : Type}

/-- Registers of `ws_distribute_package`; `flag` is `schedule_flag`.  The two outputs are
observed one after the other, so that either may be drained in between. -/
inductive WsDistributeRegs (w : Type) where
  | poll (flag : Bool)
  | inspect (flag : Bool) (item : w)
  | weigh (flag out1Full : Bool) (item : w)
  | emit (o : Fin 2) (item : w)

/-- The three-bit `code` of `ws_distribute_package`, and the output that its `switch`
selects. -/
def wsSelect (out2Full out1Full flag : Bool) : Fin 2 :=
  match out2Full, out1Full, flag with
  | true, true, true => 0
  | true, false, _ => 0
  | false, false, true => 0
  | true, true, false => 1
  | false, true, _ => 1
  | false, false, false => 1

/-- The loop of `ws_distribute_package`. -/
def wsDistributePackageKernel (w : Type) : Kernel (fun _ : Unit => w) (fun _ : Fin 2 => w) where
  σ := WsDistributeRegs w
  Ω := Empty
  start := .poll false
  op
    | .poll flag => .readNb () fun
        | none => .poll flag
        | some item => .inspect flag item
    | .inspect flag item => .look fun _ full => .weigh flag (full 0) item
    | .weigh flag out1Full item => .look fun _ full =>
        .emit (wsSelect (full 1) out1Full flag) item
    | .emit o item => .write o item (.poll (o = 1))

/-- The amount held by the registers of `ws_distribute_package`. -/
def WsDistributeRegs.held {M : Type} [AddCancelCommMonoid M] (tok : w → M) :
    WsDistributeRegs w → M
  | .poll _ => 0
  | .inspect _ item => tok item
  | .weigh _ _ item => tok item
  | .emit _ item => tok item

/-- No operation of `ws_distribute_package` loses or repeats a package. -/
theorem wsDistributePackageKernel_balanced {M : Type} [AddCancelCommMonoid M] (tok : w → M) :
    (wsDistributePackageKernel w).Balanced (fun _ => tok) (fun _ => tok)
      (WsDistributeRegs.held tok) := by
  intro r
  cases r with
  | poll flag => exact ⟨rfl, fun item => (zero_add _).symm⟩
  | inspect flag item => exact fun _ _ => rfl
  | weigh flag out1Full item => exact fun _ _ => rfl
  | emit o item => exact zero_add _

end WorkStealing

/-! ## `merge_package` -/

section Merge

variable {w : Type}

/-- Registers of `merge_package`; `flag` is `schedule_flag`.  The two inputs are observed one
after the other. -/
inductive MergeRegs (w : Type) where
  | poll (flag : Bool)
  | weigh (flag in1Empty : Bool)
  | fetch (i : Fin 2)
  | emit (i : Fin 2) (item : w)

/-- The three-bit `code` of `merge_package`, and the input that its `switch` selects. -/
def mergeSelect (in2Empty in1Empty flag : Bool) : Option (Fin 2) :=
  match in2Empty, in1Empty, flag with
  | true, true, _ => none
  | true, false, _ => some 0
  | false, false, true => some 0
  | false, true, _ => some 1
  | false, false, false => some 1

/-- The loop of `merge_package`. -/
def mergePackageKernel (w : Type) : Kernel (fun _ : Fin 2 => w) (fun _ : Unit => w) where
  σ := MergeRegs w
  Ω := Empty
  start := .poll false
  op
    | .poll flag => .look fun empty _ => .weigh flag (empty 0)
    | .weigh flag in1Empty => .look fun empty _ =>
        match mergeSelect (empty 1) in1Empty flag with
        | none => .poll flag
        | some i => .fetch i
    | .fetch i => .read i fun item => .emit i item
    | .emit i item => .write () item (.poll (i = 1))

/-- The package in the registers. -/
def MergeRegs.pending : MergeRegs w → List w
  | .emit _ item => [item]
  | _ => []

/-- Everything sent or about to be sent is a merge of what was received. -/
theorem mergePackageKernel_path {r : MergeRegs w} {R : Fin 2 → List w} {S : Unit → List w}
    (h : (mergePackageKernel w).Path (.poll false) r R S) :
    Interleave (R 0) (R 1) (S () ++ r.pending) := by
  refine h.induct (I := fun (r : MergeRegs w) R S => Interleave (R 0) (R 1) (S () ++ r.pending)) .nil ?_
  intro r R S hI
  cases r with
  | poll flag => exact fun _ _ => hI
  | weigh flag in1Empty =>
      intro e f
      cases hsel : mergeSelect (e 1) in1Empty flag with
      | none => simpa [hsel, MergeRegs.pending] using hI
      | some i => simpa [hsel, MergeRegs.pending] using hI
  | fetch i =>
      intro item
      simp only [MergeRegs.pending, List.append_nil] at hI
      fin_cases i
      · simpa [MergeRegs.pending] using hI.left item
      · simpa [MergeRegs.pending] using hI.right item
  | emit i item => simpa [MergeRegs.pending, Kernel.Keeps, mergePackageKernel] using hI

/-- The amount held by the registers of `merge_package`. -/
def MergeRegs.held {M : Type} [AddCancelCommMonoid M] (tok : w → M) : MergeRegs w → M
  | .emit _ item => tok item
  | _ => 0

/-- No operation of `merge_package` loses or repeats a package. -/
theorem mergePackageKernel_balanced {M : Type} [AddCancelCommMonoid M] (tok : w → M) :
    (mergePackageKernel w).Balanced (fun _ => tok) (fun _ => tok) (MergeRegs.held tok) := by
  intro r
  cases r with
  | poll flag => exact fun _ _ => rfl
  | weigh flag in1Empty =>
      intro e f
      cases hsel : mergeSelect (e 1) in1Empty flag <;> simp [hsel, MergeRegs.held]
  | fetch i => exact fun item => (zero_add _).symm
  | emit i item => exact zero_add _

end Merge

/-! ## Stream adapters -/

section Forward

variable {w : Type}

/-- Registers of a stream adapter. -/
inductive ForwardRegs (w : Type) where
  | fetch
  | emit (item : w)

/-- The loop of `free_run_axis_to_frp_stream` and `free_run_frp_to_axis_stream`: both copy
the data and the `last` bit of every package. -/
def forwardKernel (w : Type) : Kernel (fun _ : Unit => w) (fun _ : Unit => w) where
  σ := ForwardRegs w
  Ω := Empty
  start := .fetch
  op
    | .fetch => .read () .emit
    | .emit item => .write () item .fetch

/-- The package in the registers. -/
def ForwardRegs.pending : ForwardRegs w → List w
  | .fetch => []
  | .emit item => [item]

/-- A stream adapter sends what it has received. -/
theorem forwardKernel_path {r : ForwardRegs w} {R S : Unit → List w}
    (h : (forwardKernel w).Path .fetch r R S) : S () ++ r.pending = R () := by
  refine h.induct (I := fun (r : ForwardRegs w) R S => S () ++ r.pending = R ()) rfl ?_
  intro r R S hI
  cases r with
  | fetch =>
      intro item
      simpa [ForwardRegs.pending] using hI
  | emit item => simpa [ForwardRegs.pending, Kernel.Keeps, forwardKernel] using hI

/-- The amount held by the registers of a stream adapter. -/
def ForwardRegs.held {M : Type} [AddCancelCommMonoid M] (tok : w → M) : ForwardRegs w → M
  | .fetch => 0
  | .emit item => tok item

/-- No operation of a stream adapter loses or repeats a package. -/
theorem forwardKernel_balanced {M : Type} [AddCancelCommMonoid M] (tok : w → M) :
    (forwardKernel w).Balanced (fun _ => tok) (fun _ => tok) (ForwardRegs.held tok) := by
  intro r
  cases r with
  | fetch => exact fun item => (zero_add _).symm
  | emit item => exact zero_add _

end Forward

/-! ## Binding the kernels to streams -/

section Calls

variable {S : Type} {C : S → Type} {word : S → Type} {s : S}

/-- A call of one of the package kernels on streams of sort `s`, arguments as in the
source. -/
inductive PackageCall (C : S → Type) (word : S → Type) (s : S) where
  | distribute (dest : word s → RouteId) (in_ out1 out2 : C s) (id1 id2 mask : RouteId)
  | wsDistribute (in_ out1 out2 : C s)
  | merge (in1 in2 out : C s)
  | forward (in_ out : C s)

namespace PackageCall

/-- What the call runs and which streams it is bound to. -/
def call : PackageCall C word s → Call C word
  | distribute dest in_ out1 out2 id1 id2 mask =>
      { In := Unit
        Out := Fin 2
        src := fun _ => ⟨s, in_⟩
        dst := fun o => ⟨s, ![out1, out2] o⟩
        kernel := distributePackageKernel dest id1 id2 mask }
  | wsDistribute in_ out1 out2 =>
      { In := Unit
        Out := Fin 2
        src := fun _ => ⟨s, in_⟩
        dst := fun o => ⟨s, ![out1, out2] o⟩
        kernel := wsDistributePackageKernel (word s) }
  | merge in1 in2 out =>
      { In := Fin 2
        Out := Unit
        src := fun i => ⟨s, ![in1, in2] i⟩
        dst := fun _ => ⟨s, out⟩
        kernel := mergePackageKernel (word s) }
  | forward in_ out =>
      { In := Unit
        Out := Unit
        src := fun _ => ⟨s, in_⟩
        dst := fun _ => ⟨s, out⟩
        kernel := forwardKernel (word s) }

/-- The streams a package call reads. -/
def ins : PackageCall C word s → Multiset (C s)
  | distribute _ in_ _ _ _ _ _ => {in_}
  | wsDistribute in_ _ _ => {in_}
  | merge in1 in2 _ => {in1} + {in2}
  | forward in_ _ => {in_}

/-- The streams a package call writes. -/
def outs : PackageCall C word s → Multiset (C s)
  | distribute _ _ out1 out2 _ _ _ => {out1} + {out2}
  | wsDistribute _ out1 out2 => {out1} + {out2}
  | merge _ _ out => {out}
  | forward _ out => {out}

@[simp] theorem merge_ins (in1 in2 out : C s) :
    (merge in1 in2 out : PackageCall C word s).ins = {in1} + {in2} := rfl

@[simp] theorem forward_ins (in_ out : C s) :
    (forward in_ out : PackageCall C word s).ins = {in_} := rfl

@[simp] theorem forward_outs (in_ out : C s) :
    (forward in_ out : PackageCall C word s).outs = {out} := rfl

@[simp] theorem merge_outs (in1 in2 out : C s) :
    (merge in1 in2 out : PackageCall C word s).outs = {out} := rfl

theorem call_inputs (k : PackageCall C word s) : k.call.inputs = k.ins.map (Sigma.mk s) := by
  cases k <;> rfl

theorem call_outputs (k : PackageCall C word s) : k.call.outputs = k.outs.map (Sigma.mk s) := by
  cases k <;> rfl

/-- Every package has a way out: one of the two outputs matches it. -/
def Routes : PackageCall C word s → Prop
  | distribute dest _ _ _ id1 id2 mask =>
      ∀ item, (distributeRoute dest id1 id2 mask item).isSome
  | _ => True

/-- The amount held by the registers of a package call. -/
def held {M : Type} [AddCancelCommMonoid M] (tok : word s → M) :
    (k : PackageCall C word s) → k.call.kernel.σ → M
  | distribute .. => DistributeRegs.held tok
  | wsDistribute .. => WsDistributeRegs.held tok
  | merge .. => MergeRegs.held tok
  | forward .. => ForwardRegs.held tok

@[simp] theorem held_start {M : Type} [AddCancelCommMonoid M] (tok : word s → M)
    (k : PackageCall C word s) : k.held tok k.call.kernel.start = 0 := by
  cases k <;> rfl

/-- A stream that a package call reads is bound to one of its input ports. -/
theorem mem_ins {k : PackageCall C word s} {c : C s} :
    c ∈ k.ins ↔ ∃ i, k.call.src i = ⟨s, c⟩ := by
  have hmem : c ∈ k.ins ↔ (⟨s, c⟩ : Chan C) ∈ k.call.inputs := by
    rw [call_inputs, Multiset.mem_map_of_injective sigma_mk_injective]
  rw [hmem]
  simp [Call.inputs]

/-- A stream that a package call writes is bound to one of its output ports. -/
theorem mem_outs {k : PackageCall C word s} {c : C s} :
    c ∈ k.outs ↔ ∃ o, k.call.dst o = ⟨s, c⟩ := by
  have hmem : c ∈ k.outs ↔ (⟨s, c⟩ : Chan C) ∈ k.call.outputs := by
    rw [call_outputs, Multiset.mem_map_of_injective sigma_mk_injective]
  rw [hmem]
  simp [Call.outputs]

/-- No operation of a package call loses or repeats a package, if its streams carry the
same amounts as its registers. -/
theorem balanced {M : Type} [AddCancelCommMonoid M] (tok : ∀ c : Chan C, word c.1 → M)
    {f : word s → M} {k : PackageCall C word s} (hin : ∀ c ∈ k.ins, tok ⟨s, c⟩ = f)
    (hout : ∀ c ∈ k.outs, tok ⟨s, c⟩ = f) (hk : k.Routes) :
    k.call.kernel.Balanced (fun i => tok (k.call.src i)) (fun o => tok (k.call.dst o))
      (k.held f) := by
  cases k with
  | distribute dest in_ out1 out2 id1 id2 mask =>
      have hsrc : (fun _ : Unit => tok ⟨s, in_⟩) = fun _ => f :=
        funext fun _ => hin in_ (by simp [ins])
      have hdst : (fun o : Fin 2 => tok ⟨s, ![out1, out2] o⟩) = fun _ => f := funext fun o =>
        hout _ (by fin_cases o <;> simp [outs])
      exact hsrc ▸ hdst ▸ distributePackageKernel_balanced f hk
  | wsDistribute in_ out1 out2 =>
      have hsrc : (fun _ : Unit => tok ⟨s, in_⟩) = fun _ => f :=
        funext fun _ => hin in_ (by simp [ins])
      have hdst : (fun o : Fin 2 => tok ⟨s, ![out1, out2] o⟩) = fun _ => f := funext fun o =>
        hout _ (by fin_cases o <;> simp [outs])
      exact hsrc ▸ hdst ▸ wsDistributePackageKernel_balanced f
  | merge in1 in2 out =>
      have hsrc : (fun i : Fin 2 => tok ⟨s, ![in1, in2] i⟩) = fun _ => f := funext fun i =>
        hin _ (by fin_cases i <;> simp [ins])
      have hdst : (fun _ : Unit => tok ⟨s, out⟩) = fun _ => f :=
        funext fun _ => hout out (by simp [outs])
      exact hsrc ▸ hdst ▸ mergePackageKernel_balanced f
  | forward in_ out =>
      have hsrc : (fun _ : Unit => tok ⟨s, in_⟩) = fun _ => f :=
        funext fun _ => hin in_ (by simp [ins])
      have hdst : (fun _ : Unit => tok ⟨s, out⟩) = fun _ => f :=
        funext fun _ => hout out (by simp [outs])
      exact hsrc ▸ hdst ▸ forwardKernel_balanced f

end PackageCall

end Calls

end RidgeWalker.Switch
