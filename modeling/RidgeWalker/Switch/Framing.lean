import RidgeWalker.Dataflow.Execution
import RidgeWalker.Dataflow.Frames
import RidgeWalker.Dataflow.Streams
import RidgeWalker.Switch.Packages

/-!
# Framing and arbitration of network packages

The crouters coalesce eight streams of tasks into frames.  `net_framing_signal_generator` cuts a
frame short when its stream has been idle, `net_framing` lets a frame go once it is complete, and
a tree of `net_scheduler`s arbitrates between the streams frame by frame.

Main results:

- Theorem `netSchedulerKernel_path`: `net_scheduler` changes over only between frames.
- Theorem `generatorKernel_path`: `net_framing_signal_generator` only sets `last` bits.
- Theorem `frameTree_frames`: frames that leave the tree consist of words of one stream, and no
  word is lost, repeated or reordered within its stream.
-/

namespace RidgeWalker.Switch

open Dataflow

/-! ## Words and streams -/

/-- `net_frame_t`. -/
structure NetFrame where
  data : BitVec 512
  dest : BitVec 8
deriving DecidableEq

/-- `net_frame_frp_item_t`. -/
abbrev NetFrameFrp := Frp NetFrame

/-- The two kinds of streams between the coalescers and `net_frame_out`. -/
inductive NetSort where
  | frame
  | signal
deriving DecidableEq

/-- The words of a stream; `net_signal_item_t` is 8 bits wide. -/
abbrev NetWord : NetSort → Type
  | .frame => NetFrameFrp
  | .signal => BitVec 8

/-! ## `net_framing_signal_generator` -/

/-- The output streams of `net_framing_signal_generator`. -/
inductive GeneratorOut where
  | out
  | signalOut
deriving DecidableEq

instance : Fintype GeneratorOut := ⟨{.out, .signalOut}, fun x => by cases x <;> decide⟩

/-- The kind of an output of `net_framing_signal_generator`. -/
abbrev GeneratorOut.sort : GeneratorOut → NetSort
  | out => .frame
  | signalOut => .signal

/-- Registers of `net_framing_signal_generator`: `last_frp_pkg` if `last_valid` is set,
`wait_counter`, and the signal and the package on their way out. -/
inductive GeneratorRegs where
  | poll (last : Option NetFrameFrp) (waitCounter : BitVec 8)
  | signal (ready : BitVec 8) (pkg : NetFrameFrp) (last : Option NetFrameFrp)
      (waitCounter : BitVec 8)
  | emit (pkg : NetFrameFrp) (last : Option NetFrameFrp) (waitCounter : BitVec 8)

/-- `timeout_pkg`. -/
def timeoutPkg (last : NetFrameFrp) : NetFrameFrp := { data := last.data, last := true }

/-- After `frp_package` has been read. -/
def generatorNext (frpPackage : NetFrameFrp) : Option NetFrameFrp → GeneratorRegs
  | none => .poll (some frpPackage) 0
  | some last =>
      if last.last then .signal 1 last (some frpPackage) 0 else .emit last (some frpPackage) 0

/-- After nothing has been read. -/
def generatorIdle (timeout : ℕ) (waitCounter : BitVec 8) : Option NetFrameFrp → GeneratorRegs
  | none => .poll none waitCounter
  | some last =>
      if timeout + 4 < (waitCounter + 1).toNat then
        .signal 3 (timeoutPkg last) none (waitCounter + 1)
      else .poll (some last) (waitCounter + 1)

/-- The loop of `net_framing_signal_generator`. -/
def generatorKernel (timeout : ℕ) :
    Kernel (fun _ : Unit => NetFrameFrp) (fun o : GeneratorOut => NetWord o.sort) where
  σ := GeneratorRegs
  Ω := Empty
  start := .poll none 0
  op
    | .poll last waitCounter => .readNb () fun
        | some frpPackage => generatorNext frpPackage last
        | none => generatorIdle timeout waitCounter last
    | .signal ready pkg last waitCounter => .write .signalOut ready (.emit pkg last waitCounter)
    | .emit pkg last waitCounter => .write .out pkg (.poll last waitCounter)

/-- The words in the registers, oldest first. -/
def GeneratorRegs.held : GeneratorRegs → List NetFrameFrp
  | .poll last _ => last.toList
  | .signal _ pkg last _ => pkg :: last.toList
  | .emit pkg last _ => pkg :: last.toList

/-- The word with its `last` bit, which may have been set. -/
def Cut (x y : NetFrameFrp) : Prop := y.data = x.data ∧ (x.last = true → y.last = true)

theorem Cut.refl (x : NetFrameFrp) : Cut x x := ⟨rfl, id⟩

/-- The last of some words may be cut once more. -/
theorem Cut.timeout {l m : List NetFrameFrp} {x : NetFrameFrp}
    (h : List.Forall₂ Cut l (m ++ [x])) : List.Forall₂ Cut l (m ++ [timeoutPkg x]) := by
  have hinit := List.forall₂_take_append l m [x] h
  have hlast := List.forall₂_drop_append l m [x] h
  obtain ⟨y, rest, hyx, hrest, hl⟩ := List.forall₂_cons_right_iff.mp hlast
  rw [List.forall₂_nil_right_iff.mp hrest] at hl
  rw [← List.take_append_drop m.length l, hl]
  exact List.rel_append hinit (.cons ⟨hyx.1, fun _ => rfl⟩ .nil)

/-- `net_framing_signal_generator` sends what it receives, but for `last` bits that it sets. -/
theorem generatorKernel_path {timeout : ℕ} {r : GeneratorRegs} {R S}
    (hp : (generatorKernel timeout).Path (generatorKernel timeout).start r R S) :
    List.Forall₂ Cut (R ()) (S .out ++ r.held) := by
  refine hp.induct (I := fun (r : GeneratorRegs) R S =>
    List.Forall₂ Cut (R ()) (S .out ++ r.held)) .nil ?_
  intro r R S h
  cases r with
  | poll last waitCounter =>
      refine ⟨?_, fun frpPackage => ?_⟩
      · cases last with
        | none => exact h
        | some last =>
            show List.Forall₂ Cut (R ())
              (S .out ++ (generatorIdle timeout waitCounter (some last)).held)
            rw [generatorIdle]
            split
            · exact Cut.timeout h
            · exact h
      · show List.Forall₂ Cut (Function.update R () (R () ++ [frpPackage]) ())
          (S .out ++ (generatorNext frpPackage last).held)
        have hsnoc := List.rel_append h (.cons (Cut.refl frpPackage) .nil)
        have hheld : (generatorNext frpPackage last).held = last.toList ++ [frpPackage] := by
          cases last with
          | none => rfl
          | some last =>
              rw [generatorNext]
              split <;> rfl
        rw [Function.update_self, hheld, ← List.append_assoc]
        exact hsnoc
  | signal ready pkg last waitCounter =>
      show List.Forall₂ Cut (R ()) (Function.update S .signalOut _ .out ++ _)
      rw [Function.update_of_ne (by decide)]
      exact h
  | emit pkg last waitCounter =>
      show List.Forall₂ Cut (R ()) (Function.update S .out _ .out ++ _)
      rw [Function.update_self, List.append_assoc]
      exact h

/-! ## `net_framing` -/

/-- The input streams of `net_framing`. -/
inductive FramingIn where
  | in_
  | frameSignal
deriving DecidableEq

instance : Fintype FramingIn := ⟨{.in_, .frameSignal}, fun x => by cases x <;> decide⟩

/-- The kind of an input of `net_framing`. -/
abbrev FramingIn.sort : FramingIn → NetSort
  | in_ => .frame
  | frameSignal => .signal

/-- Registers of `net_framing`. -/
inductive FramingRegs where
  | framing
  | intraFraming
  | emit (netFrp : NetFrameFrp)

/-- The loops of `net_framing`. -/
def framingKernel :
    Kernel (fun i : FramingIn => NetWord i.sort) (fun _ : Unit => NetFrameFrp) where
  σ := FramingRegs
  Ω := Empty
  start := .framing
  op
    | .framing => .readNb .frameSignal fun
        | some _ => .intraFraming
        | none => .framing
    | .intraFraming => .readNb .in_ fun
        | some netFrp => .emit netFrp
        | none => .intraFraming
    | .emit netFrp => .write () netFrp (if netFrp.last then .framing else .intraFraming)

/-- The word in the registers. -/
def FramingRegs.held : FramingRegs → List NetFrameFrp
  | .emit netFrp => [netFrp]
  | _ => []

/-- `net_framing` sends what it receives. -/
theorem framingKernel_path {r : FramingRegs} {R S}
    (hp : framingKernel.Path framingKernel.start r R S) : S () ++ r.held = R .in_ := by
  refine hp.induct (I := fun (r : FramingRegs) R S => S () ++ r.held = R .in_) rfl ?_
  intro r R S h
  cases r with
  | framing =>
      refine ⟨h, fun signal => ?_⟩
      show S () ++ [] = Function.update R .frameSignal (R .frameSignal ++ [signal]) .in_
      rw [Function.update_of_ne (by decide)]
      exact h
  | intraFraming =>
      refine ⟨h, fun netFrp => ?_⟩
      show S () ++ [netFrp] = Function.update R .in_ (R .in_ ++ [netFrp]) .in_
      rw [Function.update_self, ← h]
      simp [FramingRegs.held]
  | emit netFrp =>
      show Function.update S () _ () ++ FramingRegs.held (if netFrp.last then _ else _) = R .in_
      rw [Function.update_self, ← h]
      split <;> simp [FramingRegs.held]

/-! ## `net_scheduler` -/

/-- `status`: `SCHE_INIT`, or `SCHE_IN1` and `SCHE_IN2`. -/
inductive ScheStatus where
  | init
  | inp (i : Fin 2)

/-- Registers of `net_scheduler`: `status`, `schedule_flag`, the inputs found empty, and the
package on its way out. -/
inductive NetSchedulerRegs where
  | sample1 (status : ScheStatus) (flag : Bool)
  | sample2 (status : ScheStatus) (flag in1Empty : Bool)
  | read (status : ScheStatus) (flag : Bool) (i : Fin 2) (otherEmpty : Bool)
  | emit (netFrp : NetFrameFrp) (flag : Bool) (i : Fin 2) (otherEmpty : Bool)

/-- The input that `net_scheduler` reads, by `status` and `code`. -/
def scheduled (status : ScheStatus) (in2Empty in1Empty flag : Bool) : Option (Fin 2) :=
  match status with
  | .inp i => some i
  | .init =>
      match in2Empty, in1Empty, flag with
      | true, true, _ => none
      | true, false, _ => some 0
      | false, false, true => some 0
      | false, true, _ => some 1
      | false, false, false => some 1

/-- After both inputs have been sampled. -/
def scheduleRead (status : ScheStatus) (flag in1Empty in2Empty : Bool) : NetSchedulerRegs :=
  match scheduled status in2Empty in1Empty flag with
  | none => .sample1 .init flag
  | some i => .read status flag i (if i = 0 then in2Empty else in1Empty)

/-- After a package has been written. -/
def scheduleNext (netFrp : NetFrameFrp) (flag : Bool) (i : Fin 2) (otherEmpty : Bool) :
    NetSchedulerRegs :=
  if netFrp.last then .sample1 (if otherEmpty then .init else .inp i.rev) (i = 1)
  else .sample1 (.inp i) flag

/-- The loop of `net_scheduler`. -/
def netSchedulerKernel : Kernel (fun _ : Fin 2 => NetFrameFrp) (fun _ : Unit => NetFrameFrp) where
  σ := NetSchedulerRegs
  Ω := Empty
  start := .sample1 .init false
  op
    | .sample1 status flag => .look fun empty _ => .sample2 status flag (empty 0)
    | .sample2 status flag in1Empty => .look fun empty _ =>
        scheduleRead status flag in1Empty (empty 1)
    | .read status flag i otherEmpty => .readNb i fun
        | some netFrp => .emit netFrp flag i otherEmpty
        | none => .sample1 status flag
    | .emit netFrp flag i otherEmpty => .write () netFrp (scheduleNext netFrp flag i otherEmpty)

/-- The word in the registers. -/
def NetSchedulerRegs.held : NetSchedulerRegs → List NetFrameFrp
  | .emit netFrp _ _ _ => [netFrp]
  | _ => []

/-- The input whose frame is under way is the one that `status` names. -/
def ScheStatus.Allows (status : ScheStatus) (o : Option (Fin 2)) : Prop :=
  ∀ i, o = some i → status = .inp i

/-- The registers fit the input whose frame is under way. -/
def NetSchedulerRegs.Allows : NetSchedulerRegs → Option (Fin 2) → Prop
  | .sample1 status _, o => status.Allows o
  | .sample2 status _ _, o => status.Allows o
  | .read status _ i _, o => status.Allows o ∧ (o = none ∨ o = some i)
  | .emit netFrp _ i _, o => o = if netFrp.last then none else some i

/-- `net_scheduler` merges its inputs and changes over only between frames. -/
theorem netSchedulerKernel_path {r : NetSchedulerRegs} {R S}
    (hp : netSchedulerKernel.Path netSchedulerKernel.start r R S) :
    ∃ o, FrameMerge Frp.last R (S () ++ r.held) o ∧ r.Allows o := by
  refine hp.induct (I := fun (r : NetSchedulerRegs) R S =>
    ∃ o, FrameMerge Frp.last R (S () ++ r.held) o ∧ r.Allows o)
      ⟨none, .nil, fun i hi => by cases hi⟩ ?_
  rintro r R S ⟨o, hmerge, hallows⟩
  cases r with
  | sample1 status flag => exact fun _ _ => ⟨o, hmerge, hallows⟩
  | sample2 status flag in1Empty =>
      intro empty _
      refine ⟨o, ?_⟩
      show FrameMerge Frp.last R (S () ++ (scheduleRead status flag in1Empty (empty 1)).held) o ∧
        (scheduleRead status flag in1Empty (empty 1)).Allows o
      unfold scheduleRead
      rcases hread : scheduled status (empty 1) in1Empty flag with _ | i
      · -- Nothing is read only between frames.
        refine ⟨hmerge, fun i hi => ?_⟩
        rw [hallows i hi] at hread
        cases hread
      · refine ⟨hmerge, hallows, ?_⟩
        rcases o with _ | j
        · exact .inl rfl
        · rw [hallows j rfl] at hread
          exact .inr hread
  | read status flag i otherEmpty =>
      refine ⟨⟨o, hmerge, hallows.1⟩, fun netFrp => ⟨_, ?_, rfl⟩⟩
      have hsnoc := hmerge.snoc hallows.2 netFrp
      have hheld : (NetSchedulerRegs.read status flag i otherEmpty).held = [] := rfl
      rw [hheld, List.append_nil] at hsnoc
      exact hsnoc
  | emit netFrp flag i otherEmpty =>
      refine ⟨o, ?_⟩
      show FrameMerge Frp.last R (Function.update S () (S () ++ [netFrp]) () ++
        (scheduleNext netFrp flag i otherEmpty).held) o ∧
          (scheduleNext netFrp flag i otherEmpty).Allows o
      have ho : o = _ := hallows
      rw [Function.update_self]
      unfold scheduleNext
      split
      · rename_i hlast
        rw [if_pos hlast] at ho
        subst ho
        exact ⟨by simpa [NetSchedulerRegs.held] using hmerge, fun j hj => by cases hj⟩
      · rename_i hlast
        rw [if_neg hlast] at ho
        subst ho
        refine ⟨by simpa [NetSchedulerRegs.held] using hmerge, fun j hj => ?_⟩
        rw [Option.some.inj hj]

/-! ## The tree -/

/-- The streams of frames. -/
inductive FrameStream where
  | coaleased (i : Fin 8)
  | framing (i : Fin 8)
  | l1 (i : Fin 8)
  | l2 (j : Fin 4)
  | l3 (k : Fin 2)
  | l4
deriving DecidableEq

/-- The streams between the coalescers and `net_frame_out`; every `net_framing` has its own
stream of signals. -/
abbrev NetChan : NetSort → Type
  | .frame => FrameStream
  | .signal => Fin 8

instance : ∀ s, DecidableEq (NetChan s)
  | .frame => inferInstanceAs (DecidableEq FrameStream)
  | .signal => inferInstanceAs (DecidableEq (Fin 8))

/-- A stream of frames as a stream of the system. -/
abbrev FrameStream.chan (c : FrameStream) : Chan NetChan := ⟨.frame, c⟩

/-- The processes between the coalescers and `net_frame_out`. -/
inductive FrameProc where
  | generator (i : Fin 8)
  | framing (i : Fin 8)
  | scheduler1 (j : Fin 4)
  | scheduler2 (k : Fin 2)
  | scheduler3
deriving DecidableEq, Fintype

/-- The inputs of the first level of the tree. -/
theorem l1_lt (j : Fin 4) (x : Fin 2) : 2 * j.val + x.val < 8 := by omega

/-- The inputs of the second level. -/
theorem l2_lt (k x : Fin 2) : 2 * k.val + x.val < 4 := by omega

/-- `net_scheduler(in1, in2, out)`. -/
def netScheduler (ins : Fin 2 → FrameStream) (out : FrameStream) : Call NetChan NetWord where
  In := Fin 2
  Out := Unit
  src x := (ins x).chan
  dst _ := out.chan
  kernel := netSchedulerKernel

/-- The call of each process. -/
def frameCall (timeout : ℕ) : FrameProc → Call NetChan NetWord
  | .generator i => {
      In := Unit
      Out := GeneratorOut
      src := fun _ => (FrameStream.coaleased i).chan
      dst := fun o => ⟨o.sort, match o with
        | .out => FrameStream.framing i
        | .signalOut => i⟩
      kernel := generatorKernel timeout }
  | .framing i => {
      In := FramingIn
      Out := Unit
      src := fun x => ⟨x.sort, match x with
        | .in_ => FrameStream.framing i
        | .frameSignal => i⟩
      dst := fun _ => (FrameStream.l1 i).chan
      kernel := framingKernel }
  | .scheduler1 j => netScheduler (fun x => .l1 ⟨2 * j + x, l1_lt j x⟩) (.l2 j)
  | .scheduler2 k => netScheduler (fun x => .l2 ⟨2 * k + x, l2_lt k x⟩) (.l3 k)
  | .scheduler3 => netScheduler .l3 .l4

/-- The part of `cla_crouter` and `rpa_crouter` between the coalescers and `net_frame_out`. -/
def frameTree (timeout : ℕ) (depth : Chan NetChan → ℕ) : Network FrameProc NetChan NetWord where
  node := frameCall timeout
  depth := depth

variable {timeout : ℕ} {depth : Chan NetChan → ℕ}

theorem frameTree_pointToPoint : (frameTree timeout depth).PointToPoint := by
  have hpair : ∀ {a b : ℕ} {x y : Fin 2}, 2 * a + x.val = 2 * b + y.val → a = b ∧ x = y := by
    intro a b x y hab
    exact ⟨by omega, Fin.ext (by omega)⟩
  constructor
  · rintro ⟨p, i⟩ ⟨q, j⟩ h
    cases p <;> cases q
    case framing.framing => cases i <;> cases j <;> cases h <;> rfl
    case scheduler1.scheduler1 a b =>
      simp only [frameTree, frameCall, netScheduler, Sigma.mk.injEq, heq_eq_eq, true_and,
        FrameStream.l1.injEq, Fin.mk.injEq] at h
      obtain ⟨hab, rfl⟩ := hpair h
      rw [Fin.ext hab]
    case scheduler2.scheduler2 a b =>
      simp only [frameTree, frameCall, netScheduler, Sigma.mk.injEq, heq_eq_eq, true_and,
        FrameStream.l2.injEq, Fin.mk.injEq] at h
      obtain ⟨hab, rfl⟩ := hpair h
      rw [Fin.ext hab]
    all_goals first
      | (cases h; rfl)
      | (cases i <;> cases h)
      | (cases j <;> cases h)
  · rintro ⟨p, i⟩ ⟨q, j⟩ h
    cases p <;> cases q
    case generator.generator => cases i <;> cases j <;> cases h <;> rfl
    all_goals first
      | (cases h; rfl)
      | (cases i <;> cases h)
      | (cases j <;> cases h)

/-! ## Destinations -/

/-- The destination that `cla_to_net_with_timeout` gives to the words of stream `i`. -/
def streamDest (i : Fin 8) : BitVec 8 := .ofNat 8 (i + 1)

/-- The word belongs to stream `i`. -/
def ofStream (i : Fin 8) (x : NetFrameFrp) : Bool := x.data.dest = streamDest i

theorem streamDest_injective : Function.Injective streamDest := by decide

/-- The step writes to a stream no word with another destination. -/
def addressed : (frameTree timeout depth).Label → Bool
  | .put ⟨.frame, .coaleased i⟩ a => ofStream i a
  | _ => true

/-- The surroundings write to every stream words with its destination. -/
def Addressed (_ : (frameTree timeout depth).State) (l : (frameTree timeout depth).Label) : Prop :=
  addressed l = true

instance (s : (frameTree timeout depth).State) : DecidablePred (Addressed s) := fun l =>
  inferInstanceAs (Decidable (addressed l = true))

/-- Whole frames of some of the streams. -/
structure Carries (A : Fin 8 → Prop) (l : List NetFrameFrp) : Prop where
  whole : Whole Frp.last (fun x => x.data.dest) l
  dest : ∀ x ∈ l, ∃ i, A i ∧ x.data.dest = streamDest i

theorem Carries.of_isPrefix {A : Fin 8 → Prop} {l m : List NetFrameFrp} (h : Carries A m)
    (hl : l <+: m) : Carries A l :=
  ⟨h.whole.of_isPrefix hl, fun x hx => h.dest x (hl.subset hx)⟩

/-- Words of one stream. -/
theorem Carries.of_forall {i : Fin 8} {l : List NetFrameFrp}
    (h : ∀ x ∈ l, x.data.dest = streamDest i) : Carries (· = i) l :=
  ⟨Whole.of_forall h, fun x hx => ⟨i, rfl, h x hx⟩⟩

/-- None of the words belongs to a stream that is not carried. -/
theorem Carries.filter_eq_nil {A : Fin 8 → Prop} {l : List NetFrameFrp} (h : Carries A l)
    {i : Fin 8} (hi : ¬ A i) : l.filter (ofStream i) = [] := by
  refine List.filter_eq_nil_iff.mpr fun x hx hxi => hi ?_
  obtain ⟨j, hj, hdest⟩ := h.dest x hx
  have hij : streamDest j = streamDest i := hdest.symm.trans (of_decide_eq_true hxi)
  exact streamDest_injective hij ▸ hj

/-- A merge of whole frames carries what its inputs carry. -/
theorem Carries.merge {L : Fin 2 → List NetFrameFrp} {m : List NetFrameFrp} {o}
    (h : FrameMerge Frp.last L m o) {A : Fin 2 → Fin 8 → Prop} {B : Fin 8 → Prop}
    (hL : ∀ x, Carries (A x) (L x)) (hAB : ∀ x i, A x i → B i) : Carries B m := by
  refine ⟨h.whole fun x => (hL x).whole, fun y hy => ?_⟩
  have hmem : ∃ x, y ∈ L x := by
    rcases h.interleave.mem_iff.mp hy with hy | hy
    · exact ⟨0, hy⟩
    · exact ⟨1, hy⟩
  obtain ⟨x, hx⟩ := hmem
  obtain ⟨i, hi, hdest⟩ := (hL x).dest y hx
  exact ⟨i, hAB x i hi, hdest⟩

/-! ## Frames through the tree -/

section Runs

variable {tr : List (frameTree timeout depth).Label} {s : (frameTree timeout depth).State}

/-- The words written to a stream by the surroundings have its destination. -/
theorem dest_coaleased
    (hr : (frameTree timeout depth).GuardedRun Addressed (frameTree timeout depth).init tr s)
    (i : Fin 8) : ∀ x ∈ s.written (FrameStream.coaleased i).chan, x.data.dest = streamDest i := by
  induction hr with
  | nil => exact fun x hx => absurd hx List.not_mem_nil
  | snoc _ hok hs ih =>
      have hfed : ∀ p o, ((frameTree timeout depth).node p).dst o ≠
          (FrameStream.coaleased i).chan := by
        intro p o h
        cases p with
        | generator j => cases o <;> cases h
        | _ => cases h
      rcases hs.written_fed hfed with heq | ⟨a, rfl, heq⟩
      · rw [heq]
        exact ih
      · intro x hx
        rw [heq] at hx
        rcases List.mem_append.mp hx with hx | hx
        · exact ih x hx
        · rw [List.mem_singleton.mp hx]
          exact of_decide_eq_true hok

variable (hr : (frameTree timeout depth).GuardedRun Addressed (frameTree timeout depth).init tr s)

include hr

theorem generated (i : Fin 8) :
    List.Forall₂ Cut (s.taken (FrameStream.coaleased i).chan)
      (s.written (FrameStream.framing i).chan ++ GeneratorRegs.held (s.regs (.generator i))) :=
  generatorKernel_path ((show (frameTree timeout depth).Reachable s from ⟨tr, hr.run⟩).path
    frameTree_pointToPoint (.generator i))

/-- What the generator of a stream has sent or holds belongs to the stream. -/
theorem dest_generated (i : Fin 8) :
    ∀ x ∈ s.written (FrameStream.framing i).chan ++ GeneratorRegs.held (s.regs (.generator i)),
      x.data.dest = streamDest i := by
  intro y hy
  obtain ⟨n, hn, rfl⟩ := List.mem_iff_getElem.mp hy
  have hcut := generated hr i
  have hlength := hcut.length_eq
  have hx := hcut.get (by omega) hn
  rw [List.get_eq_getElem, List.get_eq_getElem] at hx
  rw [hx.1]
  exact dest_coaleased hr i _ ((s.taken_isPrefix _).subset (List.getElem_mem _))

theorem framed (i : Fin 8) :
    s.written (FrameStream.l1 i).chan ++ FramingRegs.held (s.regs (.framing i)) =
      s.taken (FrameStream.framing i).chan :=
  framingKernel_path ((show (frameTree timeout depth).Reachable s from ⟨tr, hr.run⟩).path
    frameTree_pointToPoint (.framing i))

/-- The first level of the tree reads the streams. -/
theorem carries_l1 (i : Fin 8) : Carries (· = i) (s.written (FrameStream.l1 i).chan) := by
  refine Carries.of_forall fun x hx => dest_generated hr i x ?_
  refine List.mem_append_left _ ((s.taken_isPrefix _).subset ?_)
  rw [← framed hr i]
  exact List.mem_append_left _ hx

theorem merged1 (j : Fin 4) :
    ∃ o, FrameMerge Frp.last (fun x : Fin 2 => s.taken (FrameStream.l1 ⟨2 * j + x, l1_lt j x⟩).chan)
      (s.written (FrameStream.l2 j).chan ++ NetSchedulerRegs.held (s.regs (.scheduler1 j))) o := by
  obtain ⟨o, hmerge, -⟩ := netSchedulerKernel_path
    ((show (frameTree timeout depth).Reachable s from ⟨tr, hr.run⟩).path frameTree_pointToPoint
      (.scheduler1 j))
  exact ⟨o, hmerge⟩

theorem merged2 (k : Fin 2) :
    ∃ o, FrameMerge Frp.last (fun x : Fin 2 => s.taken (FrameStream.l2 ⟨2 * k + x, l2_lt k x⟩).chan)
      (s.written (FrameStream.l3 k).chan ++ NetSchedulerRegs.held (s.regs (.scheduler2 k))) o := by
  obtain ⟨o, hmerge, -⟩ := netSchedulerKernel_path
    ((show (frameTree timeout depth).Reachable s from ⟨tr, hr.run⟩).path frameTree_pointToPoint
      (.scheduler2 k))
  exact ⟨o, hmerge⟩

theorem merged3 :
    ∃ o, FrameMerge Frp.last (fun x : Fin 2 => s.taken (FrameStream.l3 x).chan)
      (s.written FrameStream.l4.chan ++ NetSchedulerRegs.held (s.regs .scheduler3)) o := by
  obtain ⟨o, hmerge, -⟩ := netSchedulerKernel_path
    ((show (frameTree timeout depth).Reachable s from ⟨tr, hr.run⟩).path frameTree_pointToPoint
      .scheduler3)
  exact ⟨o, hmerge⟩

theorem carries_l2 (j : Fin 4) :
    Carries (fun i => i.val / 2 = j.val) (s.written (FrameStream.l2 j).chan) := by
  obtain ⟨o, hmerge⟩ := merged1 hr j
  refine (Carries.merge hmerge (fun x => (carries_l1 hr _).of_isPrefix (s.taken_isPrefix _))
    fun x i hi => ?_).of_isPrefix (List.prefix_append _ _)
  have hval := congrArg Fin.val hi
  simp only at hval
  omega

theorem carries_l3 (k : Fin 2) :
    Carries (fun i => i.val / 4 = k.val) (s.written (FrameStream.l3 k).chan) := by
  obtain ⟨o, hmerge⟩ := merged2 hr k
  refine (Carries.merge hmerge (fun x => (carries_l2 hr _).of_isPrefix (s.taken_isPrefix _))
    fun x i hi => ?_).of_isPrefix (List.prefix_append _ _)
  simp only at hi
  omega

/-- Whole frames of the eight streams leave the tree. -/
theorem carries_l4 : Carries (fun _ => True) (s.written FrameStream.l4.chan) := by
  obtain ⟨o, hmerge⟩ := merged3 hr
  exact (Carries.merge hmerge (fun x => (carries_l3 hr x).of_isPrefix (s.taken_isPrefix _))
    fun _ _ _ => trivial).of_isPrefix (List.prefix_append _ _)

omit hr in
/-- The words on the way from the coalescer of stream `i` to the output of the tree, the oldest
first. -/
def inFlight (s : (frameTree timeout depth).State) (i : Fin 8) : List NetFrameFrp :=
  (NetSchedulerRegs.held (s.regs .scheduler3) ++
    ((s.fifo (FrameStream.l3 ⟨i / 4, by omega⟩).chan).queue ++
    (NetSchedulerRegs.held (s.regs (.scheduler2 ⟨i / 4, by omega⟩)) ++
    ((s.fifo (FrameStream.l2 ⟨i / 2, by omega⟩).chan).queue ++
    (NetSchedulerRegs.held (s.regs (.scheduler1 ⟨i / 2, by omega⟩)) ++
    ((s.fifo (FrameStream.l1 i).chan).queue ++
    (FramingRegs.held (s.regs (.framing i)) ++
    ((s.fifo (FrameStream.framing i).chan).queue ++
    GeneratorRegs.held (s.regs (.generator i)))))))))).filter (ofStream i)

omit hr in
theorem filter_written (s : (frameTree timeout depth).State) (c : FrameStream)
    (q : NetFrameFrp → Bool) :
    (s.taken c.chan).filter q ++ (s.fifo c.chan).queue.filter q = (s.written c.chan).filter q :=
  (List.filter_append _ _).symm

/-- What has left the tree and what is on the way are the words that the generator of the
stream has sent or holds. -/
theorem left_inFlight (i : Fin 8) :
    (s.written FrameStream.l4.chan).filter (ofStream i) ++ inFlight s i =
      s.written (FrameStream.framing i).chan ++ GeneratorRegs.held (s.regs (.generator i)) := by
  -- The input through which the stream reaches every level.
  have h3 : (s.written FrameStream.l4.chan).filter (ofStream i) ++
      (NetSchedulerRegs.held (s.regs .scheduler3)).filter (ofStream i) =
        (s.taken (FrameStream.l3 ⟨i / 4, by omega⟩).chan).filter (ofStream i) := by
    obtain ⟨o, hmerge⟩ := merged3 hr
    rw [← List.filter_append]
    refine hmerge.filter_eq (i := ⟨i / 4, by omega⟩) fun x hx => ?_
    refine ((carries_l3 hr x).of_isPrefix (s.taken_isPrefix _)).filter_eq_nil fun hi => hx ?_
    exact Fin.ext hi.symm
  have h2 : (s.written (FrameStream.l3 ⟨i / 4, by omega⟩).chan).filter (ofStream i) ++
      (NetSchedulerRegs.held (s.regs (.scheduler2 ⟨i / 4, by omega⟩))).filter (ofStream i) =
        (s.taken (FrameStream.l2 ⟨i / 2, by omega⟩).chan).filter (ofStream i) := by
    obtain ⟨o, hmerge⟩ := merged2 hr ⟨i / 4, by omega⟩
    rw [← List.filter_append]
    have hport : (⟨2 * (i / 4) + i / 2 % 2, by omega⟩ : Fin 4) = ⟨i / 2, by omega⟩ :=
      Fin.ext (by simp only; omega)
    rw [← hport]
    refine hmerge.filter_eq (i := ⟨i / 2 % 2, by omega⟩) fun x hx => ?_
    refine ((carries_l2 hr _).of_isPrefix (s.taken_isPrefix _)).filter_eq_nil fun hi => hx ?_
    simp only at hi
    exact Fin.ext (by simp only; omega)
  have h1 : (s.written (FrameStream.l2 ⟨i / 2, by omega⟩).chan).filter (ofStream i) ++
      (NetSchedulerRegs.held (s.regs (.scheduler1 ⟨i / 2, by omega⟩))).filter (ofStream i) =
        (s.taken (FrameStream.l1 i).chan).filter (ofStream i) := by
    obtain ⟨o, hmerge⟩ := merged1 hr ⟨i / 2, by omega⟩
    rw [← List.filter_append]
    have hport : (⟨2 * (i / 2) + i % 2, by omega⟩ : Fin 8) = i := Fin.ext (by simp only; omega)
    refine (hmerge.filter_eq (i := ⟨i % 2, by omega⟩) fun x hx => ?_).trans (by rw [hport])
    refine ((carries_l1 hr _).of_isPrefix (s.taken_isPrefix _)).filter_eq_nil fun hi => hx ?_
    have hval := congrArg Fin.val hi
    simp only at hval
    exact Fin.ext (by simp only; omega)
  have h0 : (s.written (FrameStream.l1 i).chan).filter (ofStream i) ++
      (FramingRegs.held (s.regs (.framing i))).filter (ofStream i) =
        (s.taken (FrameStream.framing i).chan).filter (ofStream i) := by
    rw [← List.filter_append, framed hr i]
  have hall : (s.written (FrameStream.framing i).chan ++
      GeneratorRegs.held (s.regs (.generator i))).filter (ofStream i) =
        s.written (FrameStream.framing i).chan ++ GeneratorRegs.held (s.regs (.generator i)) :=
    List.filter_eq_self.mpr fun x hx => decide_eq_true (dest_generated hr i x hx)
  rw [← hall, List.filter_append, ← filter_written s (.framing i), ← h0,
    ← filter_written s (.l1 i), ← h1, ← filter_written s (.l2 _), ← h2,
    ← filter_written s (.l3 _), ← h3, inFlight]
  simp only [List.filter_append, List.append_assoc]

/-- For all traffic and every interleaving of the framing and arbitration processes: each frame
that leaves the tree consists of consecutive words of one stream, in their order and all with its
destination; and the frames of a stream, followed by its words that are on the way, are all words
it has given to the tree, in order. -/
theorem frameTree_frames :
    (∀ f ∈ frames Frp.last (s.written FrameStream.l4.chan), ∃ i,
      (∀ x ∈ f, x.data.dest = streamDest i) ∧
        ∃ g, g <:+: s.taken (FrameStream.coaleased i).chan ∧ List.Forall₂ Cut g f) ∧
    ∀ i, List.Forall₂ Cut (s.taken (FrameStream.coaleased i).chan)
      (((frames Frp.last (s.written FrameStream.l4.chan)).filter
        fun f => f.all (ofStream i)).flatten ++ inFlight s i) := by
  have hcarries := carries_l4 hr
  have hframes : ∀ i, ((frames Frp.last (s.written FrameStream.l4.chan)).filter
      fun f => f.all (ofStream i)).flatten =
        (s.written FrameStream.l4.chan).filter (ofStream i) :=
    fun i => hcarries.whole.filter_frames (streamDest i)
  have hall : ∀ i, List.Forall₂ Cut (s.taken (FrameStream.coaleased i).chan)
      (((frames Frp.last (s.written FrameStream.l4.chan)).filter
        fun f => f.all (ofStream i)).flatten ++ inFlight s i) := by
    intro i
    rw [hframes, left_inFlight hr i]
    exact generated hr i
  refine ⟨fun f hf => ?_, hall⟩
  rcases f.eq_nil_or_concat with rfl | ⟨f', x, hx⟩
  · exact ⟨0, by simp, [], List.nil_infix, .nil⟩
  obtain ⟨k, hk⟩ := hcarries.whole.single f hf
  have hxf : x ∈ f := by simp [hx]
  have hxl : x ∈ s.written FrameStream.l4.chan := by
    rw [← frames_flatten Frp.last (s.written FrameStream.l4.chan)]
    exact List.mem_flatten_of_mem hf hxf
  obtain ⟨i, -, hi⟩ := hcarries.dest x hxl
  have hdest : ∀ y ∈ f, y.data.dest = streamDest i := fun y hy =>
    (hk y hy).trans ((hk x hxf).symm.trans hi)
  -- The frame is a part of what stream `i` has sent, so it comes from a part of what it was given.
  have hmem : f ∈ (frames Frp.last (s.written FrameStream.l4.chan)).filter
      fun f => f.all (ofStream i) :=
    List.mem_filter.mpr ⟨hf, List.all_eq_true.mpr fun y hy => decide_eq_true (hdest y hy)⟩
  obtain ⟨a, b, hab⟩ := List.append_of_mem hmem
  have hcut := hall i
  rw [hab, List.flatten_append, List.flatten_cons, List.append_assoc, List.append_assoc] at hcut
  have hdrop := List.forall₂_drop_append _ _ _ hcut
  have htake := List.forall₂_take_append _ _ _ hdrop
  exact ⟨i, hdest, _, (List.take_prefix _ _).isInfix.trans (List.drop_suffix _ _).isInfix, htake⟩

end Runs

/-- A word with destination 1 that ends a frame. -/
def lastWord (data : BitVec 512) : NetFrameFrp := ⟨⟨data, 1⟩, true⟩

/-- Two frames of one word enter stream 0 and the first of them leaves the tree. -/
def passing : List (frameTree 22 fun _ => 13).Action :=
  [.put (FrameStream.coaleased 0).chan (lastWord 7),
    .put (FrameStream.coaleased 0).chan (lastWord 9)]
  ++ List.replicate 4 (.fire (.generator 0) none) ++ List.replicate 3 (.fire (.framing 0) none)
  ++ List.replicate 4 (.fire (.scheduler1 0) none) ++ List.replicate 4 (.fire (.scheduler2 0) none)
  ++ List.replicate 4 (.fire .scheduler3 none)

/-- A frame of one word has left the tree and belongs to a part of one stream. -/
theorem frameTree_frames_passing :
    ∃ (tr : _) (s : (frameTree 22 fun _ => 13).State),
      (frameTree 22 fun _ => 13).GuardedRun Addressed (frameTree 22 fun _ => 13).init tr s ∧
        frames Frp.last (s.written FrameStream.l4.chan) = [[lastWord 7]] ∧
          ∃ i, (∀ x ∈ [lastWord 7], x.data.dest = streamDest i) ∧
            ∃ g, g <:+: s.taken (FrameStream.coaleased i).chan ∧
              List.Forall₂ Cut g [lastWord 7] := by
  obtain ⟨tr, s, hs, hout⟩ : ∃ tr s, Network.execute Addressed passing []
      (frameTree 22 fun _ => 13).init = some (tr, s) ∧
        frames Frp.last (s.written FrameStream.l4.chan) = [[lastWord 7]] := ⟨_, _, rfl, rfl⟩
  have hr := Network.execute_run .nil hs
  refine ⟨tr, s, hr, hout, (frameTree_frames hr).1 _ ?_⟩
  rw [hout]
  exact List.mem_singleton_self _

end RidgeWalker.Switch
