import RidgeWalker.Burst.Lines
import RidgeWalker.Dataflow.Ordered

/-!
# The mergers of lines

`intra_merge` puts the lines of long bursts and of single lines back into the order of the commands,
and `inter_merge` these lines and those of `single_burst` into the order of the descriptors.  Both
hold a token of each side; `intra_merge` has also read the weights of a token it holds,
`inter_merge` reads them after it has sent the token.

Main results:

- Theorem `intraMerging_keeps`: every operation of `intra_merge` keeps tokens and weights in the
  order of a sequence whose items carry their numbers.
- Theorem `interMerging_keeps`: the same for `inter_merge`.
-/

namespace RidgeWalker.Burst

open Bits Dataflow Memory Cache Wrs

/-! ## Ports -/

/-- What a merger reads: tokens and weights of both sides. -/
inductive LineIn where
  | sync (c : Fin 2)
  | weight (c : Fin 2)
deriving DecidableEq

instance : Fintype LineIn :=
  ⟨{.sync 0, .sync 1, .weight 0, .weight 1}, fun x => by rcases x with c | c <;> fin_cases c <;> decide⟩

abbrev LineIn.sort : LineIn → DySort
  | .sync _ => .sync
  | .weight _ => .weight

/-- What a merger writes. -/
inductive LineOut where
  | syncOut
  | weightOut
deriving DecidableEq

instance : Fintype LineOut := ⟨{.syncOut, .weightOut}, fun x => by cases x <;> decide⟩

abbrev LineOut.sort : LineOut → DySort
  | .syncOut => .sync
  | .weightOut => .weight

/-- What a merger has received. -/
abbrev LineReads : Type := ∀ i : LineIn, List (DyWord i.sort)

/-- What a merger has sent. -/
abbrev LineWrites : Type := ∀ o : LineOut, List (DyWord o.sort)

/-! ## `intra_merge` -/

/-- The command of a token. -/
def dynamicKey (sync : AxiPkg BurstSync) : BitVec 16 := sync.data.dynamicId &&& 0x7fff#16

/-- `dynamic_id & 0x8000`. -/
def dynamicEnds (sync : AxiPkg BurstSync) : Bool := sync.data.dynamicId.getLsbD 15

/-- Registers of `intra_merge`. -/
inductive IntraRegs where
  | poll (c : Fin 2) (m : Holding (BitVec 16) LinePkgs)
  | readWeight (c : Fin 2) (sync : AxiPkg BurstSync) (m : Holding (BitVec 16) LinePkgs)
  | decide (m : Holding (BitVec 16) LinePkgs)
  | sendWeight (weight : AxiPkg (Fin 16 → BitVec 32)) (m : Holding (BitVec 16) LinePkgs)

namespace IntraRegs

/-- `current_id`, and the packages held of each side. -/
def slots : IntraRegs → Holding (BitVec 16) LinePkgs
  | .poll _ m | .readWeight _ _ m | .decide m | .sendWeight _ m => m

/-- The second side is polled after the first. -/
def next (c : Fin 2) (m : Holding (BitVec 16) LinePkgs) : IntraRegs :=
  if c = 0 then .poll 1 m else .decide m

/-- A token whose weights have still to be read. -/
def pending : IntraRegs → Fin 2 → List (AxiPkg BurstSync)
  | .readWeight c sync _, d => if d = c then [sync] else []
  | _, _ => []

/-- Weights that have still to be sent. -/
def owed : IntraRegs → List (AxiPkg (Fin 16 → BitVec 32))
  | .sendWeight weight _ => [weight]
  | _ => []

theorem slots_next (c : Fin 2) (m : Holding (BitVec 16) LinePkgs) : (next c m).slots = m := by
  unfold next
  split <;> rfl

theorem pending_next (c : Fin 2) (m : Holding (BitVec 16) LinePkgs) (d : Fin 2) :
    (next c m).pending d = [] := by
  unfold next
  split <;> rfl

theorem owed_next (c : Fin 2) (m : Holding (BitVec 16) LinePkgs) : (next c m).owed = [] := by
  unfold next
  split <;> rfl

end IntraRegs

/-- The loop of `intra_merge`. -/
def intraMergeKernel :
    Kernel (fun i : LineIn => DyWord i.sort) (fun o : LineOut => DyWord o.sort) where
  σ := IntraRegs
  Ω := Empty
  start := .poll 0 ⟨0, fun _ => none⟩
  op
    | .poll c m =>
        match m.held c with
        | some _ => .look fun _ _ => .next c m
        | none => .readNb (.sync c) fun
            | some sync => .readWeight c sync m
            | none => .next c m
    | .readWeight c sync m => .read (.weight c) fun weight =>
        .next c { m with held := Function.update m.held c (some (sync, weight)) }
    | .decide m =>
        match m.due fun x => dynamicKey x.1 with
        | some (c, x) => .write .syncOut x.1
            (.sendWeight x.2 (m.release syncIds (fun x => dynamicEnds x.1) c x))
        | none => .look fun _ _ => .poll 0 m
    | .sendWeight weight m => .write .weightOut weight (.poll 0 m)

section

variable {c : Fin 2} {m : Holding (BitVec 16) LinePkgs} {x : LinePkgs}

theorem intra_poll_some (h : m.held c = some x) :
    intraMergeKernel.op (.poll c m) = .look fun _ _ => .next c m := by
  simp [intraMergeKernel, h]

theorem intra_poll_none (h : m.held c = none) :
    intraMergeKernel.op (.poll c m) = .readNb (.sync c) fun
      | some sync => .readWeight c sync m
      | none => .next c m := by
  simp [intraMergeKernel, h]

theorem intra_decide_some (h : m.due (fun x => dynamicKey x.1) = some (c, x)) :
    intraMergeKernel.op (.decide m) = .write .syncOut x.1
      (.sendWeight x.2 (m.release syncIds (fun x => dynamicEnds x.1) c x)) := by
  simp [intraMergeKernel, h]

theorem intra_decide_none (h : m.due (fun x => dynamicKey x.1) = none) :
    intraMergeKernel.op (.decide m) = .look fun _ _ => .poll 0 m := by
  simp [intraMergeKernel, h]

end

/-- What `intra_merge` holds, has received and has sent, for a sequence of lines. -/
structure IntraState (T : List Tag) (r : IntraRegs) (R : LineReads) (S : LineWrites)
    (lines : Fin 2 → List LinePkgs) (out : List LinePkgs) : Prop where
  sequenced : Sequenced syncIds T r.slots lines out
  free : ∀ c, r.pending c ≠ [] → r.slots.held c = none
  syncs : ∀ c, R (.sync c) = (lines c).map Prod.fst ++ r.pending c
  weights : ∀ c, R (.weight c) = (lines c).map Prod.snd
  syncOut : S .syncOut = out.map Prod.fst
  weightOut : S .weightOut ++ r.owed = out.map Prod.snd

/-- `intra_merge` sends lines in the order of a sequence. -/
def IntraMerging (T : List Tag) (r : IntraRegs) (R : LineReads) (S : LineWrites) : Prop :=
  ∃ lines out, IntraState T r R S lines out

section Intra

variable {T : List Tag} {r : IntraRegs} {R : LineReads} {S : LineWrites}

/-- The sequence may be known farther than before. -/
theorem IntraMerging.grow (h : IntraMerging T r R S) {T' : List Tag} (hT : T <+: T') :
    IntraMerging T' r R S := by
  obtain ⟨lines, out, h⟩ := h
  exact ⟨lines, out, { h with sequenced := h.sequenced.grow hT }⟩

variable {lines : Fin 2 → List LinePkgs} {out : List LinePkgs}

/-- After a poll without a word. -/
theorem IntraState.next {c : Fin 2} {m : Holding (BitVec 16) LinePkgs}
    (h : IntraState T (.poll c m) R S lines out) : IntraState T (.next c m) R S lines out where
  sequenced := by
    rw [IntraRegs.slots_next]
    exact h.sequenced
  free d hd := absurd (IntraRegs.pending_next c m d) hd
  syncs d := by
    rw [IntraRegs.pending_next]
    exact h.syncs d
  weights := h.weights
  syncOut := h.syncOut
  weightOut := by
    rw [IntraRegs.owed_next]
    exact h.weightOut

/-- After a token of a side has been read. -/
theorem IntraState.readSync {c : Fin 2} {m : Holding (BitVec 16) LinePkgs}
    (h : IntraState T (.poll c m) R S lines out) (hfree : m.held c = none)
    (sync : AxiPkg BurstSync) :
    IntraState T (.readWeight c sync m) (Function.update R (.sync c) (R (.sync c) ++ [sync])) S
      lines out where
  sequenced := h.sequenced
  free d hd := by
    by_cases hdc : d = c
    · rw [hdc]
      exact hfree
    · exact absurd (if_neg hdc) hd
  syncs d := by
    have hsyncs : R (.sync d) = (lines d).map Prod.fst ++ [] := h.syncs d
    by_cases hd : d = c
    · subst hd
      simp [IntraRegs.pending, hsyncs]
    · simp [IntraRegs.pending, hsyncs, hd]
  weights d := by
    rw [Function.update_of_ne (by simp)]
    exact h.weights d
  syncOut := h.syncOut
  weightOut := h.weightOut

/-- The weights complete the token that was read before them. -/
theorem IntraState.readWeight {c : Fin 2} {sync : AxiPkg BurstSync}
    {m : Holding (BitVec 16) LinePkgs} (h : IntraState T (.readWeight c sync m) R S lines out)
    (weight : AxiPkg (Fin 16 → BitVec 32)) :
    IntraState T (.next c { m with held := Function.update m.held c (some (sync, weight)) })
      (Function.update R (.weight c) (R (.weight c) ++ [weight])) S
      (Function.update lines c (lines c ++ [(sync, weight)])) out where
  sequenced := by
    rw [IntraRegs.slots_next]
    exact h.sequenced.take (h.free c (by simp [IntraRegs.pending])) (sync, weight)
  free d hd := absurd (IntraRegs.pending_next c _ d) hd
  syncs d := by
    rw [IntraRegs.pending_next, Function.update_of_ne (by simp), h.syncs d]
    by_cases hd : d = c
    · subst hd
      simp [IntraRegs.pending]
    · simp [IntraRegs.pending, hd]
  weights d := by
    have hweights := h.weights d
    by_cases hd : d = c
    · subst hd
      simp [hweights]
    · simpa [hd] using hweights
  syncOut := h.syncOut
  weightOut := by
    rw [IntraRegs.owed_next]
    exact h.weightOut

/-- The lines of a side carry what its tokens carry. -/
theorem IntraState.carries (h : IntraState T r R S lines out) {c : Fin 2}
    (hcarries : Carries syncIds dynamicKey dynamicEnds T c (R (.sync c))) :
    Carries syncIds (fun x : LinePkgs => dynamicKey x.1) (fun x => dynamicEnds x.1) T c
      (lines c) := by
  rw [Carries, h.syncs c, List.map_append, List.map_map] at hcarries
  exact (List.prefix_append _ _).trans hcarries

/-- The line let through is the next one of the sequence. -/
theorem IntraState.emit {m : Holding (BitVec 16) LinePkgs}
    (h : IntraState T (.decide m) R S lines out) (hT : Grouped 0 T)
    (hcarries : ∀ c, Carries syncIds dynamicKey dynamicEnds T c (R (.sync c)))
    (hbound : ∀ t ∈ T, t.group < (S .syncOut).countP dynamicEnds + 2 ^ 15) {c : Fin 2}
    {x : LinePkgs} (hdue : m.due (fun x => dynamicKey x.1) = some (c, x)) :
    IntraState T (.sendWeight x.2 (m.release syncIds (fun x => dynamicEnds x.1) c x)) R
      (Function.update S .syncOut (S .syncOut ++ [x.1])) lines (out ++ [x]) where
  sequenced := by
    have hlines := fun c => h.carries (hcarries c)
    refine h.sequenced.emit hT (fun t ht => ?_) hlines hdue
    have hgroup := hbound t ht
    rw [h.syncOut, List.countP_map] at hgroup
    rw [h.sequenced.ended_eq hlines]
    exact hgroup
  free d hd := absurd rfl hd
  syncs := h.syncs
  weights := h.weights
  syncOut := by simp [h.syncOut]
  weightOut := by
    have hweights : S .weightOut ++ [] = out.map Prod.snd := h.weightOut
    rw [List.append_nil] at hweights
    simp [IntraRegs.owed, hweights]

/-- After the weights of a line have been sent. -/
theorem IntraState.sendWeight {weight : AxiPkg (Fin 16 → BitVec 32)}
    {m : Holding (BitVec 16) LinePkgs} (h : IntraState T (.sendWeight weight m) R S lines out) :
    IntraState T (.poll 0 m) R (Function.update S .weightOut (S .weightOut ++ [weight])) lines
      out where
  sequenced := h.sequenced
  free d hd := absurd rfl hd
  syncs := h.syncs
  weights := h.weights
  syncOut := by
    rw [Function.update_of_ne (by simp)]
    exact h.syncOut
  weightOut := by
    rw [Function.update_self]
    exact (List.append_nil _).trans h.weightOut

/-- Every operation of `intra_merge` keeps the order of the lines. -/
theorem intraMerging_keeps (h : IntraMerging T r R S) (hT : Grouped 0 T)
    (hcarries : ∀ c, Carries syncIds dynamicKey dynamicEnds T c (R (.sync c)))
    (hbound : ∀ t ∈ T, t.group < (S .syncOut).countP dynamicEnds + 2 ^ 15) (W : LineReads) :
    intraMergeKernel.Keeps (fun r R S => (∀ i, R i <+: W i) → IntraMerging T r R S) R S
      (intraMergeKernel.op r) := by
  obtain ⟨lines, out, h⟩ := h
  cases r with
  | poll c m =>
      cases hheld : m.held c with
      | some x =>
          rw [intra_poll_some hheld]
          exact fun _ _ _ => ⟨lines, out, h.next⟩
      | none =>
          rw [intra_poll_none hheld]
          exact ⟨fun _ => ⟨lines, out, h.next⟩, fun sync _ => ⟨lines, out, h.readSync hheld sync⟩⟩
  | readWeight c sync m => exact fun weight _ => ⟨_, out, h.readWeight weight⟩
  | decide m =>
      cases hdue : m.due fun x => dynamicKey x.1 with
      | none =>
          rw [intra_decide_none hdue]
          exact fun _ _ _ => ⟨lines, out, ⟨h.sequenced, h.free, h.syncs, h.weights, h.syncOut,
            h.weightOut⟩⟩
      | some y =>
          obtain ⟨c, x⟩ := y
          rw [intra_decide_some hdue]
          exact fun _ => ⟨lines, out ++ [x], h.emit hT hcarries hbound hdue⟩
  | sendWeight weight m => exact fun _ => ⟨lines, out, h.sendWeight⟩

/-- At the start nothing has been received. -/
theorem intraMerging_start : IntraMerging T intraMergeKernel.start (fun _ => []) fun _ => [] :=
  ⟨fun _ => [], [], ⟨⟨Nat.zero_le _, rfl, fun _ => ⟨[], rfl, rfl⟩, rfl⟩, fun _ h => absurd rfl h,
    fun _ => rfl, fun _ => rfl, rfl, rfl⟩⟩

/-- What `intra_merge` has sent are the first lines of the sequence. -/
theorem IntraMerging.isPrefix {P : List (Tag × LinePkgs)}
    (h : IntraMerging (P.map Prod.fst) r R S)
    (hsyncs : ∀ c, R (.sync c) <+: (laneOf P c).map Prod.fst)
    (hweights : ∀ c, R (.weight c) <+: (laneOf P c).map Prod.snd) :
    S .syncOut <+: P.map (fun y => y.2.1) ∧ S .weightOut <+: P.map fun y => y.2.2 := by
  obtain ⟨lines, out, h⟩ := h
  have hlines : ∀ c, (lines c).map id <+: laneOf P c := by
    intro c
    rw [List.map_id]
    have hfst : (lines c).map Prod.fst <+: (laneOf P c).map Prod.fst :=
      (List.prefix_append _ _).trans (h.syncs c ▸ hsyncs c)
    have hsnd : (lines c).map Prod.snd <+: (laneOf P c).map Prod.snd := h.weights c ▸ hweights c
    have hzip := zip_isPrefix hfst hsnd
    rwa [zip_map_fst_snd] at hzip
  have hout := h.sequenced.isPrefix hlines
  rw [List.map_id] at hout
  refine ⟨?_, ?_⟩
  · have hsync := hout.map Prod.fst
    rw [← h.syncOut, List.map_map] at hsync
    exact hsync
  · have hweight := hout.map Prod.snd
    rw [← h.weightOut, List.map_map] at hweight
    exact (List.prefix_append _ _).trans hweight

end Intra

/-! ## `inter_merge` -/

/-- The descriptor of a token. -/
def burstKey (sync : AxiPkg BurstSync) : BitVec 16 := sync.data.burstId &&& 0x7fff#16

/-- `burst_id & 0x8000`. -/
def burstEnds (sync : AxiPkg BurstSync) : Bool := sync.data.burstId.getLsbD 15

/-- Registers of `inter_merge`. -/
inductive InterRegs where
  | poll (c : Fin 2) (m : Holding (BitVec 16) (AxiPkg BurstSync))
  | decide (m : Holding (BitVec 16) (AxiPkg BurstSync))
  | readWeight (c : Fin 2) (m : Holding (BitVec 16) (AxiPkg BurstSync))
  | sendWeight (weight : AxiPkg (Fin 16 → BitVec 32)) (m : Holding (BitVec 16) (AxiPkg BurstSync))

namespace InterRegs

/-- `current_id`, and the token held of each side. -/
def slots : InterRegs → Holding (BitVec 16) (AxiPkg BurstSync)
  | .poll _ m | .decide m | .readWeight _ m | .sendWeight _ m => m

/-- The second side is polled after the first. -/
def next (c : Fin 2) (m : Holding (BitVec 16) (AxiPkg BurstSync)) : InterRegs :=
  if c = 0 then .poll 1 m else .decide m

/-- The side whose weights are to be read. -/
def reads : InterRegs → Option (Fin 2)
  | .readWeight c _ => some c
  | _ => none

/-- Weights that have still to be sent. -/
def owed : InterRegs → List (AxiPkg (Fin 16 → BitVec 32))
  | .sendWeight weight _ => [weight]
  | _ => []

end InterRegs

/-- The loop of `inter_merge`. -/
def interMergeKernel :
    Kernel (fun i : LineIn => DyWord i.sort) (fun o : LineOut => DyWord o.sort) where
  σ := InterRegs
  Ω := Empty
  start := .poll 0 ⟨0, fun _ => none⟩
  op
    | .poll c m =>
        match m.held c with
        | some _ => .look fun _ _ => .next c m
        | none => .readNb (.sync c) fun sync =>
            .next c { m with held := Function.update m.held c sync }
    | .decide m =>
        match m.due burstKey with
        | some (c, sync) => .write .syncOut sync (.readWeight c (m.release syncIds burstEnds c sync))
        | none => .look fun _ _ => .poll 0 m
    | .readWeight c m => .read (.weight c) fun weight => .sendWeight weight m
    | .sendWeight weight m => .write .weightOut weight (.poll 0 m)

section

variable {c : Fin 2} {m : Holding (BitVec 16) (AxiPkg BurstSync)} {x : AxiPkg BurstSync}

theorem inter_poll_some (h : m.held c = some x) :
    interMergeKernel.op (.poll c m) = .look fun _ _ => .next c m := by
  simp [interMergeKernel, h]

theorem inter_poll_none (h : m.held c = none) :
    interMergeKernel.op (.poll c m) = .readNb (.sync c) fun sync =>
      .next c { m with held := Function.update m.held c sync } := by
  simp [interMergeKernel, h]

theorem inter_decide_some (h : m.due burstKey = some (c, x)) :
    interMergeKernel.op (.decide m) =
      .write .syncOut x (.readWeight c (m.release syncIds burstEnds c x)) := by
  simp [interMergeKernel, h]

theorem inter_decide_none (h : m.due burstKey = none) :
    interMergeKernel.op (.decide m) = .look fun _ _ => .poll 0 m := by
  simp [interMergeKernel, h]

end

/-- What `inter_merge` holds, has received and has sent, when the weights of the first `n` lines
have followed their tokens. -/
structure InterState (T : List Tag) (r : InterRegs) (R : LineReads) (S : LineWrites) (n : ℕ) :
    Prop where
  sequenced : Sequenced syncIds T r.slots (fun c => R (.sync c)) (S .syncOut)
  relayed : Relayed T n (fun c => R (.weight c)) (S .weightOut ++ r.owed)
  behind : (S .syncOut).length = n + r.reads.toList.length
  side : ∀ c, r.reads = some c → (sides T)[n]? = some c

/-- `inter_merge` sends lines in the order of a sequence. -/
def InterMerging (T : List Tag) (r : InterRegs) (R : LineReads) (S : LineWrites) : Prop :=
  ∃ n, InterState T r R S n

section Inter

variable {T : List Tag} {r : InterRegs} {R : LineReads} {S : LineWrites} {n : ℕ}

theorem InterState.le (h : InterState T r R S n) : n ≤ T.length := by
  have hle := h.sequenced.le
  have hbehind := h.behind
  omega

/-- The sequence may be known farther than before. -/
theorem InterMerging.grow (h : InterMerging T r R S) {T' : List Tag} (hT : T <+: T') :
    InterMerging T' r R S := by
  obtain ⟨n, h⟩ := h
  refine ⟨n, h.sequenced.grow hT, h.relayed.grow h.le hT, h.behind, fun c hc => ?_⟩
  exact getElem?_of_isPrefix (hT.map _) (h.side c hc)

/-- After a poll: a token may have been read, and nothing else has happened. -/
theorem InterState.next {c : Fin 2} {m m' : Holding (BitVec 16) (AxiPkg BurstSync)}
    {R' : LineReads} (h : InterState T (.poll c m) R S n)
    (hsequenced : Sequenced syncIds T m' (fun c => R' (.sync c)) (S .syncOut))
    (hweights : ∀ c, R' (.weight c) = R (.weight c)) : InterState T (.next c m') R' S n := by
  have hsame : (fun c => R' (.weight c)) = fun c => R (.weight c) := funext hweights
  have hrelayed : Relayed T n (fun c => R' (.weight c)) (S .weightOut ++ []) := hsame ▸ h.relayed
  unfold InterRegs.next
  split
  · exact ⟨hsequenced, hrelayed, h.behind, fun _ hc => by cases hc⟩
  · exact ⟨hsequenced, hrelayed, h.behind, fun _ hc => by cases hc⟩

/-- The token let through is that of the next line of the sequence. -/
theorem InterState.emit {m : Holding (BitVec 16) (AxiPkg BurstSync)}
    (h : InterState T (.decide m) R S n) (hT : Grouped 0 T)
    (hcarries : ∀ c, Carries syncIds burstKey burstEnds T c (R (.sync c)))
    (hbound : ∀ t ∈ T, t.group < (S .syncOut).countP burstEnds + 2 ^ 15) {c : Fin 2}
    {sync : AxiPkg BurstSync} (hdue : m.due burstKey = some (c, sync)) :
    InterState T (.readWeight c (m.release syncIds burstEnds c sync)) R
      (Function.update S .syncOut (S .syncOut ++ [sync])) n := by
  have hgroups : ∀ t ∈ T, t.group < ended (T.take (S .syncOut).length) + syncIds.period := by
    rw [h.sequenced.ended_eq hcarries]
    exact hbound
  have hemit := h.sequenced.emit hT hgroups hcarries hdue
  have hbehind : (S .syncOut).length = n := h.behind
  refine ⟨?_, ?_, ?_, fun d hd => ?_⟩
  · rw [Function.update_self]
    exact hemit
  · rw [Function.update_of_ne (by simp)]
    exact h.relayed
  · rw [Function.update_self, List.length_append, hbehind]
    rfl
  · cases hd
    rw [← hbehind]
    exact h.sequenced.side hemit (Holding.of_due hdue).1 (Function.update_self ..)

/-- The weights of the token that was sent last are those of the next line. -/
theorem InterState.readWeight {c : Fin 2} {m : Holding (BitVec 16) (AxiPkg BurstSync)}
    (h : InterState T (.readWeight c m) R S n) (weight : AxiPkg (Fin 16 → BitVec 32)) :
    InterState T (.sendWeight weight m)
      (Function.update R (.weight c) (R (.weight c) ++ [weight])) S (n + 1) := by
  have hsyncs : (fun d => Function.update R (.weight c) (R (.weight c) ++ [weight]) (.sync d)) =
      fun d => R (.sync d) := by
    ext1 d
    rw [Function.update_of_ne (by simp)]
  have hweights : (fun d => Function.update R (.weight c) (R (.weight c) ++ [weight]) (.weight d)) =
      Function.update (fun d => R (.weight d)) c (R (.weight c) ++ [weight]) := by
    ext1 d
    by_cases hd : d = c
    · subst hd
      simp
    · simp [hd]
  have hrelayed : Relayed T n (fun c => R (.weight c)) (S .weightOut ++ []) := h.relayed
  rw [List.append_nil] at hrelayed
  refine ⟨?_, ?_, h.behind, fun _ hd => by cases hd⟩
  · rw [hsyncs]
    exact h.sequenced
  · rw [hweights]
    exact hrelayed.snoc (h.side c rfl) weight

/-- After the weights of a line have been sent. -/
theorem InterState.sendWeight {weight : AxiPkg (Fin 16 → BitVec 32)}
    {m : Holding (BitVec 16) (AxiPkg BurstSync)}
    (h : InterState T (.sendWeight weight m) R S n) :
    InterState T (.poll 0 m) R (Function.update S .weightOut (S .weightOut ++ [weight])) n := by
  refine ⟨?_, ?_, ?_, fun _ hd => by cases hd⟩
  · rw [Function.update_of_ne (by simp)]
    exact h.sequenced
  · rw [Function.update_self]
    simpa [InterRegs.owed] using h.relayed
  · rw [Function.update_of_ne (by simp)]
    exact h.behind

/-- Every operation of `inter_merge` keeps the order of the lines. -/
theorem interMerging_keeps (h : InterMerging T r R S) (hT : Grouped 0 T)
    (hcarries : ∀ c, Carries syncIds burstKey burstEnds T c (R (.sync c)))
    (hbound : ∀ t ∈ T, t.group < (S .syncOut).countP burstEnds + 2 ^ 15) (W : LineReads) :
    interMergeKernel.Keeps (fun r R S => (∀ i, R i <+: W i) → InterMerging T r R S) R S
      (interMergeKernel.op r) := by
  obtain ⟨n, h⟩ := h
  cases r with
  | poll c m =>
      cases hheld : m.held c with
      | some x =>
          rw [inter_poll_some hheld]
          exact fun _ _ _ => ⟨n, h.next h.sequenced fun _ => rfl⟩
      | none =>
          rw [inter_poll_none hheld]
          refine ⟨fun _ => ⟨n, h.next ?_ fun _ => rfl⟩, fun sync _ => ⟨n, h.next ?_ fun d => ?_⟩⟩
          · rw [← hheld, Function.update_eq_self]
            exact h.sequenced
          · have htake := h.sequenced.take hheld sync
            have hsyncs : (fun d => Function.update R (.sync c) (R (.sync c) ++ [sync]) (.sync d)) =
                Function.update (fun d => R (.sync d)) c (R (.sync c) ++ [sync]) := by
              ext1 d
              by_cases hd : d = c
              · subst hd
                simp
              · simp [hd]
            rw [hsyncs]
            exact htake
          · rw [Function.update_of_ne (by simp)]
  | decide m =>
      cases hdue : m.due burstKey with
      | none =>
          rw [inter_decide_none hdue]
          exact fun _ _ _ => ⟨n, h.sequenced, h.relayed, h.behind, fun _ hd => by cases hd⟩
      | some y =>
          obtain ⟨c, sync⟩ := y
          rw [inter_decide_some hdue]
          exact fun _ => ⟨n, h.emit hT hcarries hbound hdue⟩
  | readWeight c m => exact fun weight _ => ⟨n + 1, h.readWeight weight⟩
  | sendWeight weight m => exact fun _ => ⟨n, h.sendWeight⟩

/-- At the start nothing has been received. -/
theorem interMerging_start : InterMerging T interMergeKernel.start (fun _ => []) fun _ => [] :=
  ⟨0, ⟨Nat.zero_le _, rfl, fun _ => ⟨[], rfl, rfl⟩, rfl⟩, ⟨fun _ => rfl, rfl⟩, rfl,
    fun _ hd => by cases hd⟩

/-- What `inter_merge` has sent are the first lines of the sequence. -/
theorem InterMerging.isPrefix {P : List (Tag × SentLine)}
    (h : InterMerging (P.map Prod.fst) r R S)
    (hsyncs : ∀ c, (R (.sync c)).map lineToken <+: (laneOf P c).map Prod.fst)
    (hweights : ∀ c, R (.weight c) <+: (laneOf P c).map Prod.snd) :
    (S .syncOut).map lineToken <+: P.map (fun y => y.2.1) ∧ S .weightOut <+: P.map fun y => y.2.2 := by
  obtain ⟨n, h⟩ := h
  have htokens : P.map Prod.fst = (P.map fun y => (y.1, y.2.1)).map Prod.fst := by
    rw [List.map_map]
    rfl
  have hwords : P.map Prod.fst = (P.map fun y => (y.1, y.2.2)).map Prod.fst := by
    rw [List.map_map]
    rfl
  refine ⟨?_, ?_⟩
  · have hsequenced := h.sequenced
    rw [htokens] at hsequenced
    have hpre := hsequenced.isPrefix (f := lineToken) fun c => by
      rw [laneOf_map Prod.fst]
      exact hsyncs c
    rwa [List.map_map] at hpre
  · have hrelayed := h.relayed
    rw [hwords] at hrelayed
    have hpre := hrelayed.isPrefix (f := id) fun c => by
      rw [laneOf_map Prod.snd, List.map_id]
      exact hweights c
    rw [List.map_id, List.map_map] at hpre
    exact (List.prefix_append _ _).trans hpre

end Inter

end RidgeWalker.Burst
