import RidgeWalker.Dataflow.Execution
import RidgeWalker.Node2vec.NeighborMask

/-!
# Lines over four lanes

A line of sixteen lanes is scattered over four streams in four rounds.  Each stream has a unit
that answers its items and a merger that joins the answers with those of a second line, and
`merge_weight` gathers lines again by counting the rounds.

Main results:

- Theorem `dispatch_path`: what `weight_dispatch` sends to a lane.
- Theorem `mergeMask_path`: what `merge_mask` joins.
- Theorem `mergeWeightRounds_sound`: `merge_weight` reads one item of every lane in a round.
- Theorem `lines_reassembled`: every line that is gathered joins what belongs together.
-/

namespace RidgeWalker.Node2vec

open Dataflow Memory Wrs

/-! ## `weight_dispatch` -/

/-- `adj_pkg_1` of round `i`: lane `(i << 2) + j`, and `last` in the last round only. -/
def adjPkg (line : AxiPkg WeightItem) (j i : Fin 4) : AxiPkg (BitVec 32) :=
  ⟨line.data (laneOf i j), if i = 3 then line.last else false⟩

/-- The writes for one line: four rounds for each output in turn. -/
def dispatchLine (line : AxiPkg WeightItem) : List (Send fun _ : Fin 4 => AxiPkg (BitVec 32)) :=
  (List.finRange 4).flatMap fun j => (List.finRange 4).map fun i => ⟨j, adjPkg line j i⟩

/-- `weight_dispatch` keeps nothing between two lines. -/
def weightDispatch : Emitter (AxiPkg WeightItem) fun _ : Fin 4 => AxiPkg (BitVec 32) where
  σ := Unit
  start := ()
  answer _ line := ((), dispatchLine line)

/-- What a line gives to lane `j`. -/
def laneItems (j : Fin 4) (line : AxiPkg WeightItem) : List (AxiPkg (BitVec 32)) :=
  (List.finRange 4).map (adjPkg line j)

theorem sentTo_dispatchLine (line : AxiPkg WeightItem) (j : Fin 4) :
    sentTo j (dispatchLine line) = laneItems j line := by
  fin_cases j <;> rfl

theorem sentTo_weightDispatch (j : Fin 4) (lines : List (AxiPkg WeightItem)) :
    sentTo j (weightDispatch.answers () lines) = lines.flatMap (laneItems j) := by
  induction lines with
  | nil => rfl
  | cons line lines ih =>
      show sentTo j (dispatchLine line ++ weightDispatch.answers () lines) = _
      rw [sentTo_append, List.flatMap_cons, ih, sentTo_dispatchLine]

/-- What `weight_dispatch` has sent and is about to send to a lane are the items of its lines. -/
theorem dispatch_path {r : Unit × List (Send fun _ : Fin 4 => AxiPkg (BitVec 32))} {R S}
    (hp : (emitterKernel weightDispatch).Path (emitterKernel weightDispatch).start r R S)
    (j : Fin 4) : S j ++ sentTo j r.2 = (R ()).flatMap (laneItems j) := by
  rw [emitter_path weightDispatch hp j]
  exact sentTo_weightDispatch j (R ())

/-- The items of some lines by position. -/
theorem getElem?_laneItems (j : Fin 4) (lines : List (AxiPkg WeightItem)) (n : ℕ) :
    (lines.flatMap (laneItems j))[n]? =
      lines[n / 4]?.map fun line => adjPkg line j ⟨n % 4, Nat.mod_lt n (by decide)⟩ := by
  induction lines generalizing n with
  | nil => rfl
  | cons line lines ih =>
      have hlength : (laneItems j line).length = 4 := by simp [laneItems]
      rw [List.flatMap_cons]
      by_cases hn : n < 4
      · rw [List.getElem?_append_left (by omega), Nat.div_eq_of_lt hn, laneItems, List.getElem?_map,
          List.getElem?_eq_getElem (by simpa using hn), List.getElem_finRange]
        simp [Nat.mod_eq_of_lt hn]
      · have hdiv : n / 4 = (n - 4) / 4 + 1 := by omega
        have hmod : n % 4 = (n - 4) % 4 := by omega
        rw [List.getElem?_append_right (by omega), hlength, ih, hdiv, List.getElem?_cons_succ]
        simp only [hmod]

/-! ## `merge_mask` -/

/-- The inputs of `merge_mask`. -/
inductive MergeMaskIn where
  | currMask
  | lastMask
deriving DecidableEq

instance : Fintype MergeMaskIn := ⟨{.currMask, .lastMask}, fun x => by cases x <;> decide⟩

/-- Registers of `merge_mask` at each of its stream accesses. -/
inductive MergeMaskRegs where
  | poll
  | fetch (lastPkg : AxiPkg (BitVec 32))
  | emit (outPkg : AxiPkg (BitVec 32))

/-- `out_pkg`. -/
def combine (currPkg lastPkg : AxiPkg (BitVec 32)) : AxiPkg (BitVec 32) :=
  ⟨if currPkg.data = 0 then lastPkg.data else currPkg.data, false⟩

/-- `merge_mask`. -/
def mergeMaskKernel :
    Kernel (fun _ : MergeMaskIn => AxiPkg (BitVec 32)) (fun _ : Unit => AxiPkg (BitVec 32)) where
  σ := MergeMaskRegs
  Ω := Empty
  start := .poll
  op
    | .poll => .readNb .lastMask fun
        | some lastPkg => .fetch lastPkg
        | none => .poll
    | .fetch lastPkg => .read .currMask fun currPkg => .emit (combine currPkg lastPkg)
    | .emit outPkg => .write () outPkg .poll

/-- The package on its way out. -/
def MergeMaskRegs.held : MergeMaskRegs → List (AxiPkg (BitVec 32))
  | .emit outPkg => [outPkg]
  | _ => []

/-- The package that waits for its partner. -/
def MergeMaskRegs.alone : MergeMaskRegs → List (AxiPkg (BitVec 32))
  | .fetch lastPkg => [lastPkg]
  | _ => []

/-- `merge_mask` joins its inputs item by item. -/
theorem mergeMask_path {r : MergeMaskRegs} {R S}
    (hp : mergeMaskKernel.Path mergeMaskKernel.start r R S) :
    ∃ paired, R .lastMask = paired ++ r.alone ∧ paired.length = (R .currMask).length ∧
      S () ++ r.held = List.zipWith combine (R .currMask) paired := by
  refine hp.induct (I := fun (r : MergeMaskRegs) R S => ∃ paired, R .lastMask = paired ++ r.alone ∧
    paired.length = (R .currMask).length ∧
      S () ++ r.held = List.zipWith combine (R .currMask) paired) ⟨[], rfl, rfl, rfl⟩ ?_
  rintro r R S ⟨paired, hlast, hlength, hsent⟩
  cases r with
  | poll =>
      refine ⟨⟨paired, hlast, hlength, hsent⟩, fun lastPkg => ⟨paired, ?_, ?_, ?_⟩⟩
      · rw [Function.update_self, hlast]
        exact congrArg (· ++ [lastPkg]) (List.append_nil paired)
      · rw [Function.update_of_ne (by decide), hlength]
      · rw [Function.update_of_ne (by decide), ← hsent]
        rfl
  | fetch lastPkg =>
      intro currPkg
      refine ⟨paired ++ [lastPkg], ?_, ?_, ?_⟩
      · rw [Function.update_of_ne (by decide), hlast]
        exact (List.append_nil _).symm
      · rw [Function.update_self, List.length_append, List.length_append, hlength]
        rfl
      · rw [Function.update_self, List.zipWith_append hlength.symm, ← hsent, List.append_assoc]
        rfl
  | emit outPkg =>
      refine ⟨paired, hlast, hlength, ?_⟩
      rw [Function.update_self, ← hsent]
      exact List.append_nil _

/-! ## `merge_weight` -/

/-- What `merge_weight` keeps over an iteration. -/
structure Merge where
  counter : BitVec 4
  outData : WeightItem

/-- The four packages of a round, in the order of the inputs. -/
abbrev LanePkgs : Type := Fin 4 → AxiPkg (BitVec 32)

/-- `updated_w`: the vertex of a `next_vertex_t` is 64 bits wide, the stream is narrower. -/
def updatedW (pkg : AxiPkg (BitVec 32)) : BitVec 32 := (pkg.data.setWidth 64).setWidth 32

namespace Merge

variable (m : Merge) (pkgs : LanePkgs)

/-- `out_data` after the four assignments from `counter` on. -/
def store : WeightItem := fun k =>
  if h : m.counter.toNat ≤ k.val ∧ k.val - m.counter.toNat < 4 then
    updatedW (pkgs ⟨k.val - m.counter.toNat, h.2⟩)
  else m.outData k

/-- The state after a round. -/
def next : Merge :=
  if (pkgs 3).last then { m with counter := 0 } else ⟨m.counter + 4, m.store pkgs⟩

/-- The line that a round completes. -/
def line : Option WeightItem :=
  if (pkgs 3).last then none else if m.counter = 12 then some (m.store pkgs) else none

/-- The lines that some rounds complete. -/
def lines (m : Merge) : List LanePkgs → List WeightItem
  | [] => []
  | pkgs :: rounds => (m.line pkgs).toList ++ lines (m.next pkgs) rounds

theorem lines_snoc (rounds : List LanePkgs) :
    m.lines (rounds ++ [pkgs]) =
      m.lines rounds ++ ((rounds.foldl next m).line pkgs).toList := by
  induction rounds generalizing m with
  | nil => simp [lines]
  | cons p rounds ih =>
      rw [List.cons_append, lines, lines, ih, List.append_assoc]
      rfl

end Merge

/-- Registers of `merge_weight` at each of its stream accesses. -/
inductive MergeWeightRegs where
  | poll (pkgs : LanePkgs) (m : Merge)
  | fetch (i : Fin 3) (pkgs : LanePkgs) (m : Merge)
  | emit (line : WeightItem) (pkgs : LanePkgs) (m : Merge)

/-- After the four packages of a round have been read. -/
def mergeRound (pkgs : LanePkgs) (m : Merge) : MergeWeightRegs :=
  match m.line pkgs with
  | some line => .emit line pkgs (m.next pkgs)
  | none => .poll pkgs (m.next pkgs)

/-- `merge_weight`: it polls `in4` and then reads the other inputs. -/
def mergeWeightKernel :
    Kernel (fun _ : Fin 4 => AxiPkg (BitVec 32)) (fun _ : Unit => WeightItem) where
  σ := MergeWeightRegs
  Ω := Empty
  start := .poll (fun _ => ⟨0, false⟩) ⟨0, fun _ => 0⟩
  op
    | .poll pkgs m => .readNb 3 fun
        | some pkg => .fetch 0 (Function.update pkgs 3 pkg) m
        | none => .poll pkgs m
    | .fetch i pkgs m => .read i.castSucc fun pkg =>
        if h : i.val + 1 < 3 then .fetch ⟨i.val + 1, h⟩ (Function.update pkgs i.castSucc pkg) m
        else mergeRound (Function.update pkgs i.castSucc pkg) m
    | .emit line pkgs m => .write () line (.poll pkgs m)

/-- The order in which `merge_weight` reads its inputs. -/
def readRank : Fin 4 → ℕ := ![1, 2, 3, 0]

theorem readRank_injective : Function.Injective readRank := by decide

theorem readRank_castSucc : ∀ i : Fin 3, readRank i.castSucc = i.val + 1 := by decide

/-- The state in the registers. -/
def MergeWeightRegs.merge : MergeWeightRegs → Merge
  | .poll _ m => m
  | .fetch _ _ m => m
  | .emit _ _ m => m

/-- `merge_weight` before its first round. -/
def mergeStart : Merge := ⟨0, fun _ => 0⟩

/-- A round of `merge_weight` takes one package of every input, and may give a line. -/
def mergeWeightRounds : Rounds mergeWeightKernel LanePkgs where
  ins rounds i := rounds.map fun pkgs => pkgs i
  outs rounds _ := mergeStart.lines rounds
  got
    | .fetch i pkgs _ => Rounds.gathered readRank pkgs (i.val + 1)
    | _ => fun _ => []
  owes
    | .emit line _ _ => fun _ => [line]
    | _ => fun _ => []
  agrees rounds r := r.merge = rounds.foldl Merge.next mergeStart

theorem mergeRound_merge (pkgs : LanePkgs) (m : Merge) :
    (mergeRound pkgs m).merge = m.next pkgs := by
  rw [mergeRound]
  split <;> rfl

theorem mergeRound_got (pkgs : LanePkgs) (m : Merge) (i : Fin 4) :
    mergeWeightRounds.got (mergeRound pkgs m) i = [] := by
  rw [mergeRound]
  split <;> rfl

theorem mergeRound_owes (pkgs : LanePkgs) (m : Merge) :
    mergeWeightRounds.owes (mergeRound pkgs m) () = (m.line pkgs).toList := by
  rw [mergeRound]
  split
  · rename_i line hline
    rw [hline]
    rfl
  · rename_i hline
    rw [hline]
    rfl

theorem mergeWeightRounds_sound : mergeWeightRounds.Sound := by
  refine ⟨⟨rfl, fun _ => rfl, fun _ => rfl⟩, fun rounds r R S h => ?_⟩
  have hmerge : r.merge = rounds.foldl Merge.next mergeStart := h.agrees
  cases r with
  | poll pkgs m =>
      refine ⟨⟨rounds, h⟩, fun pkg => ⟨rounds, h.take hmerge ?_ rfl⟩⟩
      have hnone : Rounds.gathered readRank pkgs (readRank 3) = fun _ => [] := rfl
      exact (Rounds.gathered_update readRank_injective pkgs 3 pkg).trans (by rw [hnone]; rfl)
  | fetch i pkgs m =>
      intro pkg
      have hgather := Rounds.gathered_update readRank_injective pkgs i.castSucc pkg
      rw [readRank_castSucc] at hgather
      by_cases hi : i.val + 1 < 3
      · refine ⟨rounds, ?_⟩
        simp only [hi, dite_true]
        exact h.take hmerge hgather rfl
      · refine ⟨rounds ++ [Function.update pkgs i.castSucc pkg], ?_⟩
        simp only [hi, dite_false]
        have hall : ∀ j, readRank j < i.val + 1 + 1 := by
          intro j
          have hj : readRank j ≤ 3 := by revert j; decide
          omega
        refine h.round _ ?_ (fun j => ?_) (mergeRound_got _ m) (fun _ => rfl) fun _ => ?_
        · show (mergeRound _ m).merge = _
          rw [mergeRound_merge, List.foldl_append, ← hmerge]
          rfl
        · show (rounds ++ [Function.update pkgs i.castSucc pkg]).map (fun p : LanePkgs => p j) =
            rounds.map (fun p : LanePkgs => p j) ++ _
          rw [List.map_append, List.map_singleton]
          exact congrArg _ ((Rounds.gathered_all hall _ j).symm.trans (congrFun hgather j))
        · show mergeStart.lines (rounds ++ [_]) = mergeStart.lines rounds ++ _
          rw [Merge.lines_snoc, mergeRound_owes, ← hmerge]
          rfl
  | emit line pkgs m =>
      refine ⟨rounds, h.give hmerge rfl (funext fun _ => ?_)⟩
      rw [Function.update_self]
      rfl

/-! ## Rounds and lines -/

/-- Lane `k` belongs to the input `k mod 4`. -/
def inputOf (k : Fin numOfWeights) : Fin 4 := ⟨k.val % 4, Nat.mod_lt _ (by decide)⟩

/-- `v` is the word of lane `k` in the group of four rounds from `4 * j` on. -/
def InGroup (rounds : List LanePkgs) (j : ℕ) (k : Fin numOfWeights) (v : BitVec 32) : Prop :=
  ∃ pkgs, rounds[4 * j + k.val / 4]? = some pkgs ∧ v = updatedW (pkgs (inputOf k))

theorem InGroup.snoc {rounds : List LanePkgs} {j : ℕ} {k : Fin numOfWeights} {v : BitVec 32}
    (h : InGroup rounds j k v) (pkgs : LanePkgs) : InGroup (rounds ++ [pkgs]) j k v := by
  obtain ⟨p, hp, hv⟩ := h
  have hlt := (List.getElem?_eq_some_iff.mp hp).1
  exact ⟨p, by rwa [List.getElem?_append_left hlt], hv⟩

/-- The state and the lines after some rounds: `counter` counts the rounds of a group, `out_data`
has the words of these rounds, and every group of four rounds gave a line. -/
structure Grouped4 (rounds : List LanePkgs) (m : Merge) (lines : List WeightItem) : Prop where
  counter : m.counter.toNat = 4 * (rounds.length % 4)
  outData : ∀ k, k.val / 4 < rounds.length % 4 → InGroup rounds (rounds.length / 4) k (m.outData k)
  length : lines.length = rounds.length / 4
  lines : ∀ j line, lines[j]? = some line → ∀ k, InGroup rounds j k (line k)

section Groups

variable {rounds : List LanePkgs} {m : Merge} {lines : List WeightItem} {pkgs : LanePkgs}

/-- The words stored in the rounds of a group, the last one included. -/
theorem Grouped4.store (h : Grouped4 rounds m lines) (k : Fin numOfWeights)
    (hk : k.val / 4 ≤ rounds.length % 4) :
    InGroup (rounds ++ [pkgs]) (rounds.length / 4) k (m.store pkgs k) := by
  have hcounter := h.counter
  rw [Merge.store]
  by_cases hround : k.val / 4 = rounds.length % 4
  · have hin : m.counter.toNat ≤ k.val ∧ k.val - m.counter.toNat < 4 := by omega
    rw [dif_pos hin]
    refine ⟨pkgs, ?_, ?_⟩
    · have hindex : 4 * (rounds.length / 4) + k.val / 4 = rounds.length := by omega
      rw [hindex, List.getElem?_concat_length]
    · have hinput : (⟨k.val - m.counter.toNat, hin.2⟩ : Fin 4) = inputOf k :=
        Fin.ext (show k.val - m.counter.toNat = k.val % 4 by omega)
      rw [hinput]
  · have hout : ¬(m.counter.toNat ≤ k.val ∧ k.val - m.counter.toNat < 4) := by omega
    rw [dif_neg hout]
    exact (h.outData k (by omega)).snoc pkgs

/-- One more round without a `last` flag. -/
theorem Grouped4.step (h : Grouped4 rounds m lines) (hlast : (pkgs 3).last = false) :
    Grouped4 (rounds ++ [pkgs]) (m.next pkgs) (lines ++ (m.line pkgs).toList) := by
  have hcounter := h.counter
  have hnext : m.next pkgs = ⟨m.counter + 4, m.store pkgs⟩ := by
    rw [Merge.next, hlast]
    rfl
  have hline : m.line pkgs = if m.counter = 12 then some (m.store pkgs) else none := by
    rw [Merge.line, hlast]
    rfl
  have hlength : (rounds ++ [pkgs]).length = rounds.length + 1 := by simp
  have htoNat : (m.counter + 4).toNat = 4 * ((rounds.length + 1) % 4) := by
    rw [BitVec.toNat_add, hcounter]
    show (4 * (rounds.length % 4) + 4) % 16 = _
    omega
  have hfull : m.counter = 12 ↔ rounds.length % 4 = 3 := by
    rw [← BitVec.toNat_inj, hcounter]
    show 4 * (rounds.length % 4) = 12 ↔ _
    omega
  rw [hnext, hline]
  refine ⟨by rw [hlength]; exact htoNat, fun k hk => ?_, ?_, fun j line hj => ?_⟩
  · rw [hlength] at hk ⊢
    have hgroup : (rounds.length + 1) / 4 = rounds.length / 4 := by omega
    rw [hgroup]
    exact h.store k (by omega)
  · rw [List.length_append, h.length, hlength]
    by_cases hthree : rounds.length % 4 = 3
    · rw [if_pos (hfull.mpr hthree)]
      show rounds.length / 4 + 1 = _
      omega
    · rw [if_neg fun h => hthree (hfull.mp h)]
      show rounds.length / 4 + 0 = _
      omega
  · by_cases hold : j < lines.length
    · rw [List.getElem?_append_left hold] at hj
      exact fun k => (h.lines j line hj k).snoc pkgs
    · rw [List.getElem?_append_right (not_lt.mp hold)] at hj
      by_cases hthree : rounds.length % 4 = 3
      · rw [if_pos (hfull.mpr hthree)] at hj
        have hstore : line = m.store pkgs := List.mem_singleton.mp (List.mem_of_getElem? hj)
        have hzero : j - lines.length < 1 := (List.getElem?_eq_some_iff.mp hj).1
        have hgroup : j = rounds.length / 4 := by
          have hlines := h.length
          omega
        rw [hstore, hgroup]
        intro k
        have hk : k.val < 16 := k.isLt
        exact h.store k (by omega)
      · rw [if_neg fun h => hthree (hfull.mp h)] at hj
        exact absurd hj (by simp)

/-- Rounds without a `last` flag. -/
theorem grouped4 (hlast : ∀ pkgs ∈ rounds, (pkgs 3).last = false) :
    Grouped4 rounds (rounds.foldl Merge.next mergeStart) (mergeStart.lines rounds) := by
  induction rounds using List.reverseRecOn with
  | nil => exact ⟨rfl, nofun, rfl, nofun⟩
  | append_singleton rounds pkgs ih =>
      have hrounds := ih fun p hp => hlast p (List.mem_append_left _ hp)
      rw [List.foldl_append, Merge.lines_snoc]
      exact hrounds.step (hlast pkgs (by simp))

end Groups

/-! ## The network -/

/-- The sorts of streams between the lines. -/
inductive LaneSort where
  | ine (s : IneSort)
  | line
deriving DecidableEq

/-- The words of every sort. -/
abbrev LaneWord : LaneSort → Type
  | .ine s => IneWord s
  | .line => WeightItem

/-- The streams between the lines. -/
inductive LaneChan : LaneSort → Type where
  | neighborLine : LaneChan (.ine .weight)
  | maskLine : LaneChan (.ine .weight)
  | lastAdj (i : Fin 4) : LaneChan (.ine .weight)
  | currAdj (i : Fin 4) : LaneChan (.ine .adjacent)
  | currMask (i : Fin 4) : LaneChan (.ine .adjacent)
  | lastMask (i : Fin 4) : LaneChan (.ine .adjacent)
  | merged (i : Fin 4) : LaneChan (.ine .adjacent)
  | weightOut : LaneChan .line
deriving DecidableEq

/-- A stream as a stream of the system. -/
abbrev LaneChan.chan {s : LaneSort} (c : LaneChan s) : Chan LaneChan := ⟨s, c⟩

/-- The processes. -/
inductive LaneProc where
  | dispatchNeighbor
  | dispatchMask
  | unit (i : Fin 4)
  | mergeMask (i : Fin 4)
  | mergeWeight
deriving DecidableEq, Fintype

/-- A unit of a lane: it has the ports of `neighbor_mask`. -/
abbrev LaneUnit : Type 1 :=
  Kernel (fun x : MaskIn => IneWord x.sort) (fun _ : Unit => IneWord .adjacent)

/-- The call of each process. -/
def laneCall (unit : Fin 4 → LaneUnit) : LaneProc → Call LaneChan LaneWord
  | .dispatchNeighbor => {
      In := Unit
      Out := Fin 4
      src := fun _ => LaneChan.neighborLine.chan
      dst := fun i => (LaneChan.currAdj i).chan
      kernel := emitterKernel weightDispatch }
  | .dispatchMask => {
      In := Unit
      Out := Fin 4
      src := fun _ => LaneChan.maskLine.chan
      dst := fun i => (LaneChan.currMask i).chan
      kernel := emitterKernel weightDispatch }
  | .unit i => {
      In := MaskIn
      Out := Unit
      src := fun x => ⟨.ine x.sort, match x with
        | .currAdjIn => .currAdj i
        | .lastAdjIn => .lastAdj i⟩
      dst := fun _ => (LaneChan.lastMask i).chan
      kernel := unit i }
  | .mergeMask i => {
      In := MergeMaskIn
      Out := Unit
      src := fun x => ⟨.ine .adjacent, match x with
        | .currMask => .currMask i
        | .lastMask => .lastMask i⟩
      dst := fun _ => (LaneChan.merged i).chan
      kernel := mergeMaskKernel }
  | .mergeWeight => {
      In := Fin 4
      Out := Unit
      src := fun i => (LaneChan.merged i).chan
      dst := fun _ => LaneChan.weightOut.chan
      kernel := mergeWeightKernel }

/-- From the lines of neighbours and masks to the lines of weights. -/
def lanes (unit : Fin 4 → LaneUnit) (depth : Chan LaneChan → ℕ) :
    Network LaneProc LaneChan LaneWord where
  node := laneCall unit
  depth := depth

variable {unit : Fin 4 → LaneUnit} {depth : Chan LaneChan → ℕ}

theorem lanes_pointToPoint : (lanes unit depth).PointToPoint := by
  constructor
  · rintro ⟨p, i⟩ ⟨q, j⟩ h
    cases p <;> cases q
    case unit.unit => cases i <;> cases j <;> cases h <;> rfl
    case mergeMask.mergeMask => cases i <;> cases j <;> cases h <;> rfl
    all_goals first
      | (cases h; rfl)
      | (cases i <;> cases h)
      | (cases j <;> cases h)
      | (cases i <;> cases j <;> cases h)
  · rintro ⟨p, i⟩ ⟨q, j⟩ h
    cases p <;> cases q
    all_goals first
      | (cases h; rfl)
      | (cases i <;> cases h)
      | (cases j <;> cases h)

section Reachable

variable {s : (lanes unit depth).State} (hs : (lanes unit depth).Reachable s)

include hs

/-- A lane gets its items of the lines of neighbours. -/
theorem neighborItems (i : Fin 4) :
    s.written (LaneChan.currAdj i).chan <+:
      (s.taken LaneChan.neighborLine.chan).flatMap (laneItems i) :=
  ⟨_, dispatch_path (hs.path lanes_pointToPoint .dispatchNeighbor) i⟩

/-- A lane gets its items of the lines of masks. -/
theorem maskItems (i : Fin 4) :
    s.written (LaneChan.currMask i).chan <+:
      (s.taken LaneChan.maskLine.chan).flatMap (laneItems i) :=
  ⟨_, dispatch_path (hs.path lanes_pointToPoint .dispatchMask) i⟩

/-- A package of a lane joins a mask with an answer. -/
theorem merged_getElem? {i : Fin 4} {n : ℕ} {pkg : AxiPkg (BitVec 32)}
    (h : (s.written (LaneChan.merged i).chan)[n]? = some pkg) :
    ∃ mask answer, (s.taken (LaneChan.currMask i).chan)[n]? = some mask ∧
      (s.written (LaneChan.lastMask i).chan)[n]? = some answer ∧ pkg = combine mask answer := by
  obtain ⟨paired, hlast, -, hsent⟩ := mergeMask_path (hs.path lanes_pointToPoint (.mergeMask i))
  have hpkg := getElem?_of_isPrefix ⟨_, hsent⟩ h
  obtain ⟨mask, answer, hmask, hanswer, rfl⟩ := List.getElem?_zipWith_eq_some.mp hpkg
  have htaken : paired <+: s.taken (LaneChan.lastMask i).chan := ⟨_, hlast.symm⟩
  exact ⟨mask, answer, hmask,
    getElem?_of_isPrefix (htaken.trans (s.taken_isPrefix _)) hanswer, rfl⟩

/-- The rounds of `merge_weight`. -/
theorem gathered_lines :
    ∃ rounds, Fires (mergeWeightRounds.ins rounds) (mergeWeightRounds.outs rounds)
        ((∀ i, mergeWeightRounds.got (s.regs .mergeWeight) i = []) ∧
          ∀ o, mergeWeightRounds.owes (s.regs .mergeWeight) o = [])
        (fun i => s.taken (LaneChan.merged i).chan) (fun _ => s.written LaneChan.weightOut.chan) ∧
      Grouped4 rounds (rounds.foldl Merge.next mergeStart) (mergeStart.lines rounds) := by
  obtain ⟨rounds, hfires⟩ := hs.fires lanes_pointToPoint .mergeWeight mergeWeightRounds_sound
  refine ⟨rounds, hfires, grouped4 fun pkgs hpkgs => ?_⟩
  have hmem : pkgs 3 ∈ s.written (LaneChan.merged 3).chan :=
    (s.taken_isPrefix _).subset ((hfires.received (3 : Fin 4)).subset (List.mem_map_of_mem hpkgs))
  obtain ⟨n, hn⟩ := List.mem_iff_getElem?.mp hmem
  obtain ⟨mask, answer, -, -, hpkg⟩ := merged_getElem? hs hn
  rw [hpkg]
  rfl

end Reachable

/-- A unit answers its items one by one, so it has never given more answers than it has read
items. -/
def Answers (K : LaneUnit) : Prop :=
  ∀ r R S, K.Path K.start r R S → (S ()).length ≤ (R .currAdjIn).length

/-- `line` is the `j`th line: in every lane `k` it joins the mask with the answer of the unit to
the neighbour in the lanes `k` of the `j`th lines. -/
def Reassembled (s : (lanes unit depth).State) (j : ℕ) (line : WeightItem) : Prop :=
  ∀ k : Fin numOfWeights, ∃ neighbor mask item answer,
    (s.taken LaneChan.neighborLine.chan)[j]? = some neighbor ∧
      (s.taken LaneChan.maskLine.chan)[j]? = some mask ∧
        (s.taken (LaneChan.currAdj (inputOf k)).chan)[4 * j + k.val / 4]? = some item ∧
          (s.written (LaneChan.lastMask (inputOf k)).chan)[4 * j + k.val / 4]? = some answer ∧
            item.data = neighbor.data k ∧
              line k = if mask.data k = 0 then answer.data else mask.data k

/-- The item `n` of a lane is that of line `n / 4`. -/
theorem item_of_line {i : Fin 4} {lines : List (AxiPkg WeightItem)}
    {items : List (AxiPkg (BitVec 32))} (h : items <+: lines.flatMap (laneItems i)) {n : ℕ}
    {item : AxiPkg (BitVec 32)} (hn : items[n]? = some item) :
    ∃ line, lines[n / 4]? = some line ∧
      item = ⟨line.data (laneOf ⟨n % 4, Nat.mod_lt n (by decide)⟩ i),
        decide (n % 4 = 3) && line.last⟩ := by
  have hitem := getElem?_of_isPrefix h hn
  rw [getElem?_laneItems] at hitem
  obtain ⟨line, hline, rfl⟩ := Option.map_eq_some_iff.mp hitem
  refine ⟨line, hline, ?_⟩
  rw [adjPkg]
  congr 1
  by_cases hround : n % 4 = 3
  · have hthree : (⟨n % 4, Nat.mod_lt n (by decide)⟩ : Fin 4) = 3 := Fin.ext hround
    simp [hthree, hround]
  · have hthree : (⟨n % 4, Nat.mod_lt n (by decide)⟩ : Fin 4) ≠ 3 := fun h =>
      hround (congrArg Fin.val h)
    simp [hthree, hround]

/-- Round `k / 4` of a line puts the input `k mod 4` into lane `k`. -/
theorem laneOf_inputOf {j n : ℕ} {k : Fin numOfWeights} (hn : n = 4 * j + k.val / 4) :
    n / 4 = j ∧ laneOf ⟨n % 4, Nat.mod_lt n (by decide)⟩ (inputOf k) = k := by
  have hk : k.val < 16 := k.isLt
  refine ⟨by omega, Fin.ext ?_⟩
  show 4 * (n % 4) + k.val % 4 = k.val
  omega

theorem reassembled {s : (lanes unit depth).State} (hs : (lanes unit depth).Reachable s)
    (hunit : ∀ i, Answers (unit i)) {j : ℕ} {line : WeightItem}
    (hline : (s.written LaneChan.weightOut.chan)[j]? = some line) : Reassembled s j line := by
  intro k
  obtain ⟨rounds, hfires, hgroup⟩ := gathered_lines hs
  have hline' : (mergeStart.lines rounds)[j]? = some line :=
    getElem?_of_isPrefix (hfires.sent ()) hline
  obtain ⟨pkgs, hround, hword⟩ := hgroup.lines j line hline' k
  generalize hn : 4 * j + k.val / 4 = n at hround
  -- the package of the lane joins a mask with an answer
  have hpkg : (rounds.map fun pkgs => pkgs (inputOf k))[n]? = some (pkgs (inputOf k)) := by
    rw [List.getElem?_map, hround]
    rfl
  have htaken := getElem?_of_isPrefix (hfires.received (inputOf k)) hpkg
  obtain ⟨mask, answer, hmask, hanswer, hjoin⟩ :=
    merged_getElem? hs (getElem?_of_isPrefix (s.taken_isPrefix _) htaken)
  obtain ⟨hdiv, hlane⟩ := laneOf_inputOf hn.symm
  -- both come from the lanes `k` of the lines `j`
  obtain ⟨maskLine, hmaskLine, hmaskItem⟩ :=
    item_of_line ((s.taken_isPrefix _).trans (maskItems hs (inputOf k))) hmask
  have hanswered := hunit (inputOf k) _ _ _ (hs.path lanes_pointToPoint (.unit (inputOf k)))
  have hread : n < (s.taken (LaneChan.currAdj (inputOf k)).chan).length :=
    (List.getElem?_eq_some_iff.mp hanswer).1.trans_le hanswered
  have hitem := List.getElem?_eq_getElem hread
  obtain ⟨neighborLine, hneighborLine, hneighborItem⟩ :=
    item_of_line ((s.taken_isPrefix _).trans (neighborItems hs (inputOf k))) hitem
  rw [hdiv] at hmaskLine hneighborLine
  refine ⟨neighborLine, maskLine, _, answer, hneighborLine, hmaskLine, hitem, hanswer, ?_, ?_⟩
  · rw [hneighborItem, hlane]
  · rw [hword, hjoin, hmaskItem, hlane]
    show ((ite (maskLine.data k = 0) answer.data (maskLine.data k)).setWidth 64).setWidth 32 = _
    rw [BitVec.setWidth_setWidth_of_le _ (by decide), BitVec.setWidth_eq]

/-- No mask is under way: it is in no stream, and no process after `weight_dispatch` holds a
package. -/
structure AtRest (s : (lanes unit depth).State) : Prop where
  dispatchMask : s.regs .dispatchMask = ((), [])
  currMask : ∀ i, (s.fifo (LaneChan.currMask i).chan).queue = []
  mergeMask : ∀ i, s.regs (.mergeMask i) = MergeMaskRegs.poll
  merged : ∀ i, (s.fifo (LaneChan.merged i).chan).queue = []
  mergeWeight : ∃ pkgs m, s.regs .mergeWeight = MergeWeightRegs.poll pkgs m

theorem length_laneItems (i : Fin 4) (lines : List (AxiPkg WeightItem)) :
    (lines.flatMap (laneItems i)).length = 4 * lines.length := by
  induction lines with
  | nil => rfl
  | cons line lines ih =>
      rw [List.flatMap_cons, List.length_append, ih, laneItems, List.length_map,
        List.length_finRange, List.length_cons]
      omega

/-- At rest every line of masks has come through. -/
theorem AtRest.length {s : (lanes unit depth).State} (h : AtRest s)
    (hs : (lanes unit depth).Reachable s) :
    (s.written LaneChan.weightOut.chan).length = (s.taken LaneChan.maskLine.chan).length := by
  have hmask : ∀ i, (s.taken (LaneChan.currMask i).chan).length =
      4 * (s.taken LaneChan.maskLine.chan).length := by
    intro i
    have hpath := dispatch_path (hs.path lanes_pointToPoint .dispatchMask) i
    rw [h.dispatchMask] at hpath
    have hpath : s.written (LaneChan.currMask i).chan ++ [] =
      (s.taken LaneChan.maskLine.chan).flatMap (laneItems i) := hpath
    rw [Network.State.taken_eq_written (h.currMask i), ← length_laneItems i, ← hpath,
      List.append_nil]
  have hmerged : ∀ i, (s.taken (LaneChan.merged i).chan).length =
      4 * (s.taken LaneChan.maskLine.chan).length := by
    intro i
    obtain ⟨paired, -, hlength, hsent⟩ := mergeMask_path (hs.path lanes_pointToPoint (.mergeMask i))
    rw [h.mergeMask i] at hsent
    rw [Network.State.taken_eq_written (h.merged i)]
    have hsent : s.written (LaneChan.merged i).chan ++ [] =
      List.zipWith combine (s.taken (LaneChan.currMask i).chan) paired := hsent
    have hlength : paired.length = (s.taken (LaneChan.currMask i).chan).length := hlength
    rw [List.append_nil] at hsent
    rw [hsent, List.length_zipWith, hlength, Nat.min_self, hmask i]
  obtain ⟨rounds, hfires, hgroup⟩ := gathered_lines hs
  obtain ⟨pkgs, m, hregs⟩ := h.mergeWeight
  have hbetween : (∀ i, mergeWeightRounds.got (s.regs .mergeWeight) i = []) ∧
      ∀ o, mergeWeightRounds.owes (s.regs .mergeWeight) o = [] := by
    rw [hregs]
    exact ⟨fun _ => rfl, fun _ => rfl⟩
  have hrounds : rounds.length = 4 * (s.taken LaneChan.maskLine.chan).length := by
    rw [← hmerged 0]
    have hreceived : s.taken (LaneChan.merged 0).chan = rounds.map fun pkgs => pkgs 0 :=
      hfires.received_eq hbetween (0 : Fin 4)
    rw [hreceived, List.length_map]
  have hsent : s.written LaneChan.weightOut.chan = mergeStart.lines rounds :=
    hfires.sent_eq hbetween ()
  rw [hsent, hgroup.length, hrounds]
  omega

/-- For every sequence of lines and every interleaving, and for units that answer their items one
by one: every line that `merge_weight` writes joins, lane by lane, the masks and the answers of
the lines at its position; a unit gets the `last` flag of a line with its last item of that line;
and when no mask is under way, every line has come through. -/
theorem lines_reassembled (unit : Fin 4 → LaneUnit) (hunit : ∀ i, Answers (unit i))
    (depth : Chan LaneChan → ℕ) (s : (lanes unit depth).State)
    (hs : (lanes unit depth).Reachable s) :
    (∀ j line, (s.written LaneChan.weightOut.chan)[j]? = some line → Reassembled s j line) ∧
      (∀ i n item, (s.written (LaneChan.currAdj i).chan)[n]? = some item →
        ∃ line, (s.taken LaneChan.neighborLine.chan)[n / 4]? = some line ∧
          item = ⟨line.data (laneOf ⟨n % 4, Nat.mod_lt n (by decide)⟩ i),
            decide (n % 4 = 3) && line.last⟩) ∧
      (AtRest s →
        (s.written LaneChan.weightOut.chan).length = (s.taken LaneChan.maskLine.chan).length) :=
  ⟨fun _ _ hline => reassembled hs hunit hline,
    fun i _ _ hitem => item_of_line (neighborItems hs i) hitem,
    fun hrest => hrest.length hs⟩

/-! ## `neighbor_mask` as a unit -/

/-- A neighbour that has been read and not been answered. -/
def UpdateState.pending : UpdateState → ℕ
  | .readLastWithCurr => 1
  | .endCurr => 1
  | _ => 0

/-- The items that have been read and are not in an answer that has been written. -/
def MaskRegs.unanswered (r : MaskRegs) : ℕ := r.out.toList.length + r.updateState.pending

theorem comparison_unanswered (r : MaskRegs) : (comparison r).unanswered = 1 := by
  rw [comparison]
  split
  · dsimp only [MaskRegs.unanswered]
    split <;> rfl
  · split <;> rfl

section Handlers

variable {r : MaskRegs}

theorem readCurr_unanswered (h : r.out = none) (pkg : AxiPkg (BitVec 32)) :
    (readCurr r pkg).unanswered = 1 := by
  rw [readCurr]
  split <;> simp [MaskRegs.unanswered, UpdateState.pending, h]

theorem readLastWithCurr_unanswered (pkg : AxiPkg WeightItem) :
    (readLastWithCurr r pkg).unanswered = 1 := by
  rw [readLastWithCurr]
  split
  · rfl
  · exact comparison_unanswered _

theorem readCurrWithLast_unanswered (h : r.out = none) (pkg : AxiPkg (BitVec 32)) :
    (readCurrWithLast r pkg).unanswered = 1 := by
  rw [readCurrWithLast]
  split
  · simp [MaskRegs.unanswered, UpdateState.pending, h]
  · exact comparison_unanswered _

theorem endLast_unanswered (pkg : AxiPkg (BitVec 32)) : (endLast r pkg).unanswered = 1 := by
  dsimp only [MaskRegs.unanswered, endLast]
  split <;> rfl

theorem endCurr_unanswered (h : r.out = none) (hstate : r.updateState = .endCurr)
    (pkg : AxiPkg WeightItem) : (endCurr r pkg).unanswered = 1 := by
  dsimp only [endCurr]
  split
  · rfl
  · simp [MaskRegs.unanswered, UpdateState.pending, h, hstate]

end Handlers

/-- `neighbor_mask` answers its items one by one. -/
theorem neighborMask_answers : Answers neighborMaskKernel := by
  intro r R S hp
  have hcount : (S ()).length + r.unanswered = (R .currAdjIn).length := by
    refine hp.induct (I := fun (r : MaskRegs) R S =>
      (S ()).length + r.unanswered = (R .currAdjIn).length) rfl ?_
    intro r R S h
    have hcurr : ∀ (r' : MaskRegs) pkg, r'.unanswered = 1 →
        (S ()).length = (R .currAdjIn).length → (S ()).length + r'.unanswered =
          (Function.update R .currAdjIn (R .currAdjIn ++ [pkg]) .currAdjIn).length := by
      intro r' pkg hone heq
      rw [Function.update_self, List.length_append, List.length_singleton, hone, heq]
    have hlast : ∀ (r' : MaskRegs) pkg, r'.unanswered = 1 →
        (S ()).length + 1 = (R .currAdjIn).length → (S ()).length + r'.unanswered =
          (Function.update R .lastAdjIn (R .lastAdjIn ++ [pkg]) .currAdjIn).length := by
      intro r' pkg hone heq
      rw [Function.update_of_ne (by decide), hone, heq]
    obtain ⟨updateState, lastAdj, currAdj, finalCurrent, out⟩ := r
    cases out with
    | some pkg =>
        show (Function.update S () (S () ++ [pkg]) ()).length + (0 + updateState.pending) = _
        rw [Function.update_self, List.length_append, ← h]
        exact (Nat.add_assoc _ 1 _).trans (by rw [Nat.zero_add]; rfl)
    | none =>
        cases updateState with
        | readCurr => exact ⟨h, fun pkg => hcurr _ pkg (readCurr_unanswered rfl pkg) h⟩
        | readLastWithCurr => exact ⟨h, fun pkg => hlast _ pkg (readLastWithCurr_unanswered pkg) h⟩
        | endCurr => exact ⟨h, fun pkg => hlast _ pkg (endCurr_unanswered rfl rfl pkg) h⟩
        | readCurrWithLast =>
            exact ⟨h, fun pkg => hcurr _ pkg (readCurrWithLast_unanswered rfl pkg) h⟩
        | endLast => exact ⟨h, fun pkg => hcurr _ pkg (endLast_unanswered pkg) h⟩
  omega

/-- With `neighbor_mask` in every lane: one line of neighbours, one of masks, and one block for each
lane, brought through one process after another. -/
def oneLine : List (lanes (fun _ => neighborMaskKernel) fun _ => 16).Action :=
  [.put LaneChan.neighborLine.chan ⟨fun k => .ofNat 32 (k.val + 1), true⟩,
    .put LaneChan.maskLine.chan ⟨fun k => if k.val = 2 then 9 else 0, true⟩] ++
    (List.finRange 4).map (fun i => .put (LaneChan.lastAdj i).chan ⟨fun _ => 5, true⟩) ++
    List.replicate 17 (.fire .dispatchNeighbor none) ++
    List.replicate 17 (.fire .dispatchMask none) ++
    (List.finRange 4).flatMap (fun i => List.replicate 9 (.fire (.unit i) none)) ++
    (List.finRange 4).flatMap (fun i => List.replicate 12 (.fire (.mergeMask i) none)) ++
    List.replicate 17 (.fire .mergeWeight none)

/-- The mask of lane 2 is kept, and neighbour 5 is found in the block. -/
theorem lines_reassembled_one :
    ∃ s, (lanes (fun _ => neighborMaskKernel) fun _ => 16).Reachable s ∧
      s.written LaneChan.weightOut.chan =
        [fun k => if k.val = 2 then 9 else if k.val = 4 then 2 else 4] ∧
      Reassembled s 0 fun k => if k.val = 2 then 9 else if k.val = 4 then 2 else 4 := by
  have hexec : ((Network.execute (fun _ _ => True) oneLine [] (Network.init _)).map fun x =>
      x.2.written LaneChan.weightOut.chan) =
        some [fun k => if k.val = 2 then 9 else if k.val = 4 then 2 else 4] := by
    decide +kernel
  obtain ⟨⟨tr, s⟩, hs, hout⟩ := Option.map_eq_some_iff.mp hexec
  have hreach : (lanes (fun _ => neighborMaskKernel) fun _ => 16).Reachable s :=
    ⟨tr, (Network.execute_run .nil hs).run⟩
  have hall := lines_reassembled (fun _ => neighborMaskKernel) (fun _ => neighborMask_answers)
    (fun _ => 16) s hreach
  exact ⟨s, hreach, hout, hall.1 0 _ (congrArg (·[0]?) hout)⟩

end RidgeWalker.Node2vec
