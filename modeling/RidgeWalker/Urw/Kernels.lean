import RidgeWalker.Dataflow.Pipelines
import RidgeWalker.Urw.Itinerary

/-!
# Kernels of the uniform random walk loop

The kernels that decide about a query: `old_first_merge_instance` retires it or sends it
round again, `state_instance` counts it.  The walking pipeline between them is any kernel
that delivers each query once, on some lane, with its length field unchanged.

Main results:

- Theorems `oldFirstMergeKernel_local`, `stateKernel_local` and
  `walkingPipelineKernel_balanced`: what every operation does to the tokens of the
  queries in the registers.
-/

namespace RidgeWalker.Urw

open Dataflow

/-! ## Queries -/

/-- `lquery_state_item_t`: previous vertex, query number, remaining length. -/
structure QueryState where
  pv : BitVec 40
  qid : BitVec 14
  len : BitVec 10
deriving DecidableEq

/-- `rpa_task_pkg_t`. -/
structure RpaTaskPkg where
  vid : BitVec 40
  qs : QueryState
  last : Bool
deriving DecidableEq

/-- A package and the number of the injected query it belongs to, which no kernel looks
at. -/
structure Query where
  tag : ℕ
  pkg : RpaTaskPkg
deriving DecidableEq

namespace Query

/-- The length field. -/
def len (q : Query) : ℕ := q.pkg.qs.len.toNat

/-- `updated_pkg` of `old_first_merge_instance`: one step less, `last` cleared. -/
def updated (q : Query) : Query :=
  { q with pkg :=
      { vid := q.pkg.vid
        qs := { q.pkg.qs with len := q.pkg.qs.len - 1 }
        last := false } }

/-- The query as the walking pipeline may deliver it: the length field is unchanged. -/
def moved (q : Query) (vid pv : BitVec 40) (qid : BitVec 14) (last : Bool) : Query :=
  { q with pkg := { vid := vid, qs := { pv := pv, qid := qid, len := q.pkg.qs.len }, last := last } }

/-- The token of a query. -/
def token (ph : Phase) (q : Query) : Multiset Token := {⟨q.tag, ph, q.len⟩}

@[simp] theorem token_moved (ph : Phase) (q : Query) (vid pv : BitVec 40) (qid : BitVec 14)
    (last : Bool) : (q.moved vid pv qid last).token ph = q.token ph := rfl

theorem updated_len {q : Query} (h : q.len ≠ 0) : q.updated.len = q.len - 1 := by
  have hone : 1#10 ≤ q.pkg.qs.len := by
    rw [BitVec.le_def]
    exact Nat.pos_of_ne_zero h
  exact BitVec.toNat_sub_of_le hone

end Query

/-! ## `old_first_merge_instance` -/

/-- `AHEAD_COUNTER`. -/
def aheadCounter : ℕ := 7168

/-- `OLD_QUERY_TIMEOUT`. -/
def oldQueryTimeout : ℕ := 4096 - 1

/-- The input streams of `old_first_merge_instance`. -/
inductive MergeIn where
  | old
  | new
deriving DecidableEq

instance : Fintype MergeIn := ⟨{.old, .new}, fun x => by cases x <;> decide⟩

/-- Registers of `old_first_merge_instance`: `counter` and `timeout`, and the package on
its way from a read to a write. -/
inductive OldFirstMergeRegs where
  | poll (counter timeout : ℕ)
  | pollNew (counter timeout : ℕ)
  | emitOld (counter : ℕ) (updated : Query)
  | emitNew (counter timeout : ℕ) (pkg : Query)

/-- The end of an iteration that found no old query. -/
def idleTimeout (counter timeout : ℕ) : OldFirstMergeRegs :=
  if timeout < oldQueryTimeout then .poll counter (timeout + 1) else .poll aheadCounter 0

/-- The credit that a query of length zero gives back. -/
def giveBack (counter : ℕ) : ℕ := if counter < aheadCounter then counter + 1 else counter

/-- The loop of `old_first_merge_instance`. -/
def oldFirstMergeKernel : Kernel (fun _ : MergeIn => Query) (fun _ : Unit => Query) where
  σ := OldFirstMergeRegs
  Ω := Empty
  start := .poll aheadCounter 0
  op
    | .poll counter timeout => .readNb .old fun
        | some pkg =>
            if pkg.len = 0 then .poll (giveBack counter) 0 else .emitOld counter pkg.updated
        | none => if counter ≠ 0 then .pollNew counter timeout else idleTimeout counter timeout
    | .pollNew counter timeout => .readNb .new fun
        | some pkg => .emitNew counter timeout pkg
        | none => idleTimeout counter timeout
    | .emitOld counter updated => .write () updated (.poll counter 0)
    | .emitNew counter timeout pkg => .write () pkg (idleTimeout (counter - 1) timeout)

/-- The tokens in the registers. -/
def OldFirstMergeRegs.held : OldFirstMergeRegs → Multiset Token
  | .emitOld _ updated => updated.token .ahead
  | .emitNew _ _ pkg => pkg.token .ahead
  | _ => 0

@[simp] theorem idleTimeout_held (counter timeout : ℕ) : (idleTimeout counter timeout).held = 0 := by
  unfold idleTimeout
  split <;> rfl

/-- What an event of `old_first_merge_instance` brings in: an old query with steps left
comes in as the updated one, and one without does not come in. -/
def mergeGain (i : MergeIn) (q : Query) : Multiset Token :=
  match i with
  | .old => if q.len = 0 then 0 else q.updated.token .ahead
  | .new => q.token .ahead

/-- No operation loses or repeats a query, but for those it retires. -/
theorem oldFirstMergeKernel_balanced :
    oldFirstMergeKernel.Balanced mergeGain (fun _ => Query.token .ahead)
      OldFirstMergeRegs.held := by
  intro r
  cases r with
  | poll counter timeout =>
      refine ⟨?_, fun q => ?_⟩
      · show OldFirstMergeRegs.held (if counter ≠ 0 then _ else _) = 0
        split
        · rfl
        · exact idleTimeout_held counter timeout
      · by_cases hq : q.len = 0 <;> simp [hq, OldFirstMergeRegs.held, mergeGain]
  | pollNew counter timeout =>
      exact ⟨idleTimeout_held counter timeout, fun q => (zero_add _).symm⟩
  | emitOld counter updated => exact zero_add _
  | emitNew counter timeout pkg =>
      show (idleTimeout _ _).held + pkg.token .ahead = pkg.token .ahead
      rw [idleTimeout_held, zero_add]

/-! ## `state_instance` -/

/-- The two kinds of streams of the loop. -/
inductive UrwSort where
  | query
  | debug
deriving DecidableEq

instance : Fintype UrwSort := ⟨{.query, .debug}, fun x => by cases x <;> decide⟩

/-- The words of a stream; `debug_msg_item_t` is 64 bits wide. -/
abbrev UrwWord : UrwSort → Type
  | .query => Query
  | .debug => BitVec 64

/-- The output streams of `state_instance`. -/
inductive StateOut where
  | out
  | cnt
deriving DecidableEq

instance : Fintype StateOut := ⟨{.out, .cnt}, fun x => by cases x <;> decide⟩

/-- The kind of an output of `state_instance`. -/
abbrev StateOut.sort : StateOut → UrwSort
  | out => .query
  | cnt => .debug

/-- Registers of `state_instance`. -/
inductive StateRegs where
  | poll (counter : BitVec 64)
  | emit (counter : BitVec 64) (pkg : Query)
  | report (counter : BitVec 64)

/-- The loop of `state_instance`. -/
def stateKernel : Kernel (fun _ : Unit => Query) (fun o : StateOut => UrwWord o.sort) where
  σ := StateRegs
  Ω := Empty
  start := .poll 0
  op
    | .poll counter => .readNb () fun
        | some pkg => .emit (counter + 1) pkg
        | none => .report counter
    | .emit counter pkg => .write .out pkg (.report counter)
    | .report counter => .writeNb .cnt counter fun _ => .poll counter

/-- The tokens in the registers. -/
def StateRegs.held : StateRegs → Multiset Token
  | .emit _ pkg => pkg.token .behind
  | _ => 0

/-- The tokens of a word that `state_instance` writes. -/
def stateOutToken : (o : StateOut) → UrwWord o.sort → Multiset Token
  | .out, q => q.token .behind
  | .cnt, _ => 0

/-- Every query that comes in leaves behind its count. -/
theorem stateKernel_balanced :
    stateKernel.Balanced (fun _ => Query.token .behind) stateOutToken StateRegs.held := by
  intro r
  cases r with
  | poll counter => exact ⟨rfl, fun q => (zero_add _).symm⟩
  | emit counter pkg => exact zero_add _
  | report counter => exact ⟨rfl, rfl⟩

/-! ## The walking pipeline -/

/-- New values for all fields but the length. -/
structure Hop where
  vid : BitVec 40
  pv : BitVec 40
  qid : BitVec 14
  last : Bool

/-- Any kernel that delivers each query once with its length field unchanged: every delay,
order and choice of lanes is one of its behaviours. -/
def walkingPipelineKernel : Kernel (fun _ : Fin 8 => Query) (fun _ : Fin 8 => Query) :=
  bagKernel (Fin 8) (Fin 8) fun (h : Hop) q => q.moved h.vid h.pv h.qid h.last

/-- The pipeline neither loses nor repeats a query. -/
theorem walkingPipelineKernel_balanced :
    walkingPipelineKernel.Balanced (fun _ => Query.token .ahead) (fun _ => Query.token .ahead)
      (BagRegs.held (Query.token .ahead)) :=
  bagKernel_balanced fun _ _ => rfl

end RidgeWalker.Urw
