import RidgeWalker.Switch.Switches
import RidgeWalker.Urw.Kernels

/-!
# The closed loop of the uniform random walk

The kernels of `kernel.cfg` that a query passes, with the walking pipeline between
`query_merge` and `router_state` as one kernel of free choices.  The surroundings are
`query_loader`, which feeds the first scheduler, and `debug_dump`, which drains the
counters of `router_state`.

Main results:

- Theorem `urwLoop_step`: every step of the network is one move of one token.
- Theorem `urwLoop_run`: every run is an itinerary.
-/

namespace RidgeWalker.Urw

open Dataflow Switch

/-! ## Streams and kernels -/

/-- The streams that carry queries, in the order a query passes them. -/
inductive UrwStream where
  /-- `query_loader_1.output` to `rpa_ws_scheduler_1.in`. -/
  | loaded (k : Fin 8)
  /-- Inside `rpa_ws_scheduler_1`. -/
  | scheduler (x : SchedulerInner)
  /-- `rpa_ws_scheduler_1.out` to `query_merge_1.new`. -/
  | new (k : Fin 8)
  /-- `query_merge_1.out` to `rpa_router_1.in`, where the pipeline starts. -/
  | out (k : Fin 8)
  /-- `cla_out.out_vd`, where the pipeline ends, to `router_state_1.in`. -/
  | routed (k : Fin 8)
  /-- `router_state_1.out` to `rpa_end_ws_scheduler_1.in`. -/
  | seen (k : Fin 8)
  /-- Inside `rpa_end_ws_scheduler_1`. -/
  | endScheduler (x : SchedulerInner)
  /-- `rpa_end_ws_scheduler_1.out` to `query_merge_1.old`. -/
  | old (k : Fin 8)
deriving DecidableEq, Fintype

/-- The streams of the loop; the counters of `router_state` have one each. -/
abbrev UrwChan : UrwSort → Type
  | .query => UrwStream
  | .debug => Fin 8

instance : ∀ s, DecidableEq (UrwChan s)
  | .query => inferInstanceAs (DecidableEq UrwStream)
  | .debug => inferInstanceAs (DecidableEq (Fin 8))

instance : ∀ s, Fintype (UrwChan s)
  | .query => inferInstanceAs (Fintype UrwStream)
  | .debug => inferInstanceAs (Fintype (Fin 8))

/-- The kernels of the loop. -/
inductive UrwProc where
  | wsScheduler (p : SchedulerProc)
  | queryMerge (k : Fin 8)
  | pipeline
  | routerState (k : Fin 8)
  | endWsScheduler (p : SchedulerProc)
deriving DecidableEq, Fintype

/-- A query stream as a stream of the system. -/
abbrev UrwStream.chan (c : UrwStream) : Chan UrwChan := ⟨.query, c⟩

/-- The calls of `rpa_ws_scheduler_1`. -/
def wsScheduler : SchedulerProc → PackageCall UrwChan UrwWord .query :=
  rpaWsScheduler .loaded .new .scheduler

/-- The calls of `rpa_end_ws_scheduler_1`. -/
def endWsScheduler : SchedulerProc → PackageCall UrwChan UrwWord .query :=
  rpaWsScheduler .seen .old .endScheduler

/-- `old_first_merge_instance(old, new, out)`. -/
def oldFirstMergeInstance (old new out : UrwStream) : Call UrwChan UrwWord where
  In := MergeIn
  Out := Unit
  src i := ⟨.query, match i with
    | .old => old
    | .new => new⟩
  dst _ := out.chan
  kernel := oldFirstMergeKernel

/-- `state_instance(in, out, cnt)`. -/
def stateInstance (in_ out : UrwStream) (cnt : Fin 8) : Call UrwChan UrwWord where
  In := Unit
  Out := StateOut
  src _ := in_.chan
  dst o := ⟨o.sort, match o with
    | .out => out
    | .cnt => cnt⟩
  kernel := stateKernel

/-- The part of the loop between `query_merge` and `router_state`. -/
def walkingPipeline (ins outs : Fin 8 → UrwStream) : Call UrwChan UrwWord where
  In := Fin 8
  Out := Fin 8
  src k := (ins k).chan
  dst k := (outs k).chan
  kernel := walkingPipelineKernel

/-- The loop of `kernel.cfg`. -/
def urwLoop (depth : Chan UrwChan → ℕ) : Network UrwProc UrwChan UrwWord where
  node
    | .wsScheduler p => (wsScheduler p).call
    | .queryMerge k => oldFirstMergeInstance (.old k) (.new k) (.out k)
    | .pipeline => walkingPipeline .out .routed
    | .routerState k => stateInstance (.routed k) (.seen k) k
    | .endWsScheduler p => (endWsScheduler p).call
  depth := depth

/-! ## Tokens -/

/-- Between which events of its life a query on a stream is. -/
def UrwStream.phase : UrwStream → Phase
  | loaded _ => .ahead
  | scheduler _ => .ahead
  | new _ => .ahead
  | out _ => .ahead
  | routed _ => .ahead
  | seen _ => .behind
  | endScheduler _ => .behind
  | old _ => .behind

/-- The token of a word on a stream. -/
def token : (c : Chan UrwChan) → UrwWord c.1 → Multiset Token
  | ⟨.query, c⟩, q => q.token c.phase
  | ⟨.debug, _⟩, _ => 0

variable {depth : Chan UrwChan → ℕ}

/-- The tokens in the registers of a kernel. -/
def held : (p : UrwProc) → ((urwLoop depth).node p).kernel.σ → Multiset Token
  | .wsScheduler p => (wsScheduler p).held (Query.token .ahead)
  | .queryMerge _ => OldFirstMergeRegs.held
  | .pipeline => BagRegs.held (Query.token .ahead)
  | .routerState _ => StateRegs.held
  | .endWsScheduler p => (endWsScheduler p).held (Query.token .behind)

theorem held_start (p : UrwProc) :
    held p ((urwLoop depth).node p).kernel.start = 0 := by
  cases p with
  | wsScheduler p => exact PackageCall.held_start _ _
  | queryMerge k => rfl
  | pipeline => rfl
  | routerState k => rfl
  | endWsScheduler p => exact PackageCall.held_start _ _

/-- The tokens of the queries in the loop. -/
def tokens (s : (urwLoop depth).State) : Multiset Token := Network.total token held s

/-! ## Every operation balances -/

/-- The tokens that a word read by a kernel turns into. -/
def gain : (p : UrwProc) → (i : ((urwLoop depth).node p).In) →
    UrwWord (((urwLoop depth).node p).src i).1 → Multiset Token
  | .queryMerge _ => mergeGain
  | .routerState _ => fun _ => Query.token .behind
  | p => fun i => token (((urwLoop depth).node p).src i)

theorem wsScheduler_streams {p : SchedulerProc} {c : UrwStream}
    (h : c ∈ (wsScheduler p).ins ∨ c ∈ (wsScheduler p).outs) : c.phase = .ahead := by
  have hmem : (∃ k, .loaded k = c) ∨ (∃ k, .new k = c) ∨ ∃ x, .scheduler x = c := by
    rcases h with h | h
    · exact (rpaWsScheduler_wired.mem_reads.mp ⟨p, h⟩).imp_right .inr
    · exact .inr (rpaWsScheduler_wired.mem_writes.mp ⟨p, h⟩)
  rcases hmem with ⟨k, rfl⟩ | ⟨k, rfl⟩ | ⟨x, rfl⟩ <;> rfl

theorem endWsScheduler_streams {p : SchedulerProc} {c : UrwStream}
    (h : c ∈ (endWsScheduler p).ins ∨ c ∈ (endWsScheduler p).outs) : c.phase = .behind := by
  have hmem : (∃ k, .seen k = c) ∨ (∃ k, .old k = c) ∨ ∃ x, .endScheduler x = c := by
    rcases h with h | h
    · exact (rpaWsScheduler_wired.mem_reads.mp ⟨p, h⟩).imp_right .inr
    · exact .inr (rpaWsScheduler_wired.mem_writes.mp ⟨p, h⟩)
  rcases hmem with ⟨k, rfl⟩ | ⟨k, rfl⟩ | ⟨x, rfl⟩ <;> rfl

theorem token_of_phase {c : UrwStream} {ph : Phase} (h : c.phase = ph) :
    token c.chan = Query.token ph := by
  funext q
  rw [← h]
  rfl

/-- Every operation of every kernel balances, with what its input gains. -/
theorem urwLoop_balanced (p : UrwProc) :
    ((urwLoop depth).node p).kernel.Balanced (gain p)
      (fun o => token (((urwLoop depth).node p).dst o)) (held p) := by
  cases p with
  | wsScheduler p =>
      have hp := (wsScheduler p).balanced token
        (fun c hc => token_of_phase (wsScheduler_streams (.inl hc)))
        (fun c hc => token_of_phase (wsScheduler_streams (.inr hc)))
        (rpaWsScheduler_routes _ _ _ p)
      exact hp
  | queryMerge k => exact oldFirstMergeKernel_balanced
  | pipeline => exact walkingPipelineKernel_balanced
  | routerState k =>
      have hout : (fun o => token ((stateInstance (.routed k) (.seen k) k).dst o)) =
          stateOutToken := by
        funext o
        cases o <;> rfl
      have hk := stateKernel_balanced
      rw [← hout] at hk
      exact hk
  | endWsScheduler p =>
      have hp := (endWsScheduler p).balanced token
        (fun c hc => token_of_phase (endWsScheduler_streams (.inl hc)))
        (fun c hc => token_of_phase (endWsScheduler_streams (.inr hc)))
        (rpaWsScheduler_routes _ _ _ p)
      exact hp

/-! ## Every step is a move -/

/-- What can be seen of a query when a kernel reads it. -/
def readObs : (p : UrwProc) → (i : ((urwLoop depth).node p).In) →
    UrwWord (((urwLoop depth).node p).src i).1 → Option Obs
  | .routerState _, _, q => some (.visited q.tag q.len)
  | .queryMerge _, .old, q => if q.len = 0 then some (.retired q.tag) else none
  | _, _, _ => none

/-- What can be seen of a query in a step. -/
def obs : (urwLoop depth).Label → Option Obs
  | .fire p _ (.read i q) => readObs p i q
  | .put ⟨.query, _⟩ q => some (.injected q.tag q.len)
  | _ => none

/-- Two bags that differ in one token. -/
theorem exchange_singleton {A A' : Multiset Token} {a b : Token} (hab : a ≠ b)
    (h : A' + {a} = A + {b}) : ∃ B, A = B + {a} ∧ A' = B + {b} := by
  have hmem : a ∈ A := by
    have ha : a ∈ A + {b} := h ▸ by simp
    simpa [hab] using ha
  obtain ⟨B, rfl⟩ := Multiset.exists_cons_of_mem hmem
  refine ⟨B, by rw [← Multiset.singleton_add, add_comm], ?_⟩
  rw [← Multiset.singleton_add, add_assoc, add_comm A'] at h
  exact add_left_cancel h

/-- A reader of a scheduler is a reader of the loop. -/
theorem scheduler_port {p : UrwProc} {k : PackageCall UrwChan UrwWord .query}
    (hk : (urwLoop depth).node p = k.call) {c : UrwStream} :
    (c ∈ k.ins → ∃ i, ((urwLoop depth).node p).src i = c.chan) ∧
      (c ∈ k.outs → ∃ o, ((urwLoop depth).node p).dst o = c.chan) := by
  rw [hk]
  exact ⟨PackageCall.mem_ins.mp, PackageCall.mem_outs.mp⟩

/-- Every query stream has a reader in the loop. -/
theorem exists_reader (c : UrwStream) :
    ∃ p i, ((urwLoop depth).node p).src i = c.chan := by
  have hws : ∀ {c}, (∃ p, c ∈ (wsScheduler p).ins) →
      ∃ p i, ((urwLoop depth).node p).src i = c.chan :=
    fun ⟨p, h⟩ => ⟨.wsScheduler p, (scheduler_port rfl).1 h⟩
  have hend : ∀ {c}, (∃ p, c ∈ (endWsScheduler p).ins) →
      ∃ p i, ((urwLoop depth).node p).src i = c.chan :=
    fun ⟨p, h⟩ => ⟨.endWsScheduler p, (scheduler_port rfl).1 h⟩
  cases c with
  | loaded k => exact hws (rpaWsScheduler_wired.mem_reads.mpr (.inl ⟨k, rfl⟩))
  | scheduler x => exact hws (rpaWsScheduler_wired.mem_reads.mpr (.inr ⟨x, rfl⟩))
  | new k => exact ⟨.queryMerge k, MergeIn.new, rfl⟩
  | out k => exact ⟨.pipeline, k, rfl⟩
  | routed k => exact ⟨.routerState k, (), rfl⟩
  | seen k => exact hend (rpaWsScheduler_wired.mem_reads.mpr (.inl ⟨k, rfl⟩))
  | endScheduler x => exact hend (rpaWsScheduler_wired.mem_reads.mpr (.inr ⟨x, rfl⟩))
  | old k => exact ⟨.queryMerge k, MergeIn.old, rfl⟩

/-- Every query stream but those of `query_loader` has a writer in the loop. -/
theorem exists_writer {c : UrwStream} (hc : ∀ k, c ≠ .loaded k) :
    ∃ p o, ((urwLoop depth).node p).dst o = c.chan := by
  have hws : ∀ {c}, (∃ p, c ∈ (wsScheduler p).outs) →
      ∃ p o, ((urwLoop depth).node p).dst o = c.chan :=
    fun ⟨p, h⟩ => ⟨.wsScheduler p, (scheduler_port rfl).2 h⟩
  have hend : ∀ {c}, (∃ p, c ∈ (endWsScheduler p).outs) →
      ∃ p o, ((urwLoop depth).node p).dst o = c.chan :=
    fun ⟨p, h⟩ => ⟨.endWsScheduler p, (scheduler_port rfl).2 h⟩
  cases c with
  | loaded k => exact absurd rfl (hc k)
  | scheduler x => exact hws (rpaWsScheduler_wired.mem_writes.mpr (.inr ⟨x, rfl⟩))
  | new k => exact hws (rpaWsScheduler_wired.mem_writes.mpr (.inl ⟨k, rfl⟩))
  | out k => exact ⟨.queryMerge k, (), rfl⟩
  | routed k => exact ⟨.pipeline, k, rfl⟩
  | seen k => exact ⟨.routerState k, StateOut.out, rfl⟩
  | endScheduler x => exact hend (rpaWsScheduler_wired.mem_writes.mpr (.inr ⟨x, rfl⟩))
  | old k => exact hend (rpaWsScheduler_wired.mem_writes.mpr (.inl ⟨k, rfl⟩))

/-- An old query is retired or sent round again. -/
theorem old_moves {A A' : Multiset Token} {q : Query}
    (h : A' + q.token .behind = A + mergeGain .old q) :
    Moves A (if q.len = 0 then some (.retired q.tag) else none) A' := by
  by_cases h0 : q.len = 0
  · rw [mergeGain, if_pos h0, add_zero, Query.token, h0] at h
    rw [if_pos h0, ← h]
    exact .retire A' q.tag
  · obtain ⟨n, hn⟩ := Nat.exists_eq_succ_of_ne_zero h0
    have hup : q.updated.len = n := by rw [Query.updated_len h0, hn]; rfl
    have htag : q.updated.tag = q.tag := rfl
    rw [mergeGain, if_neg h0, Query.token, Query.token, hup, hn, htag] at h
    rw [if_neg h0]
    obtain ⟨B, rfl, rfl⟩ := exchange_singleton (by simp) h
    exact .spend B q.tag n

/-- The tokens before and after a kernel read a query. -/
theorem read_moves {s s' : (urwLoop depth).State} {p : UrwProc} {r}
    {i : ((urwLoop depth).node p).In} {q : UrwWord (((urwLoop depth).node p).src i).1}
    (hs : (urwLoop depth).Step s (.fire p r (.read i q)) s') :
    Moves (tokens s) (readObs p i q) (tokens s') := by
  have hx : tokens s' + token (((urwLoop depth).node p).src i) q = tokens s + gain p i q :=
    hs.exchange (urwLoop_balanced p)
  cases p with
  | wsScheduler p =>
      rw [show tokens s' = tokens s from add_right_cancel hx]
      exact .rest _
  | queryMerge k =>
      cases i with
      | new =>
          rw [show tokens s' = tokens s from add_right_cancel hx]
          exact .rest _
      | old => exact old_moves hx
  | pipeline =>
      rw [show tokens s' = tokens s from add_right_cancel hx]
      exact .rest _
  | routerState k =>
      obtain ⟨B, hB, hB'⟩ := exchange_singleton (by simp [UrwStream.phase]) hx
      rw [hB, hB']
      exact .visit B q.tag q.len
  | endWsScheduler p =>
      rw [show tokens s' = tokens s from add_right_cancel hx]
      exact .rest _

/-- Every step of the network is one move of one token. -/
theorem urwLoop_step {s s' : (urwLoop depth).State} {l : (urwLoop depth).Label}
    (hs : (urwLoop depth).Step s l s') : Moves (tokens s) (obs l) (tokens s') := by
  cases l with
  | fire p r e =>
      cases e with
      | read i q => exact read_moves hs
      | _ =>
          have hx := hs.exchange (urwLoop_balanced p)
          rw [show tokens s' = tokens s from add_right_cancel hx]
          exact .rest _
  | put c a =>
      cases hs with
      | put hw hd =>
          have htot : tokens { s with fifo := Function.update s.fifo c ((s.fifo c).push a) } =
              tokens s + token c a := by
            simp only [tokens, Network.total, Network.queued_push]
            rw [add_right_comm]
          rw [htot]
          rcases c with ⟨_ | _, c⟩
          · by_cases hc : ∃ k, c = .loaded k
            · obtain ⟨k, rfl⟩ := hc
              exact .inject _ a.tag a.len
            · obtain ⟨p, o, ho⟩ := @exists_writer depth c fun k hk => hc ⟨k, hk⟩
              exact absurd ho (hw p o)
          · exact absurd rfl (hw (.routerState c) StateOut.cnt)
  | take c a =>
      cases hs with
      | take hr hq =>
          have htot : tokens { s with fifo := Function.update s.fifo c (s.fifo c).pop } + token c a =
              tokens s := by
            simp only [tokens, Network.total]
            rw [add_right_comm, Network.queued_pop token hq]
          rcases c with ⟨_ | _, c⟩
          · obtain ⟨p, i, hi⟩ := @exists_reader depth c
            exact absurd hi (hr p i)
          · rw [show tokens _ = tokens s from (add_zero _).symm.trans htot]
            exact .rest _

/-- Every run is an itinerary of the queries in the loop. -/
theorem urwLoop_run {tr : List (urwLoop depth).Label} {s : (urwLoop depth).State}
    (hr : (urwLoop depth).Run (urwLoop depth).init tr s) :
    Itinerary (tr.filterMap obs) (tokens s) := by
  induction hr with
  | nil =>
      have hinit : tokens (urwLoop depth).init = 0 := Network.total_init _ held_start
      rw [hinit]
      exact .start
  | @snoc tr s l s' _ hs ih =>
      have hobs : (tr ++ [l]).filterMap obs = tr.filterMap obs ++ (obs l).toList := by
        rw [List.filterMap_append]
        cases h : obs l <;> simp [h]
      rw [hobs]
      exact ih.move (urwLoop_step hs)

end RidgeWalker.Urw
