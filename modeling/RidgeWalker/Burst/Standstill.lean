import RidgeWalker.Burst.Reorder
import RidgeWalker.Dataflow.Stillness

/-!
# The lines at a standstill

The two mergers wait for one side while the other may be full, and they are filled from the same
scheduler.  Still the network cannot lock up: what a merger waits for is the next line of its
order, and nothing holds that line back.

Main results:

- Theorem `intra_complete`: at a standstill all lines of the commands have left `intra_merge`, if
  there is room behind it.
- Theorem `burst_reorder_complete`: at a standstill all lines of the descriptors have left
  `inter_merge`, if there is room behind it.
-/

namespace RidgeWalker.Burst.Reorder

open Bits Dataflow Network Memory Cache Wrs

/-! ## Weights come before their tokens -/

/-- A burst process at a weight has sent as many tokens as weights. -/
structure Paired (q : List UnitSend) : Prop where
  le : (sentTo UnitOut.weightOutput q).length ≤ (sentTo UnitOut.burstSync q).length
  eq : ∀ b rest, q = ⟨.weightOutput, b⟩ :: rest →
    (sentTo UnitOut.weightOutput q).length = (sentTo UnitOut.burstSync q).length

theorem paired_nil : Paired [] := ⟨le_rfl, fun _ _ h => nomatch h⟩

theorem paired_done : Paired [⟨.done, ()⟩] := by
  refine ⟨le_rfl, fun _ _ h => ?_⟩
  cases h

/-- What is left of pairs of weights and tokens. -/
theorem paired_of_suffix (f : ℕ → DyWord .weight) (g : ℕ → DyWord .sync) (J : List ℕ)
    {q : List UnitSend}
    (hq : q <:+ J.flatMap fun j => [⟨.weightOutput, f j⟩, ⟨.burstSync, g j⟩]) : Paired q := by
  induction J with
  | nil =>
      rw [List.flatMap_nil, List.suffix_nil] at hq
      rw [hq]
      exact paired_nil
  | cons j J ih =>
      obtain ⟨hsync, hweight⟩ := sentTo_pairs f g J
      rw [List.flatMap_cons, List.cons_append, List.suffix_cons_iff] at hq
      rcases hq with rfl | hq
      · have heq : (sentTo UnitOut.weightOutput
              (⟨.weightOutput, f j⟩ :: ([⟨.burstSync, g j⟩] ++ J.flatMap fun j =>
                [(⟨.weightOutput, f j⟩ : UnitSend), ⟨.burstSync, g j⟩]))).length =
            (sentTo UnitOut.burstSync
              (⟨.weightOutput, f j⟩ :: ([⟨.burstSync, g j⟩] ++ J.flatMap fun j =>
                [(⟨.weightOutput, f j⟩ : UnitSend), ⟨.burstSync, g j⟩]))).length := by
          rw [List.singleton_append, sentTo_self, sentTo_of_ne (by decide), hweight,
            sentTo_of_ne (by decide), sentTo_self, hsync]
          simp
        exact ⟨heq.le, fun _ _ _ => heq⟩
      · rw [List.singleton_append, List.suffix_cons_iff] at hq
        rcases hq with rfl | hq
        · refine ⟨?_, fun _ _ h => by cases h⟩
          rw [sentTo_of_ne (by decide), hweight, sentTo_self, hsync]
          simp
        · exact ih hq

/-- What a burst process has still to send for a command. -/
theorem paired_of_burstSends {mem : ℕ → BitVec 32} (token : BurstCmd → ℕ → BurstSync) (n : ℕ)
    {pkg : AxiPkg BurstCmd} {q : List UnitSend} (hq : q <:+ burstSends mem token n pkg) :
    Paired q := by
  rw [burstSends] at hq
  split at hq
  · rw [List.suffix_cons_iff, List.suffix_nil] at hq
    rcases hq with rfl | rfl
    · exact paired_done
    · exact paired_nil
  · exact paired_of_suffix _ _ _ hq

/-- What a burst process has sent and has still to send. -/
theorem unit_paired {mem : ℕ → BitVec 32} (c : CmdStream) {r : (c.process mem).σ × List UnitSend}
    {R : Unit → List (AxiPkg BurstCmd)} {S : ∀ o : UnitOut, List (DyWord o.sort)}
    (hp : (emitterKernel (c.process mem)).Path (emitterKernel (c.process mem)).start r R S) :
    (S .weightOutput).length + (sentTo UnitOut.weightOutput r.2).length =
        (S .burstSync).length + (sentTo UnitOut.burstSync r.2).length ∧ Paired r.2 := by
  obtain ⟨hsync, hweight⟩ := c.process_sent mem (R ())
  have hsyncs := congrArg List.length ((emitter_path _ hp .burstSync).trans hsync)
  have hweights := congrArg List.length ((emitter_path _ hp .weightOutput).trans hweight)
  rw [List.length_append, List.length_map] at hsyncs hweights
  refine ⟨hweights.trans hsyncs.symm, ?_⟩
  rcases emitter_pending _ hp with hnil | ⟨x, pkg, hsuffix⟩
  · rw [hnil]
    exact paired_nil
  · cases c with
    | burst1 => exact paired_of_burstSends (BurstCmd.dynamicSync · 1) 1 hsuffix
    | burst32 =>
        exact paired_of_burstSends (BurstCmd.dynamicSync · dynamicBurstMaxLength)
          dynamicBurstMaxLength hsuffix
    | single => exact paired_of_burstSends BurstCmd.singleSync 1 hsuffix

/-! ## The descriptor in hand -/

/-- The words that `vd_scheduler` has read last belong to the descriptor in hand. -/
def LastRead (r : SchedulerRegs) (R : ∀ i : SchedulerIn, List (BurstWord i.sort)) : Prop :=
  match r with
  | .readState pkg => (R .input).getLast? = some pkg
  | .readId pkg state => (R .input).getLast? = some pkg ∧ (R .stateIn).getLast? = some state
  | .readBurstId pkg state id => (R .input).getLast? = some pkg ∧
      (R .stateIn).getLast? = some state ∧ (R .syncId).getLast? = some id
  | .send d => (R .input).getLast? = some d.pkg ∧ (R .stateIn).getLast? = some d.updatedState ∧
      (R .syncId).getLast? = some d.id ∧
        (d.isEmpty = false → (R .syncBurstId).getLast? = some d.burstId)
  | _ => True

theorem lastRead_after {d : Dispatch} {R : ∀ i : SchedulerIn, List (BurstWord i.sort)} :
    LastRead d.after R := by
  unfold Dispatch.after
  split <;> trivial

/-- The words that `vd_scheduler` has read last belong to the descriptor in hand. -/
theorem lastRead_path {maxLength : ℕ} {r : SchedulerRegs}
    {R : ∀ i : SchedulerIn, List (BurstWord i.sort)}
    {S : ∀ o : SchedulerOut, List (BurstWord o.sort)}
    (hp : (vdSchedulerKernel maxLength).Path (vdSchedulerKernel maxLength).start r R S) :
    LastRead r R := by
  refine hp.induct (I := fun (r : SchedulerRegs) R _ => LastRead r R) trivial ?_
  intro r R S h
  cases r with
  | poll => exact ⟨trivial, fun pkg => by simp [LastRead]⟩
  | readState pkg => exact fun state => by simpa [LastRead] using h
  | readId pkg state =>
      intro id
      obtain ⟨hpkg, hstate⟩ := h
      dsimp only
      split
      · rename_i hsize
        simp [LastRead, hpkg, hstate, Dispatch.isEmpty, hsize]
      · simp [LastRead, hpkg, hstate]
  | readBurstId pkg state id =>
      intro burstId
      obtain ⟨hpkg, hstate, hid⟩ := h
      simp [LastRead, hpkg, hstate, hid]
  | send d =>
      obtain ⟨o, b, hop, -, -⟩ := send_eq maxLength d
      rw [hop]
      exact lastRead_after
  | stopSingle => trivial
  | stopDynamic => trivial

/-- What is sent for a descriptor depends on the words that were read for it. -/
theorem sends_congr {d e : Dispatch} (hpkg : e.pkg = d.pkg)
    (hstate : e.updatedState = d.updatedState) (hid : e.id = d.id)
    (hburst : d.isEmpty = false → e.burstId = d.burstId) (o : SchedulerOut) :
    e.sends o = d.sends o := by
  obtain ⟨pkg, state, id, b⟩ := d
  obtain ⟨pkg', state', id', b'⟩ := e
  subst hpkg hstate hid
  by_cases hsize : pkg'.data.size = 0
  · cases o <;> simp [Dispatch.sends, Dispatch.isEmpty, hsize, Dispatch.updatePkg]
  · have hb : b' = b := hburst (decide_eq_false hsize)
    rw [hb]

/-- The lines of `ds` and of no other descriptors have been sent for. -/
structure SentFor (ds : List Dispatch) (S : ∀ o : SchedulerOut, List (BurstWord o.sort)) : Prop where
  single : (S .singleBurst).filter (fun pkg => !pkg.data.stops) =
    ((asking ds).filter fun d => d.side = 0).map Dispatch.singleCmd
  ordered : (S .dynamicBurstVd).filter (fun pkg => pkg.data.counts) =
    ((asking ds).filter fun d => d.side = 1).map Dispatch.orderedPkg

/-- All descriptors that `vd_scheduler` has received with their states have been sent for. -/
def Between : SchedulerRegs → Prop
  | .poll | .readState _ | .stopSingle | .stopDynamic => True
  | _ => False

section Scheduler

variable {maxLength : ℕ} {r : SchedulerRegs} {R : ∀ i : SchedulerIn, List (BurstWord i.sort)}
  {S : ∀ o : SchedulerOut, List (BurstWord o.sort)}

variable (maxLength) in
theorem sentFor_of_eq {ds : List Dispatch} (hids : ∀ d ∈ ds, ∃ i, d.id = syncIds.num i)
    (hsingle : (S .singleBurst).filter (fun pkg => !pkg.data.stops) =
      (dispatched maxLength ds .singleBurst).filter fun pkg => !pkg.data.stops)
    (hordered : (S .dynamicBurstVd).filter (fun pkg => pkg.data.counts) =
      (dispatched maxLength ds .dynamicBurstVd).filter fun pkg => pkg.data.counts) :
    SentFor ds S :=
  ⟨hsingle.trans (dispatched_single hids), hordered.trans (dispatched_ordered hids)⟩

/-- A descriptor in hand waits for its state. -/
theorem scheduler_lengths
    (hp : (vdSchedulerKernel maxLength).Path (vdSchedulerKernel maxLength).start r R S) :
    (r = .poll → (R .input).length = (R .stateIn).length) ∧
      ∀ pkg, r = .readState pkg → (R .input).length = (R .stateIn).length + 1 := by
  obtain ⟨rounds, -, hreceived, -⟩ := Rounds.history (vdSchedulerRounds_sound maxLength) hp
  rw [hreceived .input, hreceived .stateIn]
  refine ⟨fun h => ?_, fun pkg h => ?_⟩
  · subst h
    simp [vdSchedulerRounds]
  · subst h
    simp [vdSchedulerRounds]

/-- `vd_scheduler` has sent for the first descriptors, and for all of them when it has none in
hand. -/
theorem scheduler_sentFor
    (hp : (vdSchedulerKernel maxLength).Path (vdSchedulerKernel maxLength).start r R S)
    (hids : ∀ ids, ids <+: R .syncId → ids = (List.range' 0 ids.length).map syncIds.num)
    (hbursts : ∀ ids, ids <+: R .syncBurstId → ids = (List.range' 0 ids.length).map syncIds.num) :
    ∃ ds, ds <+: dispatches 0 0 (R .input) (R .stateIn) ∧ SentFor ds S ∧
      (Between r → ds = dispatches 0 0 (R .input) (R .stateIn)) := by
  obtain ⟨rounds, -, hreceived, hsent⟩ := Rounds.history (vdSchedulerRounds_sound maxLength) hp
  have hinput : R .input = rounds.map Dispatch.pkg ++ _ := hreceived .input
  have hstate : R .stateIn = rounds.map Dispatch.updatedState ++ _ := hreceived .stateIn
  -- The first rounds are those of the first descriptors.
  have hfirst : ∀ rounds', rounds' <+: rounds → ∀ o,
      dispatched maxLength rounds' o = dispatched maxLength
        (dispatches 0 0 (rounds'.map Dispatch.pkg) (rounds'.map Dispatch.updatedState)) o := by
    intro rounds' hpre o
    have hreadIds : rounds'.map Dispatch.id <+: R .syncId :=
      (hpre.map _).trans ⟨_, (hreceived .syncId).symm⟩
    have hreadBursts : burstIds rounds' <+: R .syncBurstId :=
      (hpre.flatMap _).trans ⟨_, (hreceived .syncBurstId).symm⟩
    have hnumbers := hids _ hreadIds
    rw [List.length_map] at hnumbers
    exact dispatched_eq hnumbers (hbursts _ hreadBursts) o
  have hpre : ∀ rounds', rounds' <+: rounds →
      dispatches 0 0 (rounds'.map Dispatch.pkg) (rounds'.map Dispatch.updatedState) <+:
        dispatches 0 0 (R .input) (R .stateIn) := fun rounds' h =>
    dispatches_isPrefix 0 0 ((h.map _).trans ⟨_, hinput.symm⟩) ((h.map _).trans ⟨_, hstate.symm⟩)
  by_cases hsend : ∃ d, r = .send d
  · -- The descriptor in hand is the last one received.
    obtain ⟨d, rfl⟩ := hsend
    obtain ⟨hlastPkg, hlastState, hlastId, hlastBurst⟩ := lastRead_path hp
    have hsyncId : R .syncId = rounds.map Dispatch.id ++ [] := hreceived .syncId
    have hburstId : R .syncBurstId = burstIds rounds ++ [] := hreceived .syncBurstId
    rw [hinput] at hlastPkg
    rw [hstate] at hlastState
    rw [hsyncId] at hlastId
    rw [hburstId] at hlastBurst
    rcases List.eq_nil_or_concat' rounds with rfl | ⟨ds, e, rfl⟩
    · cases hlastPkg
    · have hpkg : e.pkg = d.pkg := by simpa [vdSchedulerRounds] using hlastPkg
      have hstates : e.updatedState = d.updatedState := by
        simpa [vdSchedulerRounds] using hlastState
      have hid : e.id = d.id := by simpa using hlastId
      have hburst : d.isEmpty = false → e.burstId = d.burstId := by
        intro hempty
        have he : e.isEmpty = false := by
          rw [Dispatch.isEmpty, hpkg]
          exact hempty
        simpa [burstIds, he] using hlastBurst hempty
      have hsends := sends_congr hpkg hstates hid hburst
      have hS : ∀ o, S o = dispatched maxLength ds o := by
        intro o
        have hboth : S o ++ (d.sends o ++ d.stops maxLength o) =
            dispatched maxLength (ds ++ [e]) o := hsent o
        have hstops : e.stops maxLength o = d.stops maxLength o := by
          cases o <;> simp [Dispatch.stops, hpkg]
        rw [dispatched, List.flatMap_append, List.flatMap_singleton, hsends, hstops] at hboth
        exact List.append_cancel_right hboth
      have hds : ds <+: ds ++ [e] := List.prefix_append _ _
      refine ⟨_, hpre ds hds, sentFor_of_eq maxLength
        (fun d hd => (mem_dispatches d hd).2) ?_ ?_, fun h => h.elim⟩
      · rw [hS, hfirst ds hds]
      · rw [hS, hfirst ds hds]
  · have howes : ∀ o, S o ++ (vdSchedulerRounds maxLength).owes r o =
        dispatched maxLength rounds o := hsent
    have hall := hfirst rounds (List.prefix_refl _)
    refine ⟨_, hpre rounds (List.prefix_refl _), sentFor_of_eq maxLength
      (fun d hd => (mem_dispatches d hd).2) ?_ ?_, fun hbetween => ?_⟩
    · -- What is still owed are stops.
      have hstop : ((vdSchedulerRounds maxLength).owes r .singleBurst).filter
          (fun pkg => !pkg.data.stops) = [] := by
        cases r with
        | send d => exact absurd ⟨d, rfl⟩ hsend
        | stopSingle => exact (by decide : [stopSingleCmd].filter (fun pkg => !pkg.data.stops) = [])
        | _ => rfl
      rw [← hall, ← howes, List.filter_append, hstop, List.append_nil]
    · have hstop : ((vdSchedulerRounds maxLength).owes r .dynamicBurstVd).filter
          (fun pkg => pkg.data.counts) = [] := by
        have hcounts : (stopOrderedPkg maxLength).data.counts = false :=
          (by decide : decide (0x8000#16 &&& 0x8000#16 = 0) = false)
        cases r with
        | send d => exact absurd ⟨d, rfl⟩ hsend
        | stopSingle => exact List.filter_cons_of_neg (by simp [hcounts])
        | stopDynamic => exact List.filter_cons_of_neg (by simp [hcounts])
        | _ => rfl
      rw [← hall, ← howes, List.filter_append, hstop, List.append_nil]
    · refine (hpre rounds (List.prefix_refl _)).eq_of_length ?_
      rw [length_dispatches, length_dispatches, hinput, hstate]
      cases r with
      | poll => simp [vdSchedulerRounds]
      | readState pkg => simp [vdSchedulerRounds]
      | stopSingle => simp [vdSchedulerRounds]
      | stopDynamic => simp [vdSchedulerRounds]
      | _ => exact hbetween.elim

end Scheduler

section Runs

variable {mem : ℕ → BitVec 32} {depth : Chan ReorderStream → ℕ}
  {s : (reorderNet mem depth).State} {tr : List (reorderNet mem depth).Label}

/-- The surroundings have room for what leaves the network. -/
structure Open (s : (reorderNet mem depth).State) : Prop where
  sync : (s.fifo (sync .inter)).queue.length < depth (sync .inter)
  weight : (s.fifo (weight .inter)).queue.length < depth (weight .inter)
  update : (s.fifo update).queue.length < depth update
  done : ∀ c, (s.fifo (done c)).queue.length < depth (done c)

/-- A word was read or is still queued. -/
theorem length_written (s : (reorderNet mem depth).State) (c : Chan ReorderStream) :
    (s.written c).length = (s.taken c).length + (s.fifo c).queue.length := by
  simp [Network.State.written, Network.State.taken, Fifo.written]

/-! ## Burst processes at a standstill -/

/-- A burst process never sends a token before its weights. -/
theorem unit_weights (hs : (reorderNet mem depth).Reachable s) (c : CmdStream) :
    (s.written (sync c.lines)).length ≤ (s.written (weight c.lines)).length := by
  obtain ⟨hlength, hpaired⟩ := unit_paired c (hs.path reorderNet_pointToPoint (.unit c))
  have hle := hpaired.le
  have heq : (s.written (weight c.lines)).length + _ = (s.written (sync c.lines)).length + _ :=
    hlength
  omega

/-- A burst process whose lines have all been read waits for commands. -/
theorem unit_rests (hdepth : ∀ c, 1 ≤ depth c) (hs : (reorderNet mem depth).Reachable s)
    (hstill : (reorderNet mem depth).Still s) (hroom : Open s) {c : CmdStream}
    (hsync : (s.fifo (sync c.lines)).queue = [])
    (hread : (s.taken (weight c.lines)).length = (s.taken (sync c.lines)).length) :
    (s.fifo (cmd c)).queue = [] ∧
      s.written (sync c.lines) = (c.allLines mem (s.written (cmd c))).map Prod.fst ∧
        s.written (weight c.lines) = (c.allLines mem (s.written (cmd c))).map Prod.snd := by
  have hpath := hs.path reorderNet_pointToPoint (.unit c)
  obtain ⟨hlength, hpaired⟩ := unit_paired c hpath
  have hwritten := length_written s (sync c.lines)
  have hweights := length_written s (weight c.lines)
  rw [hsync, List.length_nil] at hwritten
  have hdepthSync := hdepth (sync c.lines)
  have hdepthWeight := hdepth (weight c.lines)
  have hcall := hstill (.unit c)
  rcases hregs : s.regs (.unit c) with ⟨x, sends⟩
  rw [hregs] at hcall hlength hpaired
  have hbehind : (s.written (weight c.lines)).length + (sentTo UnitOut.weightOutput sends).length =
      (s.written (sync c.lines)).length + (sentTo UnitOut.burstSync sends).length := hlength
  rcases sends with _ | ⟨⟨o, b⟩, rest⟩
  · have hcmds : (s.fifo (cmd c)).queue = [] := (CallStill.of_readNb hcall rfl).1
    obtain ⟨hsyncs, hwords⟩ := c.process_sent mem (s.taken (cmd c))
    have hanswers := fun o => emitter_path (c.process mem) hpath o
    rw [hregs] at hanswers
    have htaken : s.taken (cmd c) = s.written (cmd c) := Network.State.taken_eq_written hcmds
    have hsent : s.written (sync c.lines) ++ [] = (c.allLines mem (s.taken (cmd c))).map Prod.fst :=
      (hanswers .burstSync).trans hsyncs
    have hsentWords : s.written (weight c.lines) ++ [] =
        (c.allLines mem (s.taken (cmd c))).map Prod.snd :=
      (hanswers .weightOutput).trans hwords
    rw [List.append_nil, htaken] at hsent hsentWords
    exact ⟨hcmds, hsent, hsentWords⟩
  · -- Nothing holds back the next weights, the next token or the end of the process.
    have hfull := CallStill.of_write hcall rfl
    cases o with
    | weightOutput =>
        have hpair : Paired (⟨.weightOutput, b⟩ :: rest) := hpaired
        have heq := hpair.eq b rest rfl
        have hfull' : depth (weight c.lines) ≤ (s.fifo (weight c.lines)).queue.length := hfull
        omega
    | burstSync =>
        have hfull' : depth (sync c.lines) ≤ (s.fifo (sync c.lines)).queue.length := hfull
        rw [hsync, List.length_nil] at hfull'
        omega
    | done =>
        have hfull' : depth (done c) ≤ (s.fifo (done c)).queue.length := hfull
        have hdone := hroom.done c
        omega

/-! ## `intra_merge` at a standstill -/

section Intra

variable {side : Fin 2 → LineStream} {output : LineStream} {f : Fifos ReorderStream DyWord}

/-- A call of `intra_merge`. -/
abbrev intraCall (side : Fin 2 → LineStream) (output : LineStream) : Call ReorderStream DyWord :=
  reorderMerge side output intraMergeKernel

/-- A poll of a side at a standstill. -/
theorem intra_poll {c : Fin 2} {m : Holding (BitVec 16) LinePkgs}
    (h : CallStill depth (intraCall side output) (IntraRegs.poll c m) f) :
    (m.held c = none → (f (sync (side c))).queue = []) ∧
      CallStill depth (intraCall side output) (IntraRegs.next c m) f := by
  cases hheld : m.held c with
  | some x =>
      exact ⟨fun hnone => by simp at hnone, CallStill.of_look h (intra_poll_some hheld)⟩
  | none =>
      obtain ⟨hqueue, hnext⟩ := CallStill.of_readNb h (intra_poll_none hheld)
      exact ⟨fun _ => hqueue, hnext⟩

/-- What `intra_merge` waits for at a standstill. -/
inductive IntraWaits (side : Fin 2 → LineStream) (output : LineStream)
    (f : Fifos ReorderStream DyWord) : IntraRegs → Prop where
  | weight {c sync m} (h : (f (weight (side c))).queue = []) : IntraWaits side output f
      (.readWeight c sync m)
  | line {r} (hdue : r.slots.due (fun x => dynamicKey x.1) = none) (hpending : ∀ c, r.pending c = [])
      (howed : r.owed = [])
      (h : ∀ c, r.slots.held c = none → (f (sync (side c))).queue = []) : IntraWaits side output f r

/-- With room behind it `intra_merge` waits for weights or for a line. -/
theorem intra_waits {r : IntraRegs} (h : CallStill depth (intraCall side output) r f)
    (hsync : (f (sync output)).queue.length < depth (sync output))
    (hweight : (f (weight output)).queue.length < depth (weight output)) :
    IntraWaits side output f r := by
  -- From every register of the loop the next decision is reached without a word.
  have hdecide : ∀ m, CallStill depth (intraCall side output) (IntraRegs.decide m) f →
      m.due (fun x => dynamicKey x.1) = none ∧
        CallStill depth (intraCall side output) (IntraRegs.poll 0 m) f := by
    intro m hm
    cases hdue : m.due fun x => dynamicKey x.1 with
    | some y =>
        obtain ⟨c, x⟩ := y
        have hfull := CallStill.of_write hm (intra_decide_some hdue)
        exact absurd hsync (not_lt.mpr hfull)
    | none =>
        exact ⟨rfl, CallStill.of_look hm (intra_decide_none hdue)⟩
  have hloop : ∀ m, CallStill depth (intraCall side output) (IntraRegs.poll 0 m) f →
      m.due (fun x => dynamicKey x.1) = none ∧
        ∀ c, m.held c = none → (f (sync (side c))).queue = [] := by
    intro m hm
    obtain ⟨hfirst, hnext⟩ := intra_poll hm
    obtain ⟨hsecond, hlast⟩ := intra_poll hnext
    refine ⟨(hdecide m hlast).1, fun c => ?_⟩
    fin_cases c
    · exact hfirst
    · exact hsecond
  cases r with
  | poll c m =>
      have hpoll : CallStill depth (intraCall side output) (IntraRegs.poll 0 m) f := by
        fin_cases c
        · exact h
        · exact (hdecide m (intra_poll h).2).2
      obtain ⟨hdue, hqueues⟩ := hloop m hpoll
      exact .line hdue (fun _ => rfl) rfl hqueues
  | readWeight c sync m => exact .weight (CallStill.of_read h rfl)
  | decide m =>
      obtain ⟨hdue, hqueues⟩ := hloop m (hdecide m h).2
      exact .line hdue (fun _ => rfl) rfl hqueues
  | sendWeight w m =>
      have hfull := CallStill.of_write h rfl
      exact absurd hweight (not_lt.mpr hfull)

end Intra

/-- The burst process of a side of `intra_merge`. -/
def intraUnit (c : Fin 2) : CmdOut := if c = 0 then .burst1Cmd else .burst32Cmd

theorem intraUnit_lines (c : Fin 2) : (cmdStream (intraUnit c)).lines = intraSide c := by
  fin_cases c <;> rfl

/-- The lines of the commands of a side are those planned for it. -/
theorem intraUnit_planned (hr : (reorderNet mem depth).GuardedRun Bounded
    (reorderNet mem depth).init tr s) (c : Fin 2) :
    (cmdStream (intraUnit c)).allLines mem (s.written (cmd (cmdStream (intraUnit c)))) =
      laneOf (cmdPlan s) c := by
  rw [issued_sent hr, cmdPlan, laneOf_numbered]
  fin_cases c
  · exact sentTo_lines mem .burst1Cmd (issued s)
  · exact sentTo_lines mem .burst32Cmd (issued s)

/-- At a standstill all lines of the commands have left `intra_merge`, if there is room behind
it. -/
theorem intra_complete (hdepth : ∀ c, 1 ≤ depth c) (hr : (reorderNet mem depth).GuardedRun Bounded
    (reorderNet mem depth).init tr s) (hstill : (reorderNet mem depth).Still s) (hroom : Open s)
    (hsync : (s.fifo (sync .intra)).queue.length < depth (sync .intra))
    (hweight : (s.fifo (weight .intra)).queue.length < depth (weight .intra)) :
    s.written (sync .intra) = (cmdPlan s).map (fun y => y.2.1) ∧
      ∀ c, (s.fifo (cmd (cmdStream (intraUnit c)))).queue = [] := by
  have hs : (reorderNet mem depth).Reachable s := ⟨tr, hr.run⟩
  obtain ⟨lines, out, h⟩ := intraMerging hr
  obtain ⟨hsyncPre, -⟩ := intra_written hr
  have hsyncs : ∀ c, s.taken (sync (intraSide c)) =
      (lines c).map Prod.fst ++ IntraRegs.pending (s.regs .intraMerge) c := h.syncs
  have hweights : ∀ c, s.taken (weight (intraSide c)) = (lines c).map Prod.snd := h.weights
  have hsyncOut : s.written (sync .intra) = out.map Prod.fst := h.syncOut
  have hsequenced : Sequenced syncIds ((cmdPlan s).map Prod.fst)
      (IntraRegs.slots (s.regs .intraMerge)) lines out := h.sequenced
  have hlines := fun c => h.carries (intra_carries hr c)
  have hwaits : IntraWaits intraSide .intra s.fifo (s.regs .intraMerge) :=
    intra_waits (hstill .intraMerge) hsync hweight
  generalize s.regs .intraMerge = r at hwaits hsyncs hsequenced
  cases hwaits with
  | @weight c x m hqueue =>
      -- The weights of a token are sent before it.
      have hunit := unit_weights hs (cmdStream (intraUnit c))
      rw [intraUnit_lines] at hunit
      have hread := congrArg List.length (hsyncs c)
      have hreadWeights := congrArg List.length (hweights c)
      have hwritten := length_written s (sync (intraSide c))
      have hwrittenWeights := length_written s (weight (intraSide c))
      rw [hqueue, List.length_nil] at hwrittenWeights
      simp only [IntraRegs.pending, if_true, List.length_append, List.length_map,
        List.length_singleton] at hread hreadWeights
      omega
  | line hdue hpending howed hqueues =>
      have hcomplete : out.length = (cmdPlan s).length := by
        by_contra hne
        have hle := hsequenced.le
        rw [List.length_map] at hle
        obtain ⟨c, hside⟩ : ∃ c, (sides ((cmdPlan s).map Prod.fst))[out.length]? = some c := by
          refine ⟨_, List.getElem?_eq_getElem ?_⟩
          simp only [sides, List.length_map]
          omega
        -- The process of the next line has sent all its lines.
        have hfree := hsequenced.starved cmdPlan_grouped hlines hdue hside
        have hshort := hsequenced.short hfree (List.prefix_refl _) hside
        have hsyncs := hsyncs c
        rw [hpending, List.append_nil] at hsyncs
        have hqueue : (s.fifo (sync (cmdStream (intraUnit c)).lines)).queue = [] := by
          rw [intraUnit_lines]
          exact hqueues c hfree
        obtain ⟨-, hall, -⟩ := unit_rests hdepth hs hstill hroom hqueue (by
          rw [intraUnit_lines, hsyncs, hweights c, List.length_map, List.length_map])
        have htaken := Network.State.taken_eq_written hqueue
        rw [hall, intraUnit_planned hr, intraUnit_lines, hsyncs] at htaken
        have hlength := congrArg List.length htaken
        rw [List.length_map, List.length_map, length_laneOf] at hlength
        omega
      refine ⟨hsyncPre.eq_of_length ?_, fun c => ?_⟩
      · rw [hsyncOut, List.length_map, List.length_map, hcomplete]
      · -- Every line of the side has been read.
        obtain ⟨l, hl, hcount⟩ := hsequenced.received c
        have htags : (cmdPlan s).length = ((cmdPlan s).map Prod.fst).length :=
          (List.length_map _).symm
        rw [hcomplete, htags, List.take_length, ← length_laneOf] at hcount
        have hread := congrArg List.length (hsyncs c)
        have hlong := congrArg List.length hl
        rw [List.length_append] at hread hlong
        have hsent := (unit_written hs (cmdStream (intraUnit c)) (List.prefix_refl _)).1.length_le
        rw [List.length_map, intraUnit_planned hr, intraUnit_lines] at hsent
        have hwritten := length_written s (sync (intraSide c))
        rw [List.length_map] at hread
        have hqueue : (s.fifo (sync (cmdStream (intraUnit c)).lines)).queue = [] := by
          rw [intraUnit_lines]
          exact List.eq_nil_of_length_eq_zero (by omega)
        have hnone := hpending c
        exact (unit_rests hdepth hs hstill hroom hqueue (by
          rw [intraUnit_lines, hsyncs, hweights c, hnone, List.append_nil, List.length_map,
            List.length_map])).1

/-! ## `cmd_generator` and `vd_scheduler` at a standstill -/

/-- `cmd_generator` waits for descriptors, if there is room for its commands. -/
theorem generator_rests (hdepth : ∀ c, 1 ≤ depth c) (hr : (reorderNet mem depth).GuardedRun Bounded
    (reorderNet mem depth).init tr s) (hstill : (reorderNet mem depth).Still s)
    (hcmds : ∀ c, (s.fifo (cmd (cmdStream (intraUnit c)))).queue = []) :
    (s.fifo dynamicBurstVd).queue = [] ∧ ∃ cmds,
      cmdGenerator dynamicBurstMaxLength (2 ^ 32) (s.written dynamicBurstVd) 0 = some cmds ∧
        issued s = cmds.flatten := by
  have hs : (reorderNet mem depth).Reachable s := ⟨tr, hr.run⟩
  have hpath := hs.path reorderNet_pointToPoint .cmdGenerator
  have hcall := hstill .cmdGenerator
  have hroom : ∀ o : CmdOut, (s.fifo (cmd (cmdStream o))).queue = [] := by
    intro o
    cases o
    · exact hcmds 1
    · exact hcmds 0
  rcases hregs : s.regs .cmdGenerator with dynamicBurstId | ⟨pkg, l⟩
  · rw [hregs] at hcall hpath
    have hqueue : (s.fifo dynamicBurstVd).queue = [] := CallStill.of_read hcall rfl
    obtain ⟨cmds, hcmds, hpre, hissued⟩ := issued_isPrefix hr
    have htaken : s.taken dynamicBurstVd = s.written dynamicBurstVd :=
      Network.State.taken_eq_written hqueue
    have hcmds' : cmdGenerator dynamicBurstMaxLength (2 ^ 32) (s.taken dynamicBurstVd) 0 =
        some cmds := by
      rw [htaken]
      exact hcmds
    have hsent : ∀ o, s.written (cmd (cmdStream o)) = sentTo o cmds.flatten :=
      cmdGeneratorKernel_fetch hpath hcmds'
    refine ⟨hqueue, cmds, hcmds, hpre.eq_of_length ?_⟩
    rw [← length_sentTo, ← length_sentTo, ← hissued, ← hissued, ← hsent, ← hsent]
  · rw [hregs] at hcall
    have hfull := CallStill.of_write hcall rfl
    have hfull' : depth (cmd (cmdStream (nextCmd dynamicBurstMaxLength pkg l).1)) ≤
        (s.fifo (cmd (cmdStream (nextCmd dynamicBurstMaxLength pkg l).1))).queue.length := hfull
    have hone := hdepth (cmd (cmdStream (nextCmd dynamicBurstMaxLength pkg l).1))
    rw [hroom, List.length_nil] at hfull'
    omega

/-- `vd_scheduler` has sent for all descriptors, or it waits for room. -/
theorem scheduler_waits (hdepth : ∀ c, 1 ≤ depth c) (hs : (reorderNet mem depth).Reachable s)
    (hstill : (reorderNet mem depth).Still s) (hroom : Open s) :
    ∃ ds, ds <+: dispatching s ∧ SentFor ds (fun o => s.written (reorderScheduler.dst o)) ∧
      (ds = dispatches 0 0 (s.written descriptors) (s.written states) ∨
        (s.fifo (cmd .single)).queue ≠ [] ∨ (s.fifo dynamicBurstVd).queue ≠ []) := by
  have hpath := hs.path reorderNet_pointToPoint .vdScheduler
  have hcall := hstill .vdScheduler
  have hsent : ∃ ds, ds <+: dispatching s ∧
      SentFor ds (fun o => s.written (reorderScheduler.dst o)) ∧
        (Between (s.regs .vdScheduler) → ds = dispatching s) :=
    scheduler_sentFor hpath (fun ids h => numbers_of_isPrefix hs h)
      fun ids h => numbers_of_isPrefix hs h
  have hfull : ∀ c, depth c ≤ (s.fifo c).queue.length → (s.fifo c).queue ≠ [] := by
    intro c hc hnil
    have hone := hdepth c
    rw [hnil, List.length_nil] at hc
    omega
  -- An id generator never runs dry.
  have hids : ∀ c : IdStream, (s.fifo ⟨.burst .id, c⟩).queue ≠ [] := by
    intro c
    cases c
    · exact hfull _ (CallStill.of_write (hstill .syncIdGen) rfl)
    · exact hfull _ (CallStill.of_write (hstill .syncBurstGen) rfl)
  have hlengths : (s.regs .vdScheduler = SchedulerRegs.poll →
      (s.taken descriptors).length = (s.taken states).length) ∧
        ∀ pkg, s.regs .vdScheduler = SchedulerRegs.readState pkg →
          (s.taken descriptors).length = (s.taken states).length + 1 :=
    scheduler_lengths hpath
  have hgrow : dispatching s <+: dispatches 0 0 (s.written descriptors) (s.written states) :=
    dispatches_isPrefix 0 0 (s.taken_isPrefix descriptors) (s.taken_isPrefix states)
  have hlonger := (s.taken_isPrefix descriptors).length_le
  have hlongerStates := (s.taken_isPrefix states).length_le
  obtain ⟨ds, hpre, hfor, hbetween⟩ := hsent
  refine ⟨ds, hpre, hfor, ?_⟩
  cases hregs : s.regs .vdScheduler with
  | poll =>
      rw [hregs] at hcall hbetween
      have hqueue : s.taken descriptors = s.written descriptors :=
        Network.State.taken_eq_written (CallStill.of_readNb hcall rfl).1
      have hsame := hlengths.1 hregs
      rw [hbetween trivial]
      refine .inl (hgrow.eq_of_length ?_)
      rw [dispatching, length_dispatches, length_dispatches, ← hqueue]
      omega
  | readState pkg =>
      rw [hregs] at hcall hbetween
      have hqueue : s.taken states = s.written states :=
        Network.State.taken_eq_written (CallStill.of_read hcall rfl)
      have hone := hlengths.2 pkg hregs
      rw [hbetween trivial]
      refine .inl (hgrow.eq_of_length ?_)
      rw [dispatching, length_dispatches, length_dispatches, ← hqueue]
      omega
  | readId pkg state =>
      rw [hregs] at hcall
      exact absurd (CallStill.of_read hcall rfl) (hids .syncId)
  | readBurstId pkg state id =>
      rw [hregs] at hcall
      exact absurd (CallStill.of_read hcall rfl) (hids .syncBurstId)
  | send d =>
      rw [hregs] at hcall
      obtain ⟨o, b, hop, -, -⟩ := send_eq dynamicBurstMaxLength d
      have hwait := CallStill.of_write hcall hop
      cases o with
      | update => exact absurd hroom.update (not_lt.mpr hwait)
      | singleBurst => exact .inr (.inl (hfull _ hwait))
      | dynamicBurstVd => exact .inr (.inr (hfull _ hwait))
  | stopSingle =>
      rw [hregs] at hcall
      exact .inr (.inl (hfull _ (CallStill.of_write hcall rfl)))
  | stopDynamic =>
      rw [hregs] at hcall
      exact .inr (.inr (hfull _ (CallStill.of_write hcall rfl)))

/-! ## `inter_merge` at a standstill -/

section Inter

variable {side : Fin 2 → LineStream} {output : LineStream} {f : Fifos ReorderStream DyWord}

/-- A call of `inter_merge`. -/
abbrev interCall (side : Fin 2 → LineStream) (output : LineStream) : Call ReorderStream DyWord :=
  reorderMerge side output interMergeKernel

/-- A poll of a side at a standstill. -/
theorem inter_poll {c : Fin 2} {m : Holding (BitVec 16) (AxiPkg BurstSync)}
    (h : CallStill depth (interCall side output) (InterRegs.poll c m) f) :
    (m.held c = none → (f (sync (side c))).queue = []) ∧
      CallStill depth (interCall side output) (InterRegs.next c m) f := by
  cases hheld : m.held c with
  | some x =>
      exact ⟨fun hnone => by simp at hnone, CallStill.of_look h (inter_poll_some hheld)⟩
  | none =>
      obtain ⟨hqueue, hnext⟩ := CallStill.of_readNb h (inter_poll_none hheld)
      have hsame : InterRegs.next c m =
          InterRegs.next c { m with held := Function.update m.held c none } := by
        rw [← hheld, Function.update_eq_self]
      rw [hsame]
      exact ⟨fun _ => hqueue, hnext⟩

/-- What `inter_merge` waits for at a standstill. -/
inductive InterWaits (side : Fin 2 → LineStream) (f : Fifos ReorderStream DyWord) :
    InterRegs → Prop where
  | weight {c m} (h : (f (weight (side c))).queue = []) : InterWaits side f (.readWeight c m)
  | line {r} (hdue : r.slots.due burstKey = none) (hreads : r.reads = none) (howed : r.owed = [])
      (h : ∀ c, r.slots.held c = none → (f (sync (side c))).queue = []) : InterWaits side f r

/-- With room behind it `inter_merge` waits for weights or for a line. -/
theorem inter_waits {r : InterRegs} (h : CallStill depth (interCall side output) r f)
    (hsync : (f (sync output)).queue.length < depth (sync output))
    (hweight : (f (weight output)).queue.length < depth (weight output)) : InterWaits side f r := by
  -- From every register of the loop the next decision is reached without a word.
  have hdecide : ∀ m, CallStill depth (interCall side output) (InterRegs.decide m) f →
      m.due burstKey = none ∧ CallStill depth (interCall side output) (InterRegs.poll 0 m) f := by
    intro m hm
    cases hdue : m.due burstKey with
    | some y =>
        obtain ⟨c, x⟩ := y
        have hfull := CallStill.of_write hm (inter_decide_some hdue)
        exact absurd hsync (not_lt.mpr hfull)
    | none => exact ⟨rfl, CallStill.of_look hm (inter_decide_none hdue)⟩
  have hloop : ∀ m, CallStill depth (interCall side output) (InterRegs.poll 0 m) f →
      m.due burstKey = none ∧ ∀ c, m.held c = none → (f (sync (side c))).queue = [] := by
    intro m hm
    obtain ⟨hfirst, hnext⟩ := inter_poll hm
    obtain ⟨hsecond, hlast⟩ := inter_poll hnext
    refine ⟨(hdecide m hlast).1, fun c => ?_⟩
    fin_cases c
    · exact hfirst
    · exact hsecond
  cases r with
  | poll c m =>
      have hpoll : CallStill depth (interCall side output) (InterRegs.poll 0 m) f := by
        fin_cases c
        · exact h
        · exact (hdecide m (inter_poll h).2).2
      obtain ⟨hdue, hqueues⟩ := hloop m hpoll
      exact .line hdue rfl rfl hqueues
  | decide m =>
      obtain ⟨hdue, hqueues⟩ := hloop m (hdecide m h).2
      exact .line hdue rfl rfl hqueues
  | readWeight c m => exact .weight (CallStill.of_read h rfl)
  | sendWeight w m =>
      have hfull := CallStill.of_write h rfl
      exact absurd hweight (not_lt.mpr hfull)

end Inter

/-- `intra_merge` never sends weights before their token, and at a standstill with room it owes
none. -/
theorem intra_weights (hdepth : ∀ c, 1 ≤ depth c) (hr : (reorderNet mem depth).GuardedRun Bounded
    (reorderNet mem depth).init tr s) (hstill : (reorderNet mem depth).Still s) :
    (s.written (weight .intra)).length ≤ (s.written (sync .intra)).length ∧
      ((s.fifo (weight .intra)).queue = [] →
        (s.written (weight .intra)).length = (s.written (sync .intra)).length) := by
  obtain ⟨lines, out, h⟩ := intraMerging hr
  have hsyncOut : s.written (sync .intra) = out.map Prod.fst := h.syncOut
  have hweightOut : s.written (weight .intra) ++ IntraRegs.owed (s.regs .intraMerge) =
      out.map Prod.snd := h.weightOut
  have hlength := congrArg List.length hweightOut
  rw [List.length_append, List.length_map] at hlength
  rw [hsyncOut, List.length_map]
  refine ⟨by omega, fun hqueue => ?_⟩
  have howed : IntraRegs.owed (s.regs .intraMerge) = [] := by
    have hcall := hstill .intraMerge
    cases hregs : s.regs .intraMerge with
    | sendWeight w m =>
        rw [hregs] at hcall
        have hfull : depth (weight .intra) ≤ (s.fifo (weight .intra)).queue.length :=
          CallStill.of_write hcall rfl
        have hone := hdepth (weight .intra)
        rw [hqueue, List.length_nil] at hfull
        omega
    | _ => rfl
  rw [howed, List.length_nil] at hlength
  omega

/-- When `inter_merge` has read all lines of the other merger, these are all lines of the
descriptors of `cmd_generator`. -/
theorem intra_delivered (hdepth : ∀ c, 1 ≤ depth c) (hr : (reorderNet mem depth).GuardedRun Bounded
    (reorderNet mem depth).init tr s) (hstill : (reorderNet mem depth).Still s) (hroom : Open s)
    (hsync : (s.fifo (sync .intra)).queue = [])
    (hread : (s.taken (weight .intra)).length = (s.taken (sync .intra)).length) :
    (s.fifo dynamicBurstVd).queue = [] ∧ (s.written (sync .intra)).length =
      (((s.written dynamicBurstVd).filter fun pkg => pkg.data.counts).flatMap
        (orderedLines · mem)).length := by
  have hs : (reorderNet mem depth).Reachable s := ⟨tr, hr.run⟩
  have hle := (intra_weights hdepth hr hstill).1
  have hwritten := length_written s (sync .intra)
  have hwrittenWeights := length_written s (weight .intra)
  have hone := hdepth (sync .intra)
  have honeWeight := hdepth (weight .intra)
  rw [hsync, List.length_nil] at hwritten
  obtain ⟨hall, hcmds⟩ := intra_complete hdepth hr hstill hroom
    (by rw [hsync, List.length_nil]; omega) (by omega)
  obtain ⟨hqueue, cmds, hgenerated, hissued⟩ := generator_rests hdepth hr hstill hcmds
  refine ⟨hqueue, ?_⟩
  have hlines : ((cmdGroups mem cmds.flatten).flatMap Prod.snd).map sentLine =
      ((s.written dynamicBurstVd).filter fun pkg => pkg.data.counts).flatMap (orderedLines · mem) :=
    commands_lines hr (scheduler_written hs .dynamicBurstVd) hgenerated
  rw [hall, ← hlines, ← hissued, List.length_map, List.length_map, length_cmdPlan]

section Delivery

variable {ds : List Dispatch}

/-- What is written for `inter_merge` are lines of the descriptors sent for. -/
theorem interSide_le (hr : (reorderNet mem depth).GuardedRun Bounded
    (reorderNet mem depth).init tr s) (hds : ds <+: dispatching s)
    (hfor : SentFor ds fun o => s.written (reorderScheduler.dst o)) (c : Fin 2) :
    (s.written (sync (interSide c))).length ≤
      (laneOf (numbered 0 (descriptorGroups mem ds)) c).length := by
  have hs : (reorderNet mem depth).Reachable s := ⟨tr, hr.run⟩
  have hfits : ∀ d ∈ ds, Fits d.pkg.data := fun d hd => fits_dispatching hr d (hds.subset hd)
  fin_cases c
  · have hlines := single_lines mem hfits hfor.single
    have hle := (unit_written hs .single (List.prefix_refl _)).1.length_le
    rw [List.length_map] at hle
    refine hle.trans (le_of_eq ?_)
    have hlength := congrArg List.length hlines
    rw [List.length_map] at hlength
    exact hlength
  · obtain ⟨cmds, hcmds, hpre, -⟩ := issued_isPrefix hr
    have hlines := commands_lines hr (scheduler_written hs .dynamicBurstVd) hcmds
    have hordered : (s.written dynamicBurstVd).filter (fun pkg => pkg.data.counts) = _ :=
      hfor.ordered
    have hlength := congrArg List.length hlines
    rw [List.length_map] at hlength
    have hle := (intra_written hr).1.length_le
    rw [List.length_map, length_cmdPlan] at hle
    have hgroups : cmdGroups mem (issued s) <+: cmdGroups mem cmds.flatten :=
      (hpre.filter _).map _
    have hall := (hgroups.flatMap Prod.snd).length_le
    change (s.written (sync .intra)).length ≤ (laneOf _ 1).length
    rw [laneOf_numbered, descriptorGroups_side]
    change _ = ((List.filter (fun pkg => pkg.data.counts) (s.written dynamicBurstVd)).flatMap
      (orderedLines · mem)).length at hlength
    rw [hordered, List.flatMap_map] at hlength
    omega

/-- Where the lines of a side of `inter_merge` are asked for. -/
def interSource (c : Fin 2) : Chan ReorderStream := if c = 0 then cmd .single else dynamicBurstVd

/-- A side whose lines have all been read has delivered the lines of the descriptors sent for. -/
theorem side_delivered (hdepth : ∀ c, 1 ≤ depth c) (hr : (reorderNet mem depth).GuardedRun Bounded
    (reorderNet mem depth).init tr s) (hstill : (reorderNet mem depth).Still s) (hroom : Open s)
    (hds : ds <+: dispatching s) (hfor : SentFor ds fun o => s.written (reorderScheduler.dst o))
    {c : Fin 2} (hsync : (s.fifo (sync (interSide c))).queue = [])
    (hread : (s.taken (weight (interSide c))).length = (s.taken (sync (interSide c))).length) :
    (s.fifo (interSource c)).queue = [] ∧ (s.written (sync (interSide c))).length =
      (laneOf (numbered 0 (descriptorGroups mem ds)) c).length := by
  have hs : (reorderNet mem depth).Reachable s := ⟨tr, hr.run⟩
  have hfits : ∀ d ∈ ds, Fits d.pkg.data := fun d hd => fits_dispatching hr d (hds.subset hd)
  fin_cases c
  · obtain ⟨hqueue, hall, -⟩ := unit_rests hdepth hs hstill hroom (c := .single) hsync hread
    have hlines := congrArg List.length (single_lines mem hfits hfor.single)
    have hlength := congrArg List.length hall
    rw [List.length_map] at hlines hlength
    exact ⟨hqueue, hlength.trans hlines⟩
  · obtain ⟨hqueue, hall⟩ := intra_delivered hdepth hr hstill hroom hsync hread
    have hordered : (s.written dynamicBurstVd).filter (fun pkg => pkg.data.counts) = _ :=
      hfor.ordered
    rw [hordered, List.flatMap_map] at hall
    refine ⟨hqueue, ?_⟩
    change (s.written (sync .intra)).length = (laneOf _ 1).length
    rw [laneOf_numbered, descriptorGroups_side]
    exact hall

/-- A side sends no token without its weights. -/
theorem side_weights (hdepth : ∀ c, 1 ≤ depth c) (hr : (reorderNet mem depth).GuardedRun Bounded
    (reorderNet mem depth).init tr s) (hstill : (reorderNet mem depth).Still s) {c : Fin 2}
    (hqueue : (s.fifo (weight (interSide c))).queue = []) :
    (s.written (sync (interSide c))).length ≤ (s.written (weight (interSide c))).length := by
  fin_cases c
  · exact unit_weights ⟨tr, hr.run⟩ .single
  · exact ((intra_weights hdepth hr hstill).2 hqueue).ge

/-- The lines of the descriptors sent for have left `inter_merge`, and nothing that it waits for is
held back. -/
theorem inter_complete (hdepth : ∀ c, 1 ≤ depth c) (hr : (reorderNet mem depth).GuardedRun Bounded
    (reorderNet mem depth).init tr s) (hstill : (reorderNet mem depth).Still s) (hroom : Open s)
    (hds : ds <+: dispatching s) (hfor : SentFor ds fun o => s.written (reorderScheduler.dst o)) :
    (s.written (sync .inter)).length = (numbered 0 (descriptorGroups mem ds)).length ∧
      (s.written (weight .inter)).length = (numbered 0 (descriptorGroups mem ds)).length ∧
        ∀ c, (s.fifo (interSource c)).queue = [] := by
  obtain ⟨n, h⟩ := interMerging hr
  have hsequenced : Sequenced syncIds ((linePlan s).map Prod.fst)
      (InterRegs.slots (s.regs .interMerge)) (fun c => s.taken (sync (interSide c)))
        (s.written (sync .inter)) := h.sequenced
  have hrelayed : Relayed ((linePlan s).map Prod.fst) n (fun c => s.taken (weight (interSide c)))
      (s.written (weight .inter) ++ InterRegs.owed (s.regs .interMerge)) := h.relayed
  have hbehind : (s.written (sync .inter)).length =
      n + (InterRegs.reads (s.regs .interMerge)).toList.length := h.behind
  have hside : ∀ c, InterRegs.reads (s.regs .interMerge) = some c →
      (sides ((linePlan s).map Prod.fst))[n]? = some c := h.side
  have hle : n ≤ ((linePlan s).map Prod.fst).length := h.le
  have hplan : (numbered 0 (descriptorGroups mem ds)).map Prod.fst <+:
      (linePlan s).map Prod.fst :=
    (numbered_isPrefix 0 ((hds.filter _).map _)).map _
  have hwaits : InterWaits interSide s.fifo (s.regs .interMerge) :=
    inter_waits (hstill .interMerge) hroom.sync hroom.weight
  generalize s.regs .interMerge = r at hwaits hsequenced hrelayed hbehind hside
  cases hwaits with
  | @weight c m hqueue =>
      -- The weights of a token are sent with it.
      obtain ⟨l, hl, hcount⟩ := hsequenced.received c
      have hunit := side_weights hdepth hr hstill hqueue
      have hread := hrelayed.count c
      have hlength := congrArg List.length hl
      have hwritten := length_written s (sync (interSide c))
      have hwrittenWeights := length_written s (weight (interSide c))
      have hone : (s.written (sync .inter)).length = n + 1 := hbehind
      have hnext : (sides (((linePlan s).map Prod.fst).take (n + 1))).count c =
          (sides (((linePlan s).map Prod.fst).take n)).count c + 1 := by
        have htake : ∀ k, sides (((linePlan s).map Prod.fst).take k) =
            (sides ((linePlan s).map Prod.fst)).take k := fun k => List.map_take
        rw [htake, htake, List.take_add_one, hside c rfl]
        simp
      rw [hqueue, List.length_nil] at hwrittenWeights
      rw [hone, hnext] at hcount
      rw [List.length_append] at hlength
      omega
  | line hdue hreads howed hqueues =>
      rw [hreads] at hbehind
      rw [howed, List.append_nil] at hrelayed
      have hn : (s.written (sync .inter)).length = n := hbehind
      subst hn
      have hmore : (numbered 0 (descriptorGroups mem ds)).length ≤
          (s.written (sync .inter)).length := by
        by_contra hless
        obtain ⟨c, hnext⟩ : ∃ c, (sides ((numbered 0 (descriptorGroups mem ds)).map
            Prod.fst))[(s.written (sync .inter)).length]? = some c := by
          refine ⟨_, List.getElem?_eq_getElem ?_⟩
          simp only [sides, List.length_map]
          omega
        -- The side of the next line has delivered all its lines.
        have hfree := hsequenced.starved (linePlan_grouped hr) (inter_carries hr) hdue
          (getElem?_of_isPrefix (hplan.map _) hnext)
        have hshort := hsequenced.short hfree hplan hnext
        obtain ⟨l, hl, hcount⟩ := hsequenced.received c
        have hread := hrelayed.count c
        have hlength := congrArg List.length hl
        rw [hfree, Option.toList_none, List.append_nil] at hlength
        have hqueue := hqueues c hfree
        obtain ⟨-, hall⟩ := side_delivered hdepth hr hstill hroom hds hfor hqueue (by omega)
        rw [← Network.State.taken_eq_written hqueue, length_laneOf] at hall
        omega
      have hreads : ∀ c, (s.taken (sync (interSide c))).length ≤
          (sides ((numbered 0 (descriptorGroups mem ds)).map Prod.fst)).count c := by
        intro c
        rw [← length_laneOf]
        exact (s.taken_isPrefix _).length_le.trans (interSide_le hr hds hfor c)
      obtain ⟨hlength, hdrained⟩ := hsequenced.drained hplan (by rwa [List.length_map]) hreads
      rw [List.length_map] at hlength
      refine ⟨hlength, ?_, fun c => ?_⟩
      · rw [hrelayed.length hle]
        exact hlength
      · obtain ⟨-, htokens, hall⟩ := hdrained c
        have hwritten := length_written s (sync (interSide c))
        have hmost := interSide_le hr hds hfor c
        rw [length_laneOf] at hmost
        have hqueue : (s.fifo (sync (interSide c))).queue = [] :=
          List.eq_nil_of_length_eq_zero (by omega)
        exact (side_delivered hdepth hr hstill hroom hds hfor hqueue
          ((hrelayed.count c).trans htokens.symm)).1

end Delivery

end Runs

/-! ## A network at rest -/

section Rest

variable {depth : Chan ReorderStream → ℕ} {side : Fin 2 → LineStream} {output : LineStream}
  {f : Fifos ReorderStream DyWord}

/-- `intra_merge` holds nothing. -/
def IntraRegs.Free (r : IntraRegs) : Prop :=
  (∀ c, (r.slots.held c).isNone) ∧ (∀ c, r.pending c = []) ∧ r.owed = []

/-- `inter_merge` holds nothing. -/
def InterRegs.Free (r : InterRegs) : Prop :=
  (∀ c, (r.slots.held c).isNone) ∧ r.reads.isNone ∧ r.owed = []

/-- A merger that holds nothing and that nothing is queued for stands still. -/
theorem intra_rests {r : IntraRegs} (hr : IntraRegs.Free r)
    (hqueue : ∀ c, (f (sync (side c))).queue = []) :
    CallStill depth (intraCall side output) r f := by
  refine CallStill.of_idles IntraRegs.Free hr ?_
  rintro r ⟨hheld, hpending, howed⟩
  have hnone : ∀ c, r.slots.held c = none := fun c => Option.isNone_iff_eq_none.mp (hheld c)
  cases r with
  | poll c m =>
      refine ⟨_, intra_poll_none (hnone c), hqueue c, ?_⟩
      fin_cases c
      · exact ⟨hheld, hpending, howed⟩
      · exact ⟨hheld, hpending, howed⟩
  | readWeight c sync m =>
      have hsync := hpending c
      simp [IntraRegs.pending] at hsync
  | decide m =>
      have hdue : m.due (fun x => dynamicKey x.1) = none := by
        have hfirst : m.held 0 = none := hnone 0
        have hsecond : m.held 1 = none := hnone 1
        simp [Holding.due, Holding.dueOn, hfirst, hsecond]
      exact ⟨_, intra_decide_none hdue, hheld, hpending, howed⟩
  | sendWeight w m => cases howed

theorem inter_rests {r : InterRegs} (hr : InterRegs.Free r)
    (hqueue : ∀ c, (f (sync (side c))).queue = []) :
    CallStill depth (interCall side output) r f := by
  refine CallStill.of_idles InterRegs.Free hr ?_
  rintro r ⟨hheld, hreads, howed⟩
  have hnone : ∀ c, r.slots.held c = none := fun c => Option.isNone_iff_eq_none.mp (hheld c)
  cases r with
  | poll c m =>
      have hc : m.held c = none := hnone c
      have hsame : { m with held := Function.update m.held c none } = m := by
        rw [← hc, Function.update_eq_self]
      have hnext : InterRegs.Free
          (InterRegs.next c { m with held := Function.update m.held c none }) := by
        rw [hsame]
        fin_cases c
        · exact ⟨hheld, rfl, rfl⟩
        · exact ⟨hheld, rfl, rfl⟩
      exact ⟨_, inter_poll_none hc, hqueue c, hnext⟩
  | decide m =>
      have hdue : m.due burstKey = none := by
        have hfirst : m.held 0 = none := hnone 0
        have hsecond : m.held 1 = none := hnone 1
        simp [Holding.due, Holding.dueOn, hfirst, hsecond]
      exact ⟨_, inter_decide_none hdue, hheld, rfl, rfl⟩
  | readWeight c m => cases hreads
  | sendWeight w m => cases howed

end Rest

/-- `vd_scheduler` waits for a descriptor. -/
def SchedulerRegs.polls : SchedulerRegs → Bool
  | .poll => true
  | _ => false

/-- `cmd_generator` waits for a descriptor. -/
def GeneratorRegs.fetches : GeneratorRegs → Bool
  | .fetch _ => true
  | _ => false

/-- The burst processes. -/
def units : List CmdStream := [.burst1, .burst32, .single]

theorem mem_units (c : CmdStream) : c ∈ units := by
  cases c <;> simp [units]

/-- What a burst process has still to send. -/
def unsent (s : smallReorder.State) (c : CmdStream) : List UnitSend :=
  ((s.regs (.unit c)) : (CmdStream.process wordNumbers c).σ × List UnitSend).2

def intraRegs (s : smallReorder.State) : IntraRegs := s.regs .intraMerge

def interRegs (s : smallReorder.State) : InterRegs := s.regs .interMerge

/-- The network has nothing to do: the ids have run full, and nothing else is queued inside. -/
def Resting (s : smallReorder.State) : Prop :=
  (4 ≤ (s.fifo ⟨.burst .id, .syncId⟩).queue.length ∧
    4 ≤ (s.fifo ⟨.burst .id, .syncBurstId⟩).queue.length) ∧
  ((s.fifo descriptors).queue = [] ∧ SchedulerRegs.polls (s.regs .vdScheduler)) ∧
  ((s.fifo dynamicBurstVd).queue = [] ∧ GeneratorRegs.fetches (s.regs .cmdGenerator)) ∧
  (∀ c ∈ units, (s.fifo (cmd c)).queue = [] ∧ unsent s c = []) ∧
  ((∀ c, (s.fifo (sync (intraSide c))).queue = []) ∧ IntraRegs.Free (intraRegs s)) ∧
  (∀ c, (s.fifo (sync (interSide c))).queue = []) ∧ InterRegs.Free (interRegs s)

instance (r : IntraRegs) : Decidable (IntraRegs.Free r) := inferInstanceAs (Decidable (_ ∧ _))

instance (r : InterRegs) : Decidable (InterRegs.Free r) := inferInstanceAs (Decidable (_ ∧ _))

instance (s : smallReorder.State) : Decidable (Resting s) := inferInstanceAs (Decidable (_ ∧ _))

theorem Resting.still {s : smallReorder.State} (h : Resting s) : smallReorder.Still s := by
  obtain ⟨⟨hids, hburstIds⟩, ⟨hinput, hpolls⟩, ⟨hordered, hfetches⟩, hunits, ⟨hintra, hintraFree⟩,
    hinter, hinterFree⟩ := h
  intro p
  cases p with
  | syncIdGen => exact CallStill.of_idles (fun _ => True) trivial fun _ _ => ⟨_, rfl, hids⟩
  | syncBurstGen => exact CallStill.of_idles (fun _ => True) trivial fun _ _ => ⟨_, rfl, hburstIds⟩
  | vdScheduler =>
      refine CallStill.of_idles (fun r => SchedulerRegs.polls r) hpolls fun r hr => ?_
      cases r with
      | poll => exact ⟨_, rfl, hinput, rfl⟩
      | _ => cases hr
  | cmdGenerator =>
      refine CallStill.of_idles (fun r => GeneratorRegs.fetches r) hfetches fun r hr => ?_
      cases r with
      | fetch _ => exact ⟨_, rfl, hordered⟩
      | _ => cases hr
  | unit c =>
      obtain ⟨hqueue, hsends⟩ := hunits c (mem_units c)
      exact emitter_idle hsends hqueue
  | intraMerge => exact intra_rests hintraFree hintra
  | interMerge => exact inter_rests hinterFree hinter

/-- The ids run full. -/
def resting : List smallReorder.Action :=
  List.replicate 4 (.fire .syncIdGen none) ++ List.replicate 4 (.fire .syncBurstGen none)

end RidgeWalker.Burst.Reorder
