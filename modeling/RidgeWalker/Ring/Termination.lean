import RidgeWalker.Dataflow.Execution
import RidgeWalker.Ring.Laps
import RidgeWalker.Ring.Manager

/-!
# Termination of the ring manager

`ring_manager` leaves its loop when a query comes back finished with its `last` flag set.
The flag of the final query is kept in its `ring_state` and given back for its last step,
when the query is sent out again with one step left.

Main results:

- Theorem `exits_when_drained`: the loop is left exactly when all queries have been admitted
  and have come back finished, in every run in which the final query is admitted with at
  least two steps to go and with no query in flight that has more steps to go.
- Theorem `exit_missed_or_early`: a final query with one step never ends the loop, and one
  with fewer steps than another ends it too early.
-/

namespace RidgeWalker.Ring

open Dataflow

/-! ## The stream of new queries and the pipeline -/

/-- A finite stream of new queries, each with at least one step to go; the last flag is on
the final one. -/
structure QueryStream where
  initial : List StepMetadataPkg
  final : StepMetadataPkg
  steps : ∀ q ∈ initial ++ [final], 0 < q.remain
  initial_last : ∀ q ∈ initial, q.last = false
  final_last : final.last = true

/-- The words of a query stream. -/
def QueryStream.words (stream : QueryStream) : List StepMetadataPkg :=
  stream.initial ++ [stream.final]

/-- `step_update`: the query moves to the vertex `update`, with one step less to go; its
`last` flag stays. -/
def stepUpdate (update : BitVec 32) (q : StepMetadataPkg) : StepMetadataPkg :=
  { q with data := { q.data with currVertex := update, remainStep := q.data.remainStep - 1 } }

/-- `ring_manager` with a pipeline that updates every query, in order. -/
abbrev stepLoop (depth : Chan RingStreams → ℕ) :
    Network RingProc RingStreams fun _ => StepMetadataPkg :=
  ringLoop (fifoKernel stepUpdate) depth

variable {depth : Chan RingStreams → ℕ}

/-! ## Queries in flight -/

/-- A query on its way into the pipeline, as a walk. -/
def sent (q : StepMetadataPkg) : Walk := ⟨q.remain, q.final, q.last⟩

/-- A query on its way back from the pipeline, as a walk. -/
def returned (q : StepMetadataPkg) : Walk := ⟨q.remain + 1, q.final, q.last⟩

/-- The query that `ring_manager` is sending. -/
def RingRegs.emitted : RingRegs → List StepMetadataPkg
  | .emitRuntime _ pkg => [pkg]
  | .emitOld _ pkg => [pkg]
  | .emitInsertion _ pkg => [pkg]
  | _ => []

@[simp] theorem emitted_runtime (s : Slots) (index : BitVec 8) :
    (RingRegs.runtime s index).emitted = [] := rfl

@[simp] theorem emitted_emitOld (s : Slots) (pkg : StepMetadataPkg) :
    (RingRegs.emitOld s pkg).emitted = [pkg] := rfl

@[simp] theorem emitted_halted : RingRegs.halted.emitted = [] := rfl

/-- The loop has been left. -/
def RingRegs.exited : RingRegs → Bool
  | .halted => true
  | _ => false

/-- A new query, as a walk. -/
def entering (q : StepMetadataPkg) : Walk := ⟨q.remain, q.last, false⟩

/-- The ring in the streams, the pipeline and the registers of `ring_manager`: the next
query to come back is first. -/
def circuitOf (f : Network.Fifos RingStreams fun _ => StepMetadataPkg)
    (items : List StepMetadataPkg) (r : RingRegs) (left : ℕ) : Circuit where
  ring := (f RingStream.old.chan).queue.map returned ++
    (items ++ (f RingStream.out.chan).queue ++ r.emitted).map sent
  entered := (f RingStream.new.chan).taken.map entering
  left := left
  exited := r.exited

@[simp] theorem endIteration_emitted (s : Slots) (update : SlotUpdate) :
    (endIteration s update).emitted = [] := by
  cases update <;> rfl

@[simp] theorem ringInsertion_emitted (s : Slots) (update : SlotUpdate) :
    (ringInsertion s update).emitted = [] := by
  unfold ringInsertion
  split
  · rfl
  · exact endIteration_emitted s update

@[simp] theorem endIteration_exited (s : Slots) (update : SlotUpdate) :
    (endIteration s update).exited = false := by
  cases update <;> rfl

@[simp] theorem ringInsertion_exited (s : Slots) (update : SlotUpdate) :
    (ringInsertion s update).exited = false := by
  unfold ringInsertion
  split
  · rfl
  · exact endIteration_exited s update

@[simp] theorem sent_inSlot (q : StepMetadataPkg) (index : BitVec 8) :
    sent (q.inSlot index) = entering q := by
  simp [sent, entering]
  rfl

/-- The pipeline takes one step off. -/
theorem returned_stepUpdate {q : StepMetadataPkg} (h : 0 < q.remain) (update : BitVec 32) :
    returned (stepUpdate update q) = sent q := by
  have hremain : (stepUpdate update q).remain + 1 = q.remain := by
    simp only [StepMetadataPkg.remain, stepUpdate] at h ⊢
    rw [BitVec.toNat_sub_of_le]
    · simp
      omega
    · rw [BitVec.le_def]
      exact h
  show Walk.mk _ _ _ = Walk.mk _ _ _
  rw [hremain]
  rfl

/-- An unfinished query goes on to its next lap. -/
theorem sent_sentOn (q : StepMetadataPkg) : sent q.sentOn = (returned q).again := by
  have hone : (q.data.remainStep == 1) = (q.remain + 1 - 1 == 1) := by
    rw [Bool.eq_iff_iff, beq_iff_eq, beq_iff_eq, ← BitVec.toNat_inj]
    rfl
  show Walk.mk q.remain q.final (q.data.remainStep == 1 && q.final) = _
  rw [hone]
  rfl

/-! ## What the manager does to the ring -/

/-- The streams after one event of `ring_manager`. -/
theorem manager_effect {f f' : Network.Fifos RingStreams fun _ => StepMetadataPkg}
    {e : Event (fun _ : RingIn => StepMetadataPkg) (fun _ : Unit => StepMetadataPkg) Empty}
    (he : Network.Effect depth (ringManager .old .new .out) f e f') :
    match e with
    | .read .old q =>
        (f RingStream.old.chan).queue = q :: (f' RingStream.old.chan).queue ∧
          f' RingStream.out.chan = f RingStream.out.chan ∧
          f' RingStream.new.chan = f RingStream.new.chan
    | .read .new q =>
        f' RingStream.old.chan = f RingStream.old.chan ∧
          f' RingStream.out.chan = f RingStream.out.chan ∧
          (f' RingStream.new.chan).taken = (f RingStream.new.chan).taken ++ [q] ∧
          (f' RingStream.new.chan).written = (f RingStream.new.chan).written
    | .write _ q =>
        f' RingStream.old.chan = f RingStream.old.chan ∧
          (f' RingStream.out.chan).queue = (f RingStream.out.chan).queue ++ [q] ∧
          f' RingStream.new.chan = f RingStream.new.chan
    | _ => f' = f := by
  rcases he with @⟨i, q, rest, h⟩ | _ | _ | @⟨o, q, h⟩ | _ | _
  · cases i with
    | old =>
        have h : (f RingStream.old.chan).queue = q :: rest := h
        refine ⟨?_, rfl, rfl⟩
        show _ = q :: (Function.update f RingStream.old.chan (f RingStream.old.chan).pop
          RingStream.old.chan).queue
        rw [Function.update_self, Fifo.pop_queue h, h]
    | new =>
        refine ⟨rfl, rfl, ?_, ?_⟩
        · simpa [ringManager] using Fifo.pop_taken h
        · simp [ringManager]
  · rfl
  · rfl
  · exact ⟨rfl, by simp [ringManager], rfl⟩
  · rfl
  · rfl

/-- An event of `ring_manager`. -/
abbrev RingEvent : Type :=
  Event (fun _ : RingIn => StepMetadataPkg) (fun _ : Unit => StepMetadataPkg) Empty

/-- The event receives a query that has come back finished. -/
def finishedBy : RingEvent → ℕ
  | .read .old q => if q.data.remainStep = 0 then 1 else 0
  | _ => 0

section Moves

variable {f f' : Network.Fifos RingStreams fun _ => StepMetadataPkg} {r r' : RingRegs}
  {left : ℕ}

/-- Nothing moves. -/
theorem circuitOf_idle (hr : r.emitted = []) (hr' : r'.emitted = []) (hexit : r'.exited = r.exited)
    (items : List StepMetadataPkg) (left : ℕ) :
    circuitOf f items r' left = circuitOf f items r left := by
  simp only [circuitOf, hr, hr', hexit]

/-- A query is written that was in the registers. -/
theorem circuitOf_write {pkg : StepMetadataPkg}
    (he : Network.Effect depth (ringManager .old .new .out) f (.write () pkg) f')
    (hr : r.emitted = [pkg]) (hr' : r'.emitted = []) (hexit : r'.exited = r.exited)
    (items : List StepMetadataPkg) (left : ℕ) :
    circuitOf f' items r' left = circuitOf f items r left := by
  obtain ⟨hold, hout, hnew⟩ := manager_effect he
  simp only [circuitOf, hold, hout, hnew, hr, hr', hexit, List.append_nil, List.append_assoc]

/-- A new query is read into the registers. -/
theorem circuitOf_enter {q : StepMetadataPkg} {index : BitVec 8}
    (he : Network.Effect depth (ringManager .old .new .out) f (.read RingIn.new q) f')
    (hr : r.emitted = []) (hr' : r'.emitted = [q.inSlot index]) (hexit : r'.exited = r.exited)
    (items : List StepMetadataPkg) (left : ℕ) :
    Turn (circuitOf f items r left) (circuitOf f' items r' left) := by
  obtain ⟨hold, hout, htaken, -⟩ := manager_effect he
  have hturn := Turn.enter (c := circuitOf f items r left) (entering q)
  have hcircuit : circuitOf f' items r' left =
      { circuitOf f items r left with
        ring := (circuitOf f items r left).ring ++ [entering q]
        entered := (circuitOf f items r left).entered ++ [entering q] } := by
    simp [circuitOf, hold, hout, htaken, hr, hr', hexit]
  rw [hcircuit]
  exact hturn

/-- A query comes back: it goes on, leaves, or ends the loop. -/
theorem circuitOf_return {q : StepMetadataPkg} {s : Slots}
    (he : Network.Effect depth (ringManager .old .new .out) f (.read RingIn.old q) f')
    (hl : ringManagerKernel.Local (.poll s) (.read .old q) r')
    (items : List StepMetadataPkg) (left : ℕ) :
    Turn (circuitOf f items (.poll s) left)
      (circuitOf f' items r' (left + finishedBy (.read .old q))) := by
  obtain ⟨hold, hout, hnew⟩ := manager_effect he
  have hring : (circuitOf f items (.poll s) left).ring = returned q ::
      ((f' RingStream.old.chan).queue.map returned ++
        (items ++ (f RingStream.out.chan).queue).map sent) := by
    simp [circuitOf, hold, RingRegs.emitted]
  have hcircuit : circuitOf f' items r' (left + finishedBy (.read .old q)) =
      { circuitOf f items (.poll s) left with
        ring := ((f' RingStream.old.chan).queue.map returned ++
          (items ++ (f RingStream.out.chan).queue).map sent) ++ r'.emitted.map sent
        left := left + finishedBy (.read .old q)
        exited := r'.exited } := by
    simp [circuitOf, hout, hnew]
  have hr' : r' = if q.data.remainStep = 0 then
      if q.last then .halted else .runtime s (q.slot.setWidth 8)
    else .emitOld s q.sentOn := by
    rcases hl.yields with ⟨⟨⟩, -⟩ | ⟨_, ⟨⟩, rfl⟩
    rfl
  rw [hcircuit]
  by_cases h0 : q.data.remainStep = 0
  · have hlaps : (returned q).laps = 1 := by simp [returned, StepMetadataPkg.remain, h0]
    have hfinished : finishedBy (.read .old q) = 1 := by simp only [finishedBy, h0, if_true]
    rw [hfinished]
    cases hlast : q.last with
    | true =>
        obtain rfl : r' = .halted := by simpa [h0, hlast] using hr'
        rw [emitted_halted, List.map_nil, List.append_nil]
        exact .close hring hlaps hlast
    | false =>
        obtain rfl : r' = .runtime s (q.slot.setWidth 8) := by simpa [h0, hlast] using hr'
        rw [emitted_runtime, List.map_nil, List.append_nil]
        exact .leave hring hlaps hlast
  · have hlaps : (returned q).laps ≠ 1 := by
      intro h1
      apply h0
      apply BitVec.eq_of_toNat_eq
      simpa [returned, StepMetadataPkg.remain] using h1
    have hfinished : finishedBy (.read .old q) = 0 := by simp only [finishedBy, h0, if_false]
    obtain rfl : r' = .emitOld s q.sentOn := hr'.trans (if_neg h0)
    rw [hfinished, emitted_emitOld, List.map_singleton, sent_sentOn]
    exact .again hring hlaps

/-- An event of `ring_manager` turns the ring, or leaves it alone. -/
theorem manager_turn {e : RingEvent} (hl : ringManagerKernel.Local r e r')
    (he : Network.Effect depth (ringManager .old .new .out) f e f')
    (items : List StepMetadataPkg) (left : ℕ) :
    Turn (circuitOf f items r left) (circuitOf f' items r' (left + finishedBy e)) ∨
      circuitOf f' items r' (left + finishedBy e) = circuitOf f items r left := by
  have hy := hl.yields
  cases r with
  | poll s =>
      have hr : (RingRegs.poll s).emitted = [] := rfl
      rcases hy with ⟨rfl, rfl⟩ | ⟨q, rfl, rfl⟩
      · obtain rfl : f' = f := manager_effect he
        right
        exact circuitOf_idle hr (ringInsertion_emitted ..) (ringInsertion_exited ..) items left
      · exact .inl (circuitOf_return he hl items left)
  | runtime s index =>
      have hr : (RingRegs.runtime s index).emitted = [] := rfl
      rcases hy with ⟨rfl, rfl⟩ | ⟨q, rfl, rfl⟩
      · obtain rfl : f' = f := manager_effect he
        right
        exact circuitOf_idle hr (ringInsertion_emitted ..) (ringInsertion_exited ..) items left
      · have hr' : (RingRegs.emitRuntime s (q.inSlot index)).emitted = [q.inSlot index] := rfl
        exact .inl (circuitOf_enter he hr hr' rfl items left)
  | emitRuntime s pkg =>
      have hr : (RingRegs.emitRuntime s pkg).emitted = [pkg] := rfl
      obtain ⟨rfl, rfl⟩ := hy
      right
      exact circuitOf_write he hr (ringInsertion_emitted ..) (ringInsertion_exited ..) items left
  | emitOld s pkg =>
      have hr : (RingRegs.emitOld s pkg).emitted = [pkg] := rfl
      obtain ⟨rfl, rfl⟩ := hy
      right
      exact circuitOf_write he hr (ringInsertion_emitted ..) (ringInsertion_exited ..) items left
  | insertion s update =>
      have hr : (RingRegs.insertion s update).emitted = [] := rfl
      rcases hy with ⟨rfl, rfl⟩ | ⟨q, rfl, rfl⟩
      · obtain rfl : f' = f := manager_effect he
        right
        exact circuitOf_idle hr (endIteration_emitted ..) (endIteration_exited ..) items left
      · have hr' : (RingRegs.emitInsertion s (q.inSlot s.ringCounter)).emitted =
            [q.inSlot s.ringCounter] := rfl
        exact .inl (circuitOf_enter he hr hr' rfl items left)
  | emitInsertion s pkg =>
      have hr : (RingRegs.emitInsertion s pkg).emitted = [pkg] := rfl
      obtain ⟨rfl, rfl⟩ := hy
      right
      exact circuitOf_write he hr (endIteration_emitted ..) (endIteration_exited ..) items left
  | halted => exact hy.elim

/-- The pipeline passes queries on, with one step less; the ring does not change. -/
theorem pipeline_idle {p p' : FifoRegs (BitVec 32) StepMetadataPkg}
    {e : Event (fun _ : Unit => StepMetadataPkg) (fun _ : Unit => StepMetadataPkg)
      (FifoChoice (BitVec 32))}
    (hl : (fifoKernel stepUpdate).Local p e p')
    (he : Network.Effect depth (ringPipeline (fifoKernel stepUpdate) .out .old) f e f')
    (hpos : ∀ w ∈ (circuitOf f p.items r left).ring, 0 < w.laps) :
    circuitOf f' p'.items r left = circuitOf f p.items r left := by
  rcases fifoKernel_local hl with ⟨q, rfl, hitems⟩ | ⟨update, q, rfl, hitems⟩ | ⟨hidle, hitems⟩
  · rcases he with @⟨_, _, rest, h⟩
    have h : (f RingStream.out.chan).queue = q :: rest := h
    simp [circuitOf, hitems, h, ringPipeline, Fifo.pop_queue h]
  · have hq : 0 < q.remain := by
      apply hpos (sent q)
      simp [circuitOf, hitems]
    rcases he with _ | _ | _ | @⟨_, _, h⟩
    simp [circuitOf, hitems, ringPipeline, returned_stepUpdate hq]
  · have hf : f' = f := by
      rcases hidle with rfl | rfl | ⟨c, rfl⟩
      · rcases he
        rfl
      · rcases he
        rfl
      · rcases he
        rfl
    rw [hf, hitems]

/-- An event of `ring_manager` enters the query it reads from the stream of new queries, and
no other. -/
theorem manager_taken {e : RingEvent}
    (he : Network.Effect depth (ringManager .old .new .out) f e f') :
    (∃ q, e = .read .new q ∧
        (f' RingStream.new.chan).taken = (f RingStream.new.chan).taken ++ [q]) ∨
      (f' RingStream.new.chan).taken = (f RingStream.new.chan).taken := by
  have hf := manager_effect he
  rcases e with ⟨i, q⟩ | _ | _ | _ | _ | _
  · cases i with
    | old =>
        obtain ⟨-, -, hnew⟩ := hf
        exact .inr (by rw [hnew])
    | new =>
        obtain ⟨-, -, htaken, -⟩ := hf
        exact .inl ⟨q, rfl, htaken⟩
  · exact .inr (by rw [hf])
  · exact .inr (by rw [hf])
  · obtain ⟨-, -, hnew⟩ := hf
    exact .inr (by rw [hnew])
  · exact .inr (by rw [hf])
  · exact .inr (by rw [hf])

end Moves

/-! ## Runs -/

/-- The walks that the queries of a stream make. -/
def QueryStream.batch (stream : QueryStream) : Batch where
  initial := stream.initial.map entering
  final := entering stream.final
  common := by
    intro w hw
    obtain ⟨q, hq, rfl⟩ := List.mem_map.mp hw
    exact ⟨stream.steps q (List.mem_append_left _ hq), stream.initial_last q hq, rfl⟩
  final_final := stream.final_last
  final_last := rfl

theorem QueryStream.walks_batch (stream : QueryStream) :
    stream.batch.walks = stream.words.map entering := by
  simp [Batch.walks, QueryStream.batch, QueryStream.words]

/-- How many queries have come back finished. -/
def finished (tr : List (stepLoop depth).Label) : ℕ :=
  (tr.map fun
    | .fire .manager _ e => finishedBy e
    | _ => 0).sum

/-- The ring in a state. -/
def circuit (tr : List (stepLoop depth).Label) (s : (stepLoop depth).State) : Circuit :=
  circuitOf s.fifo (FifoRegs.items (s.regs .pipeline)) (s.regs .manager) (finished tr)

/-- The queries in flight, the next to come back first. -/
def inFlight (s : (stepLoop depth).State) : List Walk := (circuit [] s).ring

/-- The surroundings feed the queries of the stream, in order. -/
def Feeds (stream : QueryStream) (s : (stepLoop depth).State) : (stepLoop depth).Label → Prop
  | .put _ q => (s.fifo RingStream.new.chan).written ++ [q] <+: stream.words
  | _ => True

/-- When the final query is admitted it has at least two steps to go, and no query in flight
has more to go. -/
def FinalOutlasts (s : (stepLoop depth).State) : (stepLoop depth).Label → Prop
  | .fire .manager _ (.read RingIn.new q) =>
      q.last = true → 2 ≤ q.remain ∧ ∀ w ∈ inFlight s, w.laps ≤ q.remain
  | _ => True

/-- What holds in every state of a run. -/
structure InOrder (stream : QueryStream) (tr : List (stepLoop depth).Label)
    (s : (stepLoop depth).State) : Prop where
  orderly : Orderly stream.batch (circuit tr s)
  written : (s.fifo RingStream.new.chan).written <+: stream.words

theorem finished_manager (tr : List (stepLoop depth).Label) (r : RingRegs) (e : RingEvent) :
    finished (tr ++ [.fire .manager r e]) = finished tr + finishedBy e := by
  simp [finished]

/-- One step keeps the ring orderly. -/
theorem InOrder.step {stream : QueryStream} {tr : List (stepLoop depth).Label}
    {s s' : (stepLoop depth).State} {l : (stepLoop depth).Label} (h : InOrder stream tr s)
    (hs : (stepLoop depth).Step s l s') (hfeed : Feeds stream s l) (hfinal : FinalOutlasts s l) :
    InOrder stream (tr ++ [l]) s' := by
  obtain ⟨horderly, hwritten⟩ := h
  cases l with
  | fire p r e =>
      rcases hs with @⟨_, _, r', f, hl, he⟩
      cases p with
      | manager =>
          have hnew : (f RingStream.new.chan).written = (s.fifo RingStream.new.chan).written :=
            he.written_of_not_dst (c := RingStream.new.chan) nofun
          have htaken := manager_taken he
          have hpre : (f RingStream.new.chan).taken <+: stream.words :=
            (Fifo.taken_isPrefix _).trans (hnew ▸ hwritten)
          have hcircuit : circuit (tr ++ [.fire .manager (s.regs .manager) e])
              ⟨Function.update s.regs .manager r', f⟩ =
                circuitOf f (FifoRegs.items (s.regs .pipeline)) r' (finished tr + finishedBy e) :=
            congrArg (circuitOf f (FifoRegs.items (s.regs .pipeline)) r')
              (finished_manager tr (s.regs .manager) e)
          refine ⟨?_, by rw [← hnew] at hwritten; exact hwritten⟩
          rw [hcircuit]
          rcases manager_turn hl he (FifoRegs.items (s.regs .pipeline)) (finished tr)
            with hturn | hsame
          · refine horderly.turn hturn ?_ ?_
            · rw [QueryStream.walks_batch]
              exact hpre.map entering
            · intro w hw hwfinal
              have hentered : (f RingStream.new.chan).taken.map entering =
                  (s.fifo RingStream.new.chan).taken.map entering ++ [w] := hw
              rcases htaken with ⟨q, rfl, htaken⟩ | htaken
              · rw [htaken, List.map_append, List.append_cancel_left_eq] at hentered
                obtain rfl : entering q = w := List.singleton_inj.mp hentered
                exact hfinal hwfinal
              · rw [htaken] at hentered
                have hlen := congrArg List.length hentered
                simp at hlen
          · rw [hsame]
            exact horderly
      | pipeline =>
          have hnew : (f RingStream.new.chan).written = (s.fifo RingStream.new.chan).written :=
            he.written_of_not_dst (c := RingStream.new.chan) nofun
          have hfinished : finished (tr ++ [.fire .pipeline (s.regs .pipeline) e]) =
              finished tr := by
            simp [finished]
          have hsame := pipeline_idle hl he (fun w hw => horderly.laps_pos hw)
          have hcircuit : circuit (tr ++ [.fire .pipeline (s.regs .pipeline) e])
              ⟨Function.update s.regs .pipeline r', f⟩ = circuit tr s :=
            (congrArg (circuitOf f (FifoRegs.items r') (s.regs .manager)) hfinished).trans hsame
          refine ⟨?_, by rw [← hnew] at hwritten; exact hwritten⟩
          rw [hcircuit]
          exact horderly
  | put c q =>
      obtain rfl := put_new hs
      rcases hs with _ | ⟨hw, hroom⟩
      have hfinished : finished (tr ++ [.put RingStream.new.chan q]) = finished tr := by
        simp [finished]
      have hfeed : (s.fifo RingStream.new.chan).written ++ [q] <+: stream.words := hfeed
      have hcircuit : circuit (tr ++ [.put RingStream.new.chan q])
          ⟨s.regs, Function.update s.fifo RingStream.new.chan
            ((s.fifo RingStream.new.chan).push q)⟩ = circuit tr s :=
        congrArg (circuitOf s.fifo (FifoRegs.items (s.regs .pipeline)) (s.regs .manager)) hfinished
      refine ⟨?_, by simpa using hfeed⟩
      rw [hcircuit]
      exact horderly
  | take c q => exact (not_take hs).elim

/-- Every run keeps the ring orderly. -/
theorem inOrder_run {stream : QueryStream} {tr : List (stepLoop depth).Label}
    {s : (stepLoop depth).State}
    (hr : (stepLoop depth).GuardedRun (fun s l => Feeds stream s l ∧ FinalOutlasts s l)
      (stepLoop depth).init tr s) : InOrder stream tr s := by
  induction hr with
  | nil =>
      refine ⟨⟨?_, rfl⟩, List.nil_prefix⟩
      exact .inl ⟨List.nil_prefix, fun w hw => absurd hw List.not_mem_nil⟩
  | snoc _ hok hs ih => exact ih.step hs hok.1 hok.2

/-- The loop is left when every query of the stream has been admitted and has come back
finished, and not before. -/
structure ExitsDrained (stream : QueryStream) (tr : List (stepLoop depth).Label)
    (s : (stepLoop depth).State) : Prop where
  drained : s.regs .manager = .halted → (s.fifo RingStream.new.chan).taken = stream.words ∧
    inFlight s = [] ∧ finished tr = stream.words.length
  exits : finished tr = stream.words.length → s.regs .manager = .halted

/-- The loop is left when every query has been admitted and has come back finished, and not
before, if the final query is admitted with at least two steps to go and with no query in
flight that has more. -/
theorem exits_when_drained {stream : QueryStream} {tr : List (stepLoop depth).Label}
    {s : (stepLoop depth).State}
    (hr : (stepLoop depth).GuardedRun (fun s l => Feeds stream s l ∧ FinalOutlasts s l)
      (stepLoop depth).init tr s) : ExitsDrained stream tr s := by
  obtain ⟨horderly, hwritten⟩ := inOrder_run hr
  have hlen : stream.batch.walks.length = stream.words.length := by
    rw [QueryStream.walks_batch, List.length_map]
  have hiff := horderly.exited_iff
  rw [hlen] at hiff
  constructor
  · intro hhalt
    have hexit : (circuit tr s).exited = true := by
      show RingRegs.exited (s.regs .manager) = true
      rw [hhalt]
      rfl
    obtain ⟨hentered, hring⟩ := horderly.drained hexit
    have hpre := (Fifo.taken_isPrefix _).trans hwritten
    refine ⟨hpre.eq_of_length ?_, hring, hiff.mp hexit⟩
    have htaken := congrArg List.length hentered
    rw [hlen] at htaken
    simpa [circuit, circuitOf] using htaken
  · intro hall
    have hexit : RingRegs.exited (s.regs .manager) = true := hiff.mpr hall
    generalize s.regs RingProc.manager = r at hexit ⊢
    cases r with
    | halted => rfl
    | _ => cases hexit

/-! ## Streams with and without a proper exit -/

instance (stream : QueryStream) (s : (stepLoop depth).State) (l : (stepLoop depth).Label) :
    Decidable (Feeds stream s l) := by
  unfold Feeds
  split <;> infer_instance

instance (s : (stepLoop depth).State) (l : (stepLoop depth).Label) :
    Decidable (FinalOutlasts s l) := by
  unfold FinalOutlasts
  split <;> infer_instance

/-- A new query with a number of steps to go. -/
def walkOf (steps : BitVec 32) (last : Bool) : StepMetadataPkg := ⟨⟨0, steps, 0, 0, 0⟩, last⟩

/-- A stream of one query. -/
def lone (steps : BitVec 32) (h : 0 < (walkOf steps true).remain) : QueryStream where
  initial := []
  final := walkOf steps true
  steps := by simpa using h
  initial_last := by simp
  final_last := rfl

/-- A stream whose final query has fewer steps than the other. -/
def uneven : QueryStream where
  initial := [walkOf 3 false]
  final := walkOf 2 true
  steps := by decide
  initial_last := by decide
  final_last := rfl

/-- A query arrives and is sent out. -/
def arrive (q : StepMetadataPkg) : List (stepLoop fun _ => 2).Action :=
  [.put RingStream.new.chan q, .fire .manager none, .fire .manager none, .fire .manager none]

/-- A query passes through the pipeline. -/
def pass : List (stepLoop fun _ => 2).Action :=
  [.fire .pipeline (some .accept), .fire .pipeline none, .fire .pipeline (some (.deliver 0)),
    .fire .pipeline none]

/-- A query comes back and goes on, or leaves its slot, while no new one is there. -/
def comeBack : List (stepLoop fun _ => 2).Action :=
  [.fire .manager none, .fire .manager none, .fire .manager none]

/-- A single query with two steps ends the loop. -/
theorem exits_when_drained_lone :
    ∃ tr s, ExitsDrained (lone 2 (by decide)) tr s ∧
      s.regs .manager = .halted ∧ @finished (fun _ => 2) tr = 1 := by
  obtain ⟨tr, s, hx⟩ : ∃ tr s, Network.execute
      (fun s l => Feeds (lone 2 (by decide)) s l ∧ FinalOutlasts s l)
      (arrive (walkOf 2 true) ++ pass ++ comeBack ++ pass ++ [.fire .manager none]) []
      (stepLoop fun _ => 2).init = some (tr, s) := ⟨_, _, rfl⟩
  have hr := Network.execute_run .nil hx
  have hhalt : s.regs .manager = .halted := by
    cases hx
    rfl
  have hexits := exits_when_drained hr
  exact ⟨tr, s, hexits, hhalt, (hexits.drained hhalt).2.2⟩

/-- A final query with one step does not end the loop when it comes back, and a final query
with fewer steps than another one ends it while that one is in flight. -/
theorem exit_missed_or_early :
    (¬∀ (tr : List (stepLoop fun _ => 2).Label) (s : (stepLoop fun _ => 2).State),
      (stepLoop fun _ => 2).GuardedRun (Feeds (lone 1 (by decide))) (stepLoop fun _ => 2).init
        tr s → ExitsDrained (lone 1 (by decide)) tr s) ∧
    ¬∀ (tr : List (stepLoop fun _ => 2).Label) (s : (stepLoop fun _ => 2).State),
      (stepLoop fun _ => 2).GuardedRun (Feeds uneven) (stepLoop fun _ => 2).init tr s →
        ExitsDrained uneven tr s := by
  constructor
  · intro hall
    obtain ⟨tr, s, hx⟩ : ∃ tr s, Network.execute (Feeds (lone 1 (by decide)))
        (arrive (walkOf 1 true) ++ pass ++ comeBack) [] (stepLoop fun _ => 2).init =
          some (tr, s) := ⟨_, _, rfl⟩
    have hr := Network.execute_run .nil hx
    have hfinished : finished tr = 1 := by
      cases hx
      rfl
    have hhalt := (hall tr s hr).exits hfinished
    cases hx
    cases hhalt
  · intro hall
    obtain ⟨tr, s, hx⟩ : ∃ tr s, Network.execute (Feeds uneven)
        (arrive (walkOf 3 false) ++ arrive (walkOf 2 true) ++ pass ++ pass ++ comeBack ++ comeBack ++
          pass ++ pass ++ comeBack ++ [.fire .manager none]) [] (stepLoop fun _ => 2).init =
          some (tr, s) := ⟨_, _, rfl⟩
    have hr := Network.execute_run .nil hx
    have hhalt : s.regs .manager = .halted := by
      cases hx
      rfl
    have hring := ((hall tr s hr).drained hhalt).2.1
    cases hx
    cases hring

end RidgeWalker.Ring
