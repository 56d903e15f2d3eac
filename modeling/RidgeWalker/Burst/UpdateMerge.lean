import RidgeWalker.Burst.Scheduler
import RidgeWalker.Dataflow.Execution

/-!
# Putting the answers back into order

`update_merge` receives the answers to empty descriptors from `vd_scheduler` and all others from
the sampling pipeline, and restores the order of the descriptors from their ids.  The pipeline
belongs to the surroundings: it may answer at any time, but in its own order.

Main results:

- Theorem `update_merge_ordering`: as long as fewer than `2^15` descriptors are outstanding, the
  answers leave in the order of the descriptors, and `step_update` joins each with its query.
-/

namespace RidgeWalker.Burst

open Dataflow Network Memory Cache Wrs Step RidgeWalker.Ring

/-! ## `update_merge` -/

/-- What `update_merge` sends for an answer. -/
def nextVertexPkg (x : NextVertexPkg) : AxiPkg (BitVec 64) := ⟨x.vertex.setWidth 64, x.last⟩

/-- Registers of `update_merge`. -/
inductive MergeRegs where
  | poll1 (m : Holding (BitVec 16) NextVertexPkg)
  | poll2 (m : Holding (BitVec 16) NextVertexPkg)
  | decide (m : Holding (BitVec 16) NextVertexPkg)

/-- What `update_merge` keeps: `current_id`, `pkg_1` and `pkg_2`. -/
def MergeRegs.slots : MergeRegs → Holding (BitVec 16) NextVertexPkg
  | .poll1 m | .poll2 m | .decide m => m

/-- The next answer is polled for if none is held. -/
def pollSlot (c : Fin 2) (m : Holding (BitVec 16) NextVertexPkg)
    (next : Holding (BitVec 16) NextVertexPkg → MergeRegs) :
    Op (fun _ : Fin 2 => NextVertexPkg) (fun _ : Unit => AxiPkg (BitVec 64)) Empty MergeRegs :=
  match m.held c with
  | none => .readNb c fun pkg => next { m with held := Function.update m.held c pkg }
  | some _ => .look fun _ _ => next m

/-- The loop of `update_merge`. -/
def updateMergeKernel :
    Kernel (fun _ : Fin 2 => NextVertexPkg) (fun _ : Unit => AxiPkg (BitVec 64)) where
  σ := MergeRegs
  Ω := Empty
  start := .poll1 ⟨0, fun _ => none⟩
  op
    | .poll1 m => pollSlot 0 m .poll2
    | .poll2 m => pollSlot 1 m .decide
    | .decide m =>
        match m.due NextVertexPkg.id with
        | some (c, x) => .write () (nextVertexPkg x) (.poll1 (m.release syncIds (fun _ => true) c x))
        | none => .look fun _ _ => .poll1 m

/-! ## The network -/

/-- The streams of every sort. -/
inductive IdStream where
  | syncId
  | syncBurstId
deriving DecidableEq

/-- The streams that `update_merge` reads, and what it sends with the fetched vertices. -/
inductive VertexStream where
  | merged
  | fetched
deriving DecidableEq

/-- The queries before and after their update. -/
inductive QueryStream where
  | origin
  | newQuery
deriving DecidableEq

abbrev MergeStream : BurstSort → Type
  | .id => IdStream
  | .descriptor => Unit
  | .state => Unit
  | .next => Fin 2
  | .cmd => Unit
  | .ordered => Unit
  | .step .query => QueryStream
  | .step .vertex => VertexStream

instance : (s : BurstSort) → DecidableEq (MergeStream s)
  | .id => inferInstanceAs (DecidableEq IdStream)
  | .descriptor => inferInstanceAs (DecidableEq Unit)
  | .state => inferInstanceAs (DecidableEq Unit)
  | .next => inferInstanceAs (DecidableEq (Fin 2))
  | .cmd => inferInstanceAs (DecidableEq Unit)
  | .ordered => inferInstanceAs (DecidableEq Unit)
  | .step .query => inferInstanceAs (DecidableEq QueryStream)
  | .step .vertex => inferInstanceAs (DecidableEq VertexStream)

/-- The ids of `sync_id_gen`. -/
abbrev IdStream.chan (c : IdStream) : Chan MergeStream := ⟨.id, c⟩

/-- The descriptors that `vd_scheduler` receives. -/
abbrev descriptors : Chan MergeStream := ⟨.descriptor, ()⟩

/-- The states that `vd_scheduler` receives. -/
abbrev states : Chan MergeStream := ⟨.state, ()⟩

/-- The answers that `update_merge` receives: those of `vd_scheduler` and those of the sampling
pipeline. -/
abbrev answer (c : Fin 2) : Chan MergeStream := ⟨.next, c⟩

abbrev singleBurst : Chan MergeStream := ⟨.cmd, ()⟩

abbrev dynamicBurstVd : Chan MergeStream := ⟨.ordered, ()⟩

abbrev VertexStream.chan (c : VertexStream) : Chan MergeStream := ⟨.step .vertex, c⟩

abbrev QueryStream.chan (c : QueryStream) : Chan MergeStream := ⟨.step .query, c⟩

/-- The kernels around `update_merge`. -/
inductive MergeProc where
  | syncIdGen
  | syncBurstGen
  | vdScheduler
  | updateMerge
  | fetchNext
  | stepUpdate
deriving DecidableEq

instance : Fintype MergeProc :=
  ⟨{.syncIdGen, .syncBurstGen, .vdScheduler, .updateMerge, .fetchNext, .stepUpdate},
    fun x => by cases x <;> decide⟩

/-- `sync_id_gen_instance` and `sync_burst_gen` in `sync_id_gen`. -/
def syncIdGen (output : IdStream) : Call MergeStream BurstWord where
  In := Empty
  Out := Unit
  src i := i.elim
  dst _ := output.chan
  kernel := syncIdGenKernel _

/-- `vd_scheduler`. -/
def vdScheduler : Call MergeStream BurstWord where
  In := SchedulerIn
  Out := SchedulerOut
  src i := ⟨i.sort, match i with
    | .syncId => IdStream.syncId
    | .syncBurstId => IdStream.syncBurstId
    | .input => ()
    | .stateIn => ()⟩
  dst o := ⟨o.sort, match o with
    | .dynamicBurstVd => ()
    | .update => (0 : Fin 2)
    | .singleBurst => ()⟩
  kernel := vdSchedulerKernel dynamicBurstMaxLength

/-- `update_merge`. -/
def updateMerge : Call MergeStream BurstWord where
  In := Fin 2
  Out := Unit
  src c := answer c
  dst _ := VertexStream.merged.chan
  kernel := updateMergeKernel

/-- `fetch_next_instance` in `fetch_next`. -/
def fetchNext (vertex : BitVec 32 → BitVec 32) : Call MergeStream BurstWord where
  In := Unit
  Out := Unit
  src _ := VertexStream.merged.chan
  dst _ := VertexStream.fetched.chan
  kernel := fetchNextKernel vertex

/-- `step_update` in `fetch_next`. -/
def stepUpdateCall : Call MergeStream BurstWord where
  In := UpdateIn
  Out := Unit
  src i := ⟨.step i.sort, match i with
    | .origin => QueryStream.origin
    | .update => VertexStream.fetched⟩
  dst _ := QueryStream.newQuery.chan
  kernel := stepUpdateKernel

/-- The scheduler, the merger and the update of the queries. -/
def mergeNet (vertex : BitVec 32 → BitVec 32) (depth : Chan MergeStream → ℕ) :
    Network MergeProc MergeStream BurstWord where
  node
    | .syncIdGen => syncIdGen .syncId
    | .syncBurstGen => syncIdGen .syncBurstId
    | .vdScheduler => vdScheduler
    | .updateMerge => updateMerge
    | .fetchNext => fetchNext vertex
    | .stepUpdate => stepUpdateCall
  depth := depth

variable {vertex : BitVec 32 → BitVec 32} {depth : Chan MergeStream → ℕ}

theorem mergeNet_pointToPoint : (mergeNet vertex depth).PointToPoint := by
  constructor
  · rintro ⟨p, i⟩ ⟨q, j⟩ h
    cases p <;> cases q <;> cases i <;> cases j <;> cases h <;> rfl
  · rintro ⟨p, i⟩ ⟨q, j⟩ h
    cases p <;> cases q <;> cases i <;> cases j <;> cases h <;> rfl

/-! ## The order of the descriptors -/

/-- The place of the answer to the k-th descriptor. -/
def tagOf (x : AxiPkg VertexDescriptor × ℕ) : Tag := ⟨if x.1.data.size = 0#32 then 0 else 1, x.2, true⟩

/-- The places of the answers to the descriptors, of which the first is the k-th. -/
def tagsFrom (k : ℕ) (D : List (AxiPkg VertexDescriptor)) : List Tag := (D.zipIdx k).map tagOf

theorem tagsFrom_cons (k : ℕ) (d : AxiPkg VertexDescriptor) (D : List (AxiPkg VertexDescriptor)) :
    tagsFrom k (d :: D) = tagOf (d, k) :: tagsFrom (k + 1) D := by
  simp [tagsFrom, List.zipIdx_cons]

@[simp] theorem length_tagsFrom (k : ℕ) (D : List (AxiPkg VertexDescriptor)) :
    (tagsFrom k D).length = D.length := by
  simp [tagsFrom]

theorem tagsFrom_isPrefix (k : ℕ) {D D' : List (AxiPkg VertexDescriptor)} (h : D <+: D') :
    tagsFrom k D <+: tagsFrom k D' := by
  obtain ⟨t, rfl⟩ := h
  rw [tagsFrom, tagsFrom, List.zipIdx_append, List.map_append]
  exact List.prefix_append _ _

/-- Every answer is a group of its own. -/
theorem tagsFrom_grouped (k : ℕ) (D : List (AxiPkg VertexDescriptor)) : Grouped k (tagsFrom k D) := by
  induction D generalizing k with
  | nil => exact .nil k
  | cons d D ih =>
      rw [tagsFrom_cons]
      exact .ends (ih (k + 1))

theorem tagsFrom_group_lt (D : List (AxiPkg VertexDescriptor)) : ∀ t ∈ tagsFrom 0 D,
    t.group < D.length := by
  intro t ht
  obtain ⟨⟨d, k⟩, hx, rfl⟩ := List.mem_map.mp ht
  exact (List.mem_zipIdx' hx).1

theorem ended_take_tagsFrom {D : List (AxiPkg VertexDescriptor)} {n : ℕ} (h : n ≤ D.length) :
    ended ((tagsFrom 0 D).take n) = n := by
  have hall : ∀ t ∈ (tagsFrom 0 D).take n, t.ends = true := by
    intro t ht
    obtain ⟨x, -, rfl⟩ := List.mem_map.mp (List.mem_of_mem_take ht)
    rfl
  rw [ended, List.countP_eq_length.mpr hall, List.length_take, length_tagsFrom]
  omega

/-- The numbers and end flags of the places of one stream. -/
def numbersOn (c : Fin 2) (T : List Tag) : List (BitVec 16 × Bool) :=
  (T.filter fun t => t.side = c).map fun t => (syncIds.num t.group, t.ends)

theorem numbersOn_cons (c : Fin 2) (t : Tag) (T : List Tag) :
    numbersOn c (t :: T) =
      if t.side = c then (syncIds.num t.group, t.ends) :: numbersOn c T else numbersOn c T := by
  by_cases hside : t.side = c <;> simp [numbersOn, hside]

/-- The answers to the empty descriptors. -/
def shortcuts (k : ℕ) (D : List (AxiPkg VertexDescriptor)) : List NextVertexPkg :=
  (D.zipIdx k).filterMap fun x =>
    if x.1.data.size = 0#32 then some ⟨0x80000000#32, syncIds.num x.2, x.1.last⟩ else none

theorem shortcuts_cons (k : ℕ) (d : AxiPkg VertexDescriptor) (D : List (AxiPkg VertexDescriptor)) :
    shortcuts k (d :: D) =
      if d.data.size = 0#32 then ⟨0x80000000#32, syncIds.num k, d.last⟩ :: shortcuts (k + 1) D
      else shortcuts (k + 1) D := by
  by_cases hsize : d.data.size = 0#32 <;> simp [shortcuts, List.zipIdx_cons, hsize]

theorem shortcuts_isPrefix (k : ℕ) {D D' : List (AxiPkg VertexDescriptor)} (h : D <+: D') :
    shortcuts k D <+: shortcuts k D' := by
  obtain ⟨t, rfl⟩ := h
  rw [shortcuts, shortcuts, List.zipIdx_append, List.filterMap_append]
  exact List.prefix_append _ _

/-- The answers to the empty descriptors carry the numbers of their places. -/
theorem shortcuts_numbers (k : ℕ) (D : List (AxiPkg VertexDescriptor)) :
    (shortcuts k D).map (fun x => (x.id, true)) = numbersOn 0 (tagsFrom k D) := by
  induction D generalizing k with
  | nil => rfl
  | cons d D ih =>
      rw [shortcuts_cons, tagsFrom_cons, numbersOn_cons, ← ih (k + 1)]
      by_cases hsize : d.data.size = 0#32 <;> simp [hsize, tagOf]

/-- What `vd_scheduler` sends for descriptors with the ids in order. -/
theorem sends_update (k : ℕ) (rounds : List Dispatch)
    (hids : rounds.map Dispatch.id = (List.range' k rounds.length).map syncIds.num) :
    rounds.flatMap (fun d => d.sends .update ++ d.stops dynamicBurstMaxLength .update) =
      shortcuts k (rounds.map Dispatch.pkg) := by
  induction rounds generalizing k with
  | nil => rfl
  | cons d rounds ih =>
      simp only [List.map_cons, List.length_cons, List.range'_succ, List.cons.injEq] at hids
      rw [List.flatMap_cons, ih (k + 1) hids.2, List.map_cons, shortcuts_cons]
      by_cases hsize : d.pkg.data.size = 0#32
      · simp [Dispatch.sends, Dispatch.stops, Dispatch.isEmpty, Dispatch.updatePkg, hsize, hids.1]
      · simp [Dispatch.sends, Dispatch.stops, Dispatch.isEmpty, hsize]

/-- The ids of the descriptors that are not empty. -/
def askedIds (D : List (AxiPkg VertexDescriptor)) (ids : List (BitVec 16)) : List (BitVec 16) :=
  (D.zip ids).filterMap fun x => if x.1.data.size = 0#32 then none else some x.2

theorem askedIds_isPrefix {D D' : List (AxiPkg VertexDescriptor)} {ids ids' : List (BitVec 16)}
    (hD : D <+: D') (hids : ids <+: ids') : askedIds D ids <+: askedIds D' ids' :=
  (zipWith_isPrefix Prod.mk hD hids).filterMap _

/-- Ids in order are the numbers of the places that the pipeline is to fill. -/
theorem askedIds_numbers (k : ℕ) (D : List (AxiPkg VertexDescriptor)) {ids : List (BitVec 16)}
    {m : ℕ} (hids : ids = (List.range' k m).map syncIds.num) :
    (askedIds D ids).map (fun id => (id, true)) <+: numbersOn 1 (tagsFrom k D) ∧
      (D.length ≤ m →
        (askedIds D ids).map (fun id => (id, true)) = numbersOn 1 (tagsFrom k D)) := by
  subst hids
  induction D generalizing k m with
  | nil => exact ⟨List.nil_prefix, fun _ => rfl⟩
  | cons d D ih =>
      cases m with
      | zero => exact ⟨by simp [askedIds], fun h => by simp at h⟩
      | succ m =>
          obtain ⟨hpre, heq⟩ := ih (k + 1) (m := m)
          rw [tagsFrom_cons, numbersOn_cons]
          by_cases hsize : d.data.size = 0#32
          · refine ⟨?_, fun h => ?_⟩
            · simpa [askedIds, List.range'_succ, hsize, tagOf] using hpre
            · simpa [askedIds, List.range'_succ, hsize, tagOf] using heq (by simpa using h)
          · refine ⟨?_, fun h => ?_⟩
            · simpa [askedIds, List.range'_succ, hsize, tagOf] using hpre
            · simpa [askedIds, List.range'_succ, hsize, tagOf] using heq (by simpa using h)

/-- The answers to descriptors in order: an empty descriptor is a dead end, every other one takes
the next answer of the pipeline. -/
def answers : List (AxiPkg VertexDescriptor) → List NextVertexPkg → List (AxiPkg (BitVec 64))
  | [], _ => []
  | d :: D, P =>
      if d.data.size = 0#32 then ⟨0x80000000#64, d.last⟩ :: answers D P
      else
        match P with
        | x :: P => nextVertexPkg x :: answers D P
        | [] => []

/-- The answers in order are both streams of answers woven together. -/
theorem weave_answers (k : ℕ) (D : List (AxiPkg VertexDescriptor)) (P : List NextVertexPkg) :
    (weave (sides (tagsFrom k D)) ![shortcuts k D, P]).map nextVertexPkg = answers D P := by
  induction D generalizing k P with
  | nil => rfl
  | cons d D ih =>
      rw [tagsFrom_cons, shortcuts_cons]
      by_cases hsize : d.data.size = 0#32
      · have hupdate : ∀ x, Function.update ![x :: shortcuts (k + 1) D, P] 0 (shortcuts (k + 1) D) =
            ![shortcuts (k + 1) D, P] := by
          intro x
          ext1 c
          fin_cases c <;> rfl
        simp only [sides, List.map_cons, tagOf, hsize, if_true, weave, answers, Matrix.cons_val_zero,
          hupdate]
        congr 1
        exact ih (k + 1) P
      · cases P with
        | nil => simp [sides, tagOf, hsize, weave, answers]
        | cons x P =>
            have hupdate : Function.update ![shortcuts (k + 1) D, x :: P] 1 P =
                ![shortcuts (k + 1) D, P] := by
              ext1 c
              fin_cases c <;> rfl
            simp only [sides, List.map_cons, tagOf, hsize, if_false, weave, answers,
              Matrix.cons_val_one, Matrix.cons_val_zero, hupdate]
            congr 1
            exact ih (k + 1) P

/-! ## Runs -/

section Runs

/-- The ids of the descriptors that are not empty, as `vd_scheduler` has read them. -/
def asked (s : (mergeNet vertex depth).State) : List (BitVec 16) :=
  askedIds (s.taken descriptors) (s.taken IdStream.syncId.chan)

/-- The sampling pipeline keeps its own order: its next answer is that to the next descriptor
that is not empty. -/
def PipelineInOrder (s : (mergeNet vertex depth).State) : (mergeNet vertex depth).Label → Prop
  | .put ⟨.next, _⟩ x => (asked s)[(s.written (answer 1)).length]? = some x.id
  | _ => True

instance (s : (mergeNet vertex depth).State) (l : (mergeNet vertex depth).Label) :
    Decidable (PipelineInOrder s l) :=
  match l with
  | .put ⟨.next, _⟩ x =>
      inferInstanceAs (Decidable ((asked s)[(s.written (answer 1)).length]? = some x.id))
  | .put ⟨.id, _⟩ _ | .put ⟨.descriptor, _⟩ _ | .put ⟨.state, _⟩ _ | .put ⟨.cmd, _⟩ _
  | .put ⟨.ordered, _⟩ _ | .put ⟨.step _, _⟩ _ | .fire _ _ _ | .take _ _ =>
      inferInstanceAs (Decidable True)

/-- Fewer than `2^15` descriptors are outstanding, and the sampling pipeline keeps its order. -/
def InOrder (s : (mergeNet vertex depth).State) (l : (mergeNet vertex depth).Label) : Prop :=
  (s.taken descriptors).length < (s.written VertexStream.merged.chan).length + 2 ^ 15 ∧
    PipelineInOrder s l

/-- Nothing is under way: no descriptor waits to be dispatched, the pipeline has answered all
it was asked, no answer waits to be read, and `update_merge` waits. -/
structure Idle (s : (mergeNet vertex depth).State) : Prop where
  scheduler : s.regs .vdScheduler = SchedulerRegs.poll
  descriptors : (s.fifo descriptors).queue = []
  answers : ∀ c, (s.fifo (answer c)).queue = []
  answered : (s.written (answer 1)).length = (asked s).length
  waits : (MergeRegs.slots (s.regs .updateMerge)).due NextVertexPkg.id = none

variable {s : (mergeNet vertex depth).State}

/-- The first numbers are the numbers in order. -/
theorem eq_numbers {l : List (BitVec 16)} {m : ℕ}
    (h : l <+: (List.range' 0 m).map syncIds.num) :
    l = (List.range' 0 l.length).map syncIds.num := by
  have hlen : l.length ≤ m := by simpa using h.length_le
  have htake := List.prefix_iff_eq_take.mp h
  rwa [← List.map_take, List.take_range'_of_length_ge hlen] at htake

/-- The ids are the numbers in order. -/
theorem syncId_taken (hs : (mergeNet vertex depth).Reachable s) :
    s.taken IdStream.syncId.chan <+:
      (List.range' 0 (s.written IdStream.syncId.chan).length).map syncIds.num := by
  have hids : s.written IdStream.syncId.chan =
      (List.range (s.written IdStream.syncId.chan).length).map syncIds.num :=
    syncIdGenKernel_path (hs.path mergeNet_pointToPoint .syncIdGen)
  rw [← List.range_eq_range', ← hids]
  exact s.taken_isPrefix IdStream.syncId.chan

/-- What `vd_scheduler` has done for the descriptors it has received. -/
theorem scheduler_rounds (hs : (mergeNet vertex depth).Reachable s) :
    ∃ rounds : List Dispatch, rounds.map Dispatch.pkg <+: s.taken descriptors ∧
      s.written (answer 0) <+: shortcuts 0 (rounds.map Dispatch.pkg) ∧
      (s.regs .vdScheduler = SchedulerRegs.poll →
        s.taken descriptors = rounds.map Dispatch.pkg ∧
        (s.taken IdStream.syncId.chan).length = rounds.length ∧
        s.written (answer 0) = shortcuts 0 (rounds.map Dispatch.pkg)) := by
  obtain ⟨rounds, hreceived, hsent, hreceivedEq, hsentEq⟩ :=
    (vdSchedulerRounds dynamicBurstMaxLength).fires (vdSchedulerRounds_sound _)
      (hs.path mergeNet_pointToPoint .vdScheduler)
  have hread : rounds.map Dispatch.id <+: s.taken IdStream.syncId.chan := hreceived .syncId
  have hids := eq_numbers (hread.trans (syncId_taken hs))
  rw [List.length_map] at hids
  have hupdate := sends_update 0 rounds hids
  have hanswers : s.written (answer 0) <+: shortcuts 0 (rounds.map Dispatch.pkg) := by
    rw [← hupdate]
    exact hsent .update
  refine ⟨rounds, hreceived .input, hanswers, fun hpoll => ?_⟩
  have hbetween :
      (∀ i, (vdSchedulerRounds dynamicBurstMaxLength).got (s.regs .vdScheduler) i = []) ∧
        ∀ o, (vdSchedulerRounds dynamicBurstMaxLength).owes (s.regs .vdScheduler) o = [] := by
    rw [hpoll]
    exact ⟨fun i => by cases i <;> rfl, fun o => by cases o <;> rfl⟩
  refine ⟨hreceivedEq hbetween .input, ?_, ?_⟩
  · have heq : s.taken IdStream.syncId.chan = rounds.map Dispatch.id :=
      hreceivedEq hbetween .syncId
    rw [heq, List.length_map]
  · rw [← hupdate]
    exact hsentEq hbetween .update

/-- The answers of the pipeline are those it was asked for, in order. -/
theorem answered_isPrefix {tr} (hr : (mergeNet vertex depth).GuardedRun InOrder
    (mergeNet vertex depth).init tr s) :
    (s.written (answer 1)).map NextVertexPkg.id <+: asked s := by
  have hunwritten : ∀ p o, ((mergeNet vertex depth).node p).dst o ≠ answer 1 := by
    intro p o h
    cases p <;> cases o <;> cases h
  induction hr with
  | nil => exact List.nil_prefix
  | @snoc tr s l s' hr hok hs ih =>
      have hgrow : asked s <+: asked s' :=
        askedIds_isPrefix (hs.taken_mono _) (hs.taken_mono _)
      rcases hs.written_fed hunwritten with hsame | ⟨x, rfl, hput⟩
      · rw [hsame]
        exact ih.trans hgrow
      · -- The answer written is the next one asked for.
        obtain ⟨t, ht⟩ := ih
        have hnext : (asked s)[(s.written (answer 1)).length]? = some x.id := hok.2
        rw [← ht, List.getElem?_append_right (by simp)] at hnext
        simp only [List.length_map, Nat.sub_self] at hnext
        rcases t with _ | ⟨id, rest⟩
        · simp at hnext
        · simp only [List.getElem?_cons_zero, Option.some.injEq] at hnext
          subst hnext
          refine List.IsPrefix.trans ⟨rest, ?_⟩ hgrow
          rw [hput, List.map_append, List.append_assoc, ← ht]
          rfl

/-- Both streams of answers carry the numbers of their places. -/
theorem answers_carry {tr} (hr : (mergeNet vertex depth).GuardedRun InOrder
    (mergeNet vertex depth).init tr s) (c : Fin 2) :
    Carries syncIds NextVertexPkg.id (fun _ => true) (tagsFrom 0 (s.taken descriptors)) c
      (s.taken (answer c)) := by
  have hs : (mergeNet vertex depth).Reachable s := ⟨tr, hr.run⟩
  refine ((s.taken_isPrefix (answer c)).map _).trans ?_
  change _ <+: numbersOn c _
  fin_cases c
  · obtain ⟨rounds, hreceived, hsent, -⟩ := scheduler_rounds hs
    have hnumbers := hsent.map fun x => (x.id, true)
    rw [shortcuts_numbers] at hnumbers
    exact hnumbers.trans (((tagsFrom_isPrefix 0 hreceived).filter _).map _)
  · have hasked := (answered_isPrefix hr).map fun id => (id, true)
    rw [List.map_map] at hasked
    exact hasked.trans
      ((askedIds_isPrefix (List.prefix_refl _) (syncId_taken hs)).map _ |>.trans
        (askedIds_numbers 0 _ rfl).1)

/-- What `update_merge` holds, has received and has sent. -/
def Merging (D : List (AxiPkg VertexDescriptor)) (r : MergeRegs) (R : Fin 2 → List NextVertexPkg)
    (S : Unit → List (AxiPkg (BitVec 64))) : Prop :=
  ∃ out : List NextVertexPkg, S () = out.map nextVertexPkg ∧
    Sequenced syncIds (tagsFrom 0 D) r.slots R out

/-- Polling for an answer keeps what `update_merge` has sent in order. -/
theorem merging_poll {D : List (AxiPkg VertexDescriptor)} {m : Holding (BitVec 16) NextVertexPkg}
    {R : Fin 2 → List NextVertexPkg} {S : Unit → List (AxiPkg (BitVec 64))} {c : Fin 2}
    {next : Holding (BitVec 16) NextVertexPkg → MergeRegs} (hnext : ∀ m, (next m).slots = m)
    {W : Fin 2 → List NextVertexPkg} (h : Merging D (.poll1 m) R S) :
    updateMergeKernel.Keeps (fun r R S => (∀ i, R i <+: W i) → Merging D r R S) R S
      (pollSlot c m next) := by
  obtain ⟨out, hS, hout⟩ := h
  unfold pollSlot
  rcases hheld : m.held c with _ | x
  · refine ⟨fun _ => ⟨out, hS, ?_⟩, fun x _ => ⟨out, hS, ?_⟩⟩
    · rw [hnext, ← hheld, Function.update_eq_self]
      exact hout
    · rw [hnext]
      exact hout.take hheld x
  · intro _ _ _
    refine ⟨out, hS, ?_⟩
    rw [hnext]
    exact hout

/-- An answer that is let through is the next one in the order of the descriptors. -/
theorem merging_decide {D : List (AxiPkg VertexDescriptor)} {m : Holding (BitVec 16) NextVertexPkg}
    {R : Fin 2 → List NextVertexPkg} {S : Unit → List (AxiPkg (BitVec 64))}
    (hbound : D.length < (S ()).length + 2 ^ 15)
    (hcarries : ∀ c, Carries syncIds NextVertexPkg.id (fun _ => true) (tagsFrom 0 D) c (R c))
    {W : Fin 2 → List NextVertexPkg} (h : Merging D (.decide m) R S) :
    updateMergeKernel.Keeps (fun r R S => (∀ i, R i <+: W i) → Merging D r R S) R S
      (updateMergeKernel.op (.decide m)) := by
  obtain ⟨out, hS, hout⟩ := h
  cases hdue : m.due NextVertexPkg.id with
  | none =>
      have hop : updateMergeKernel.op (.decide m) = .look fun _ _ => .poll1 m := by
        simp [updateMergeKernel, hdue]
      rw [hop]
      exact fun _ _ _ => ⟨out, hS, hout⟩
  | some y =>
      obtain ⟨c, x⟩ := y
      have hop : updateMergeKernel.op (.decide m) = .write () (nextVertexPkg x)
          (.poll1 (m.release syncIds (fun _ => true) c x)) := by
        simp [updateMergeKernel, hdue]
      rw [hop]
      have hgroups : ∀ t ∈ tagsFrom 0 D,
          t.group < ended ((tagsFrom 0 D).take out.length) + syncIds.period := by
        intro t ht
        have hgroup := tagsFrom_group_lt D t ht
        rw [ended_take_tagsFrom (by simpa using hout.le)]
        rw [hS, List.length_map] at hbound
        exact hgroup.trans hbound
      intro _
      refine ⟨out ++ [x], ?_, hout.emit (tagsFrom_grouped 0 D) hgroups hcarries hdue⟩
      rw [Function.update_self, List.map_append, hS]
      rfl

/-- What `update_merge` has sent are the answers in the order of the descriptors. -/
theorem merging {tr} (hr : (mergeNet vertex depth).GuardedRun InOrder
    (mergeNet vertex depth).init tr s) :
    Merging (s.taken descriptors) (s.regs .updateMerge) (fun c => s.taken (answer c))
      (fun _ => s.written VertexStream.merged.chan) := by
  refine hr.keeps mergeNet_pointToPoint (p := .updateMerge)
    (I := fun s (r : MergeRegs) R S => Merging (s.taken descriptors) r R S) ?_ ?_ ?_
  · exact ⟨[], rfl, Nat.zero_le _, rfl, fun c => ⟨[], rfl, rfl⟩, rfl⟩
  · intro tr s l hr hok hI
    cases hregs : s.regs .updateMerge with
    | poll1 m =>
        rw [hregs] at hI
        exact merging_poll (fun _ => rfl) hI
    | poll2 m =>
        rw [hregs] at hI
        exact merging_poll (fun _ => rfl) hI
    | decide m =>
        rw [hregs] at hI
        exact merging_decide hok.1 (answers_carry hr) hI
  · rintro tr s l s' - - hs r R S ⟨out, hS, hout⟩
    exact ⟨out, hS, hout.grow (tagsFrom_isPrefix 0 (hs.taken_mono descriptors))⟩

/-- The answers leave in the order of the descriptors. -/
theorem merged_isPrefix {tr} (hr : (mergeNet vertex depth).GuardedRun InOrder
    (mergeNet vertex depth).init tr s) :
    s.written VertexStream.merged.chan <+: answers (s.taken descriptors) (s.written (answer 1)) := by
  have hs : (mergeNet vertex depth).Reachable s := ⟨tr, hr.run⟩
  obtain ⟨out, hS, hout⟩ := merging hr
  obtain ⟨rounds, hreceived, hsent, -⟩ := scheduler_rounds hs
  have hmono : ∀ c, s.taken (answer c) <+:
      ![shortcuts 0 (s.taken descriptors), s.written (answer 1)] c := by
    intro c
    fin_cases c
    · exact (s.taken_isPrefix (answer 0)).trans (hsent.trans (shortcuts_isPrefix 0 hreceived))
    · exact s.taken_isPrefix (answer 1)
  rw [← weave_answers 0, show s.written VertexStream.merged.chan = out.map nextVertexPkg from hS]
  refine List.IsPrefix.map _ ?_
  have htake : sides ((tagsFrom 0 (s.taken descriptors)).take out.length) =
      (sides (tagsFrom 0 (s.taken descriptors))).take out.length := List.map_take
  rw [hout.woven, ← weave_mono hmono hout.count_le, htake]
  exact weave_take _ _ _

/-- Once nothing is under way every descriptor has been answered. -/
theorem merged_idle {tr} (hr : (mergeNet vertex depth).GuardedRun InOrder
    (mergeNet vertex depth).init tr s) (hidle : Idle s) :
    s.written VertexStream.merged.chan =
        answers (s.written descriptors) (s.written (answer 1)) ∧
      (s.written VertexStream.merged.chan).length = (s.written descriptors).length := by
  have hs : (mergeNet vertex depth).Reachable s := ⟨tr, hr.run⟩
  obtain ⟨out, hS, hout⟩ := merging hr
  obtain ⟨rounds, -, -, hpoll⟩ := scheduler_rounds hs
  obtain ⟨hreceived, hids, hsent⟩ := hpoll hidle.scheduler
  have hD : s.taken descriptors = s.written descriptors :=
    Network.State.taken_eq_written hidle.descriptors
  have hR : ∀ c, s.taken (answer c) =
      ![shortcuts 0 (s.taken descriptors), s.written (answer 1)] c := by
    intro c
    rw [Network.State.taken_eq_written (hidle.answers c)]
    fin_cases c
    · rw [hreceived]
      exact hsent
    · rfl
  have hpipeline : (s.written (answer 1)).map (fun x => (x.id, true)) =
      numbersOn 1 (tagsFrom 0 (s.taken descriptors)) := by
    have heq := (answered_isPrefix hr).eq_of_length (by simpa using hidle.answered)
    have hnumbers := (askedIds_numbers 0 (s.taken descriptors) (eq_numbers (syncId_taken hs))).2
      (by rw [hids, hreceived, List.length_map])
    rw [← hnumbers]
    change _ = (asked s).map _
    rw [← heq, List.map_map]
    rfl
  have hall : ∀ c, (s.taken (answer c)).map (fun x => (x.id, true)) =
      numbersOn c (tagsFrom 0 (s.taken descriptors)) := by
    intro c
    rw [hR]
    fin_cases c
    · exact shortcuts_numbers 0 _
    · exact hpipeline
  have hlen := hout.complete (tagsFrom_grouped 0 _) hall hidle.waits
  have hwoven := hout.woven
  rw [hlen, List.take_length, funext hR] at hwoven
  have hmerged : s.written VertexStream.merged.chan = out.map nextVertexPkg := hS
  rw [hmerged, ← hD]
  refine ⟨?_, ?_⟩
  · rw [hwoven, weave_answers]
  · rw [List.length_map, hlen, length_tagsFrom]

/-- Each query is updated with the answer to its own descriptor. -/
theorem newQuery_isPrefix {tr} (hr : (mergeNet vertex depth).GuardedRun InOrder
    (mergeNet vertex depth).init tr s) :
    s.written QueryStream.newQuery.chan <+:
      List.zipWith newStepPkg (s.written QueryStream.origin.chan)
        ((answers (s.taken descriptors) (s.written (answer 1))).map (fetched vertex)) := by
  have hs : (mergeNet vertex depth).Reachable s := ⟨tr, hr.run⟩
  have hfetch : s.written VertexStream.fetched.chan ++ FetchRegs.pending (s.regs .fetchNext) =
      (s.taken VertexStream.merged.chan).map (fetched vertex) :=
    fetchNextKernel_path (hs.path mergeNet_pointToPoint .fetchNext)
  have hfetched : s.written VertexStream.fetched.chan <+:
      (s.taken VertexStream.merged.chan).map (fetched vertex) := ⟨_, hfetch⟩
  obtain ⟨updated, hupdating⟩ := stepUpdateKernel_path (hs.path mergeNet_pointToPoint .stepUpdate)
  refine hupdating.isPrefix (s.taken_isPrefix QueryStream.origin.chan) ?_
  exact ((s.taken_isPrefix VertexStream.fetched.chan).trans hfetched).trans
    (((s.taken_isPrefix VertexStream.merged.chan).trans (merged_isPrefix hr)).map _)

end Runs

/-- For every sequence of descriptors and every interleaving and delay of the two paths, as long
as fewer than `2^15` descriptors are outstanding and the sampling pipeline keeps its order,
`update_merge` sends the answers in the order of the descriptors, one for each, and the k-th of
them updates the k-th query. -/
theorem update_merge_ordering (vertex : BitVec 32 → BitVec 32) (depth : Chan MergeStream → ℕ)
    {tr : List (mergeNet vertex depth).Label} {s : (mergeNet vertex depth).State}
    (hr : (mergeNet vertex depth).GuardedRun InOrder (mergeNet vertex depth).init tr s) :
    s.written VertexStream.merged.chan <+: answers (s.taken descriptors) (s.written (answer 1)) ∧
      (Idle s →
        s.written VertexStream.merged.chan =
            answers (s.written descriptors) (s.written (answer 1)) ∧
          (s.written VertexStream.merged.chan).length = (s.written descriptors).length) ∧
      s.written QueryStream.newQuery.chan <+:
        List.zipWith newStepPkg (s.written QueryStream.origin.chan)
          ((answers (s.taken descriptors) (s.written (answer 1))).map (fetched vertex)) :=
  ⟨merged_isPrefix hr, merged_idle hr, newQuery_isPrefix hr⟩

/-- Column list whose k-th entry is `100 + k`. -/
def hundreds (k : BitVec 32) : BitVec 32 := 100#32 + k

/-- The network on that list and on streams that hold two words. -/
abbrev smallNet : Network MergeProc MergeStream BurstWord := mergeNet hundreds fun _ => 2

/-- A query for its second but last step. -/
def threeSteps (v : BitVec 32) : StepMetadataPkg := ⟨⟨v, 3, 0, 0, 0⟩, false⟩

/-- `vd_scheduler` receives a descriptor within one line and the last, which is empty; the empty
one is answered first. -/
def dispatching : List smallNet.Action :=
  [.put QueryStream.origin.chan (threeSteps 1), .put QueryStream.origin.chan (threeSteps 2),
    .put descriptors ⟨⟨16, 3⟩, false⟩, .put descriptors ⟨⟨40, 0⟩, true⟩, .put states 0,
    .put states 0] ++ List.replicate 2 (.fire .syncIdGen none) ++ [.fire .syncBurstGen none] ++
      List.replicate 11 (.fire .vdScheduler none) ++ List.replicate 3 (.fire .updateMerge none)

/-- The pipeline answers the other descriptor, and both queries are updated. -/
def answering : List smallNet.Action :=
  [.put (answer 1) ⟨17, 0, false⟩] ++ List.replicate 6 (.fire .updateMerge none) ++
    List.replicate 4 (.fire .fetchNext none) ++ List.replicate 6 (.fire .stepUpdate none)

/-- At most two descriptors are outstanding, and the sampling pipeline keeps its order. -/
abbrev SmallInOrder (s : smallNet.State) (l : smallNet.Label) : Prop :=
  (s.taken descriptors).length < (s.written VertexStream.merged.chan).length + 3 ∧
    PipelineInOrder s l

/-- An answer that comes first but is due second leaves second. -/
theorem update_merge_ordering_late : ∃ s : smallNet.State, Idle s ∧
    s.written VertexStream.merged.chan = [⟨17, false⟩, ⟨0x80000000, true⟩] ∧
    s.written VertexStream.merged.chan = answers (s.written descriptors) (s.written (answer 1)) ∧
    (s.written QueryStream.newQuery.chan).map (fun q => q.data.currVertex) =
      [117, 0x80000002#32] := by
  obtain ⟨tr, s, hs⟩ : ∃ tr s, Network.execute SmallInOrder (dispatching ++ answering) []
      smallNet.init = some (tr, s) := ⟨_, _, rfl⟩
  have hr : smallNet.GuardedRun InOrder smallNet.init tr s :=
    (Network.execute_run .nil hs).mono fun s l h => ⟨by have := h.1; omega, h.2⟩
  obtain ⟨-, hall, -⟩ := update_merge_ordering hundreds (fun _ => 2) hr
  have hidle : Idle s := by
    cases hs
    refine ⟨rfl, rfl, fun c => ?_, rfl, rfl⟩
    fin_cases c <;> rfl
  refine ⟨s, hidle, ?_, (hall hidle).1, ?_⟩
  · cases hs
    decide +kernel
  · cases hs
    decide +kernel

end RidgeWalker.Burst
