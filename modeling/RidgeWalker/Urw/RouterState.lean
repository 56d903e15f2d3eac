import RidgeWalker.Dataflow.Execution
import RidgeWalker.Urw.Statistic

/-!
# The totals of `router_state`

Eight processes count the tasks they forward and send their counters again and again, without
waiting for room.  `debug_dump` adds one sample of each, so that a total mixes samples of different
ages.

Main results:

- Theorem `published_totals`: the totals do not decrease and do not exceed what has been forwarded.
- Theorem `published_exact`: without new tasks, the totals of fresh samples are exact.
- Theorem `routerState_totals`: both, for every interleaving.
-/

namespace RidgeWalker.Urw

open Dataflow

/-! ## The network -/

/-- The processes of `router_state`. -/
inductive RouterStateProc where
  | stateInstance (i : Fin 8)
  | debugDump
deriving DecidableEq, Fintype

/-- `router_state` alone: whoever reads the totals belongs to the surroundings. -/
def routerState (depth : Chan StatisticChan → ℕ) :
    Network RouterStateProc StatisticChan UrwWord where
  node
    | .stateInstance i => statisticCall (.stateInstance i)
    | .debugDump => statisticCall .debugDump
  depth := depth

variable {depth : Chan StatisticChan → ℕ}

theorem routerState_pointToPoint : (routerState depth).PointToPoint := by
  constructor
  · rintro ⟨p, i⟩ ⟨q, j⟩ h
    cases p <;> cases q <;> cases h <;> rfl
  · rintro ⟨p, i⟩ ⟨q, j⟩ h
    cases p <;> cases q
    all_goals first
      | (cases i <;> cases j <;> cases h <;> rfl)
      | (cases i <;> cases h)
      | (cases j <;> cases h)
      | (cases h; rfl)

/-- The number of tasks that have arrived. -/
def arrived (s : (routerState depth).State) : ℕ :=
  ∑ i, (s.written (StatisticTask.in_ i).chan).length

/-- The number of tasks that have been forwarded. -/
def forwarded (s : (routerState depth).State) : ℕ :=
  ∑ i, (s.written (StatisticTask.out i).chan).length

/-- The totals that `debug_dump` has published. -/
def published (s : (routerState depth).State) : List (BitVec 64) :=
  s.written StatisticCount.state.chan

/-! ## One lane -/

/-- The task that is still to be forwarded. -/
def StateRegs.owed : StateRegs → List Query
  | .emit _ pkg => [pkg]
  | _ => []

/-- What `state_instance` has forwarded, and what it has sent of its counter. -/
structure Forwards (r : StateRegs) (R : Unit → List Query)
    (S : (o : StateOut) → List (UrwWord o.sort)) : Prop where
  tasks : S .out ++ r.owed = R ()
  counter : r.counter = BitVec.ofNat 64 (R ()).length
  sent : Totals (S .cnt) (S .out).length

theorem forwards_path {r : StateRegs} {R S} (hp : stateKernel.Path stateKernel.start r R S) :
    Forwards r R S := by
  refine hp.induct (I := Forwards) ⟨rfl, rfl, .nil _⟩ ?_
  rintro r R S ⟨htasks, hcounter, hsent⟩
  cases r with
  | poll counter =>
      have hout : S .out = R () := by simpa [StateRegs.owed] using htasks
      have hvalue : counter = BitVec.ofNat 64 (R ()).length := hcounter
      refine ⟨⟨htasks, hcounter, hsent⟩, fun pkg => ⟨?_, ?_, hsent⟩⟩
      · rw [Function.update_self, hout]
        rfl
      · show counter + 1 = _
        rw [Function.update_self, hvalue, List.length_append, List.length_singleton,
          BitVec.ofNat_add]
        rfl
  | emit counter pkg =>
      refine ⟨?_, hcounter, ?_⟩
      · rw [Function.update_self, ← htasks]
        simp [StateRegs.owed]
      · rw [Function.update_self, Function.update_of_ne (by decide)]
        exact hsent.mono (by simp)
  | report counter =>
      refine ⟨⟨htasks, hcounter, hsent⟩, htasks, hcounter, ?_⟩
      have hout : S .out = R () := by simpa [StateRegs.owed] using htasks
      have hvalue : counter = BitVec.ofNat 64 (S .out).length := by
        rw [hout]
        exact hcounter
      rw [Function.update_self, Function.update_of_ne (by decide), hvalue]
      exact hsent.snoc

/-- A process that holds no task and reads none sends the same counter again and again. -/
theorem quiet_path {r₀ r : StateRegs} {R S} (hp : stateKernel.Path r₀ r R S) (howed : r₀.owed = [])
    (hquiet : R () = []) :
    (r.counter = r₀.counter ∧ r.owed = []) ∧ ∀ sample ∈ S .cnt, sample = r₀.counter := by
  revert hquiet
  refine hp.induct (I := fun (r : StateRegs) R (S : (o : StateOut) → List (UrwWord o.sort)) =>
    R () = [] → (r.counter = r₀.counter ∧ r.owed = []) ∧ ∀ sample ∈ S .cnt, sample = r₀.counter)
      (fun _ => ⟨⟨rfl, howed⟩, by simp⟩) ?_
  intro r R S hI
  cases r with
  | poll counter =>
      refine ⟨fun hquiet => hI hquiet, fun pkg hquiet => ?_⟩
      rw [Function.update_self] at hquiet
      exact absurd hquiet (by simp)
  | emit counter pkg => exact fun hquiet => absurd (hI hquiet).1.2 (List.cons_ne_nil _ _)
  | report counter =>
      refine ⟨fun hquiet => hI hquiet, fun hquiet => ⟨(hI hquiet).1, fun sample hsample => ?_⟩⟩
      rw [Function.update_self] at hsample
      rcases List.mem_append.mp hsample with hsample | hsample
      · exact (hI hquiet).2 sample hsample
      · rw [List.mem_singleton.mp hsample]
        exact (hI hquiet).1.1

/-! ## All lanes -/

theorem forwarded_le_arrived {s : (routerState depth).State} (hs : (routerState depth).Reachable s)
    (i : Fin 8) : (s.written (StatisticTask.out i).chan).length ≤
      (s.taken (StatisticTask.in_ i).chan).length := by
  have hlane := forwards_path (hs.path routerState_pointToPoint (.stateInstance i))
  have htasks : (s.written (StatisticTask.out i).chan).length +
      (StateRegs.owed (s.regs (.stateInstance i))).length =
        (s.taken (StatisticTask.in_ i).chan).length := by
    rw [← List.length_append]
    exact congrArg List.length hlane.tasks
  exact (Nat.le_add_right _ _).trans htasks.le

/-- The totals do not decrease, and count tasks that have been forwarded. -/
theorem published_totals {s : (routerState depth).State} (hs : (routerState depth).Reachable s) :
    Totals (published s) (forwarded s) := by
  obtain ⟨rounds, hfires⟩ :=
    hs.fires routerState_pointToPoint RouterStateProc.debugDump debugDumpRounds_sound
  have hlane : ∀ i, Totals (rounds.map fun dump => dump i)
      (s.written (StatisticTask.out i).chan).length := by
    intro i
    have hforwards := forwards_path (hs.path routerState_pointToPoint (.stateInstance i))
    exact hforwards.sent.of_isPrefix ((hfires.received i).trans (s.taken_isPrefix _))
  exact (Totals.dumpSum hlane).of_isPrefix (hfires.sent ())

/-- The samples that a lane has sent after all its tasks have been forwarded. -/
theorem fresh_samples {tr} {s s' : (routerState depth).State}
    (hs : (routerState depth).Reachable s) (hr : (routerState depth).Run s tr s') {i : Fin 8}
    (hquiet : (s'.written (StatisticTask.in_ i).chan).length ≤
      (s.written (StatisticTask.out i).chan).length) :
    ∃ fresh : List (BitVec 64), s'.written (StatisticCount.debugStream i).chan =
        s.written (StatisticCount.debugStream i).chan ++ fresh ∧
      (∀ sample ∈ fresh, sample =
        BitVec.ofNat 64 (s.written (StatisticTask.out i).chan).length) ∧
      (s'.written (StatisticTask.out i).chan).length =
        (s.written (StatisticTask.out i).chan).length := by
  have hreach : (routerState depth).Reachable s' := by
    obtain ⟨tr₀, hr₀⟩ := hs
    exact ⟨_, hr₀.trans hr⟩
  have hlane := forwards_path (hs.path routerState_pointToPoint (.stateInstance i))
  obtain ⟨R, S, hp, hin, hcnt⟩ : ∃ (R : Unit → List Query)
      (S : (o : StateOut) → List (UrwWord o.sort)),
      stateKernel.Path (s.regs (.stateInstance i)) (s'.regs (.stateInstance i)) R S ∧
        s'.taken (StatisticTask.in_ i).chan = s.taken (StatisticTask.in_ i).chan ++ R () ∧
          s'.written (StatisticCount.debugStream i).chan =
            s.written (StatisticCount.debugStream i).chan ++ S .cnt := by
    obtain ⟨R, S, hp, hR, hS⟩ := hr.follows routerState_pointToPoint (.stateInstance i)
    exact ⟨R, S, hp, hR (), hS .cnt⟩
  have hmono := (hr.written_mono (StatisticTask.out i).chan).length_le
  have htasks := forwarded_le_arrived hs i
  have htasks' := forwarded_le_arrived hreach i
  have htaken := (s'.taken_isPrefix (StatisticTask.in_ i).chan).length_le
  have hlength := congrArg List.length hin
  rw [List.length_append] at hlength
  have hread : R () = [] := List.eq_nil_of_length_eq_zero (by omega)
  have howed : StateRegs.owed (s.regs (.stateInstance i)) = [] := by
    have hall : (s.written (StatisticTask.out i).chan).length +
        (StateRegs.owed (s.regs (.stateInstance i))).length =
          (s.taken (StatisticTask.in_ i).chan).length := by
      rw [← List.length_append]
      exact congrArg List.length hlane.tasks
    exact List.eq_nil_of_length_eq_zero (by omega)
  have hcounter : StateRegs.counter (s.regs (.stateInstance i)) =
      BitVec.ofNat 64 (s.written (StatisticTask.out i).chan).length := by
    have hsame : (s.written (StatisticTask.out i).chan).length =
        (s.taken (StatisticTask.in_ i).chan).length := by omega
    rw [hsame]
    exact hlane.counter
  refine ⟨S .cnt, hcnt, fun sample hsample => ?_, by omega⟩
  exact ((quiet_path hp howed hread).2 sample hsample).trans hcounter

/-- When all tasks have been forwarded and no further task arrives, a total of samples that were
not yet in the streams at that time is exact. -/
theorem published_exact {tr} {s s' : (routerState depth).State}
    (hs : (routerState depth).Reachable s) (hr : (routerState depth).Run s tr s')
    (hquiet : arrived s' = forwarded s) {k : ℕ}
    (hstale : ∀ i, (s.written (StatisticCount.debugStream i).chan).length ≤ k) {total : BitVec 64}
    (htotal : (published s')[k]? = some total) :
    total = BitVec.ofNat 64 (forwarded s') := by
  have hreach : (routerState depth).Reachable s' := by
    obtain ⟨tr₀, hr₀⟩ := hs
    exact ⟨_, hr₀.trans hr⟩
  have hlane : ∀ i, (s.written (StatisticTask.out i).chan).length =
      (s'.written (StatisticTask.in_ i).chan).length := by
    refine fun i => (Finset.sum_eq_sum_iff_of_le fun i _ => ?_).mp hquiet.symm i (Finset.mem_univ i)
    exact ((forwarded_le_arrived hs i).trans (s.taken_isPrefix _).length_le).trans
      (hr.written_mono _).length_le
  choose fresh hsent hfresh hout using fun i => fresh_samples hs hr (hlane i).ge
  obtain ⟨rounds, hfires⟩ :=
    hreach.fires routerState_pointToPoint RouterStateProc.debugDump debugDumpRounds_sound
  have hround : (rounds.map dumpSum)[k]? = some total :=
    getElem?_of_isPrefix (hfires.sent ()) htotal
  obtain ⟨dump, hdump, rfl⟩ := by
    rw [List.getElem?_map, Option.map_eq_some_iff] at hround
    exact hround
  have hsamples : dump = fun i =>
      BitVec.ofNat 64 (s.written (StatisticTask.out i).chan).length := by
    funext i
    have hsample : (rounds.map fun dump => dump i)[k]? = some (dump i) := by
      rw [List.getElem?_map, hdump]
      rfl
    have hread : (s'.written (StatisticCount.debugStream i).chan)[k]? = some (dump i) :=
      getElem?_of_isPrefix ((hfires.received i).trans (s'.taken_isPrefix _)) hsample
    rw [hsent i, List.getElem?_append_right (hstale i)] at hread
    exact hfresh i _ (List.mem_of_getElem? hread)
  rw [hsamples, dumpSum_ofNat]
  congr 1
  exact Finset.sum_congr rfl fun i _ => (hout i).symm

/-- For every interleaving, whatever samples are lost: the totals published so far are totals that
do not decrease and do not exceed the number of tasks forwarded so far.  Once all tasks have been
forwarded and none arrives any more, the `k`-th total is exact for every `k` from which on it adds
samples that were not yet in the streams. -/
theorem routerState_totals (depth : Chan StatisticChan → ℕ) {tr}
    {s s' : (routerState depth).State} (hs : (routerState depth).Reachable s)
    (hr : (routerState depth).Run s tr s') :
    (∃ totals : List ℕ, published s = totals.map (BitVec.ofNat 64) ∧ totals.Pairwise (· ≤ ·) ∧
      ∀ total ∈ totals, total ≤ forwarded s) ∧
    (arrived s' = forwarded s →
      ∀ k, (∀ i, (s.written (StatisticCount.debugStream i).chan).length ≤ k) →
        ∀ total, (published s')[k]? = some total → total = BitVec.ofNat 64 (forwarded s')) :=
  ⟨published_totals hs, fun hquiet _ hstale _ htotal =>
    published_exact hs hr hquiet hstale htotal⟩

/-- Every lane reports that it has forwarded nothing, and lane 0 forwards a task. -/
def oneTask (q : Query) : List (routerState fun _ => 2).Action :=
  (List.finRange 8).flatMap (fun i => List.replicate 2 (.fire (.stateInstance i) none)) ++
    .put (StatisticTask.in_ 0).chan q :: List.replicate 2 (.fire (.stateInstance 0) none)

/-- Every lane reports once more, and two totals are published. -/
def twoTotals : List (routerState fun _ => 2).Action :=
  .fire (.stateInstance 0) none ::
    (List.finRange 8).flatMap (fun i => List.replicate 2 (.fire (.stateInstance i) none)) ++
      List.replicate 18 (.fire .debugDump none)

/-- The first total adds stale samples, the second is exact. -/
theorem routerState_totals_one :
    ∃ s' : (routerState fun _ => 2).State, published s' = [0, 1] ∧
      (1 : BitVec 64) = BitVec.ofNat 64 (forwarded s') := by
  obtain ⟨tr, s, hs⟩ : ∃ tr s, Network.execute (fun _ _ => True)
      (oneTask ⟨0, ⟨0, ⟨0, 0, 0⟩, false⟩⟩) [] (routerState fun _ => 2).init = some (tr, s) := ⟨_, _, rfl⟩
  obtain ⟨tr', s', hs'⟩ : ∃ tr' s', Network.execute (fun _ _ => True) twoTotals [] s =
      some (tr', s') := by
    cases hs
    exact ⟨_, _, rfl⟩
  have hpublished : published s' = [0, 1] := by
    cases hs
    cases hs'
    decide +kernel
  have hquiet : arrived s' = forwarded s ∧
      ∀ i, (s.written (StatisticCount.debugStream i).chan).length ≤ 1 := by
    cases hs
    cases hs'
    decide +kernel
  obtain ⟨-, hexact⟩ := routerState_totals (fun _ => 2)
    ⟨tr, (Network.execute_run .nil hs).run⟩ (Network.execute_run .nil hs').run
  exact ⟨s', hpublished, hexact hquiet.1 1 hquiet.2 1 (by rw [hpublished]; rfl)⟩

end RidgeWalker.Urw
