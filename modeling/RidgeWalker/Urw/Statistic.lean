import RidgeWalker.Dataflow.Draining
import RidgeWalker.Dataflow.Streams
import RidgeWalker.Urw.Kernels

/-!
# When a run is taken to be complete

`router_state` counts the visits of all queries and sends the total again and again.
`query_statistic` compares every 8193rd message with the one it compared before, and returns when
they are equal.

Main results:

- Theorem `statistic_path`: at which message `query_statistic` returns, and what it stores.
- Theorem `messages_totals`: the messages are totals of visits that do not decrease.
- Theorem `queryStatistic_returns`: the final count is stored if every sample before it differs
  from the one before.
- Theorem `queryStatistic_early`: without visits 0 is stored after 8191 messages.
-/

namespace RidgeWalker.Urw

open Dataflow

/-! ## `debug_dump` -/

/-- The sum of `debug_dump`. -/
def dumpSum (dump : Fin 8 → BitVec 64) : BitVec 64 :=
  let sumL1 : Fin 4 → BitVec 64 := fun i =>
    dump ⟨2 * i, by omega⟩ + dump ⟨2 * i + 1, by omega⟩
  let sumL2 : Fin 2 → BitVec 64 := fun i =>
    sumL1 ⟨2 * i, by omega⟩ + sumL1 ⟨2 * i + 1, by omega⟩
  sumL2 0 + sumL2 1

/-- Registers of `debug_dump`. -/
inductive DumpRegs where
  | read (i : Fin 8) (dump : Fin 8 → BitVec 64)
  | write (dump : Fin 8 → BitVec 64)

/-- After `dump_array[i]` has been read. -/
def dumpNext (i : Fin 8) (dump : Fin 8 → BitVec 64) : DumpRegs :=
  if h : i.val + 1 < 8 then .read ⟨i + 1, h⟩ dump else .write dump

/-- The loop of `debug_dump`. -/
def debugDumpKernel : Kernel (fun _ : Fin 8 => BitVec 64) (fun _ : Unit => BitVec 64) where
  σ := DumpRegs
  Ω := Empty
  start := .read 0 fun _ => 0
  op
    | .read i dump => .read i fun a => dumpNext i (Function.update dump i a)
    | .write dump => .write () (dumpSum dump) (.read 0 dump)

/-- A round of `debug_dump` takes a count from every lane and gives their sum. -/
def debugDumpRounds : Rounds debugDumpKernel (Fin 8 → BitVec 64) where
  ins rounds i := rounds.map fun dump => dump i
  outs rounds _ := rounds.map dumpSum
  got
    | .read i dump => fun j => if j.val < i.val then [dump j] else []
    | .write _ => fun _ => []
  owes
    | .read _ _ => fun _ => []
    | .write dump => fun _ => [dumpSum dump]
  agrees _ _ := True

theorem debugDumpRounds_sound : debugDumpRounds.Sound := by
  refine ⟨⟨trivial, fun i => ?_, fun _ => rfl⟩, fun rounds r R S h => ?_⟩
  · simp [debugDumpRounds, debugDumpKernel]
  cases r with
  | read i dump =>
      intro a
      by_cases hi : i.val + 1 < 8
      · refine ⟨rounds, ?_⟩
        simp only [dumpNext, hi, dite_true]
        refine h.take trivial (funext fun j => ?_) rfl
        by_cases hj : j = i
        · subst hj
          simp [debugDumpRounds, -Fin.val_fin_lt]
        · have hlt : j.val < i.val + 1 ↔ j.val < i.val := by omega
          simp [debugDumpRounds, hj, hlt, -Fin.val_fin_lt]
      · refine ⟨rounds ++ [Function.update dump i a], ?_⟩
        simp only [dumpNext, hi, dite_false]
        refine h.round _ trivial (fun j => ?_) (fun _ => rfl) (fun _ => rfl) fun _ => ?_
        · by_cases hj : j = i
          · subst hj
            simp [debugDumpRounds]
          · have hlt : j.val < i.val := by omega
            simp [debugDumpRounds, hj, hlt, -Fin.val_fin_lt]
        · simp [debugDumpRounds]
  | write dump =>
      refine ⟨rounds, h.give trivial (funext fun _ => ?_) (funext fun _ => ?_)⟩
      · simp [debugDumpRounds]
      · rw [Function.update_self]
        rfl

/-! ## `query_statistic` -/

/-- `OUTER_COUNTER`. -/
abbrev outerCounter : ℕ := 8192

/-- Registers of `query_statistic`: it reads messages, or has stored `last_data` and returned. -/
inductive StatisticRegs where
  | read (counter : BitVec 32) (lastData : BitVec 64)
  | stored (lastData : BitVec 64)

/-- After a message has been read. -/
def statisticNext (counter : BitVec 32) (lastData data : BitVec 64) : StatisticRegs :=
  let counter := if counter < .ofNat 32 outerCounter then counter + 1 else 0
  if counter = .ofNat 32 (outerCounter - 1) then
    if data = lastData then .stored lastData else .read counter data
  else .read counter lastData

/-- `query_statistic`. -/
def queryStatisticKernel (word : Empty → Type) : Kernel (fun _ : Unit => BitVec 64) word where
  σ := StatisticRegs
  Ω := Empty
  start := .read 0 0
  op
    | .read counter lastData => .read () (statisticNext counter lastData)
    | .stored _ => .halt

/-- The values of `last_data` for a sequence of messages: 0, and then message 8191 and every 8193rd
message after it. -/
def sample (messages : List (BitVec 64)) : ℕ → BitVec 64
  | 0 => 0
  | k + 1 => messages.getD (8190 + 8193 * k) 0

/-- The number of samples in some messages. -/
def samples (n : ℕ) : ℕ := (n + 2) / 8193

/-- No sample so far is equal to the one before. -/
def Differ (messages : List (BitVec 64)) (n : ℕ) : Prop :=
  ∀ k < n, sample messages (k + 1) ≠ sample messages k

/-- The registers after some messages: `query_statistic` goes on while the samples differ, and has
returned at the first sample that is equal to the one before. -/
def AfterMessages (messages : List (BitVec 64)) : StatisticRegs → Prop
  | .read counter lastData =>
      counter = .ofNat 32 (messages.length % 8193) ∧
        lastData = sample messages (samples messages.length) ∧
          Differ messages (samples messages.length)
  | .stored lastData => ∃ k, messages.length = 8191 + 8193 * k ∧
      lastData = sample messages (k + 1) ∧ sample messages (k + 1) = sample messages k ∧
        Differ messages k

theorem sample_append {messages more : List (BitVec 64)} {k : ℕ}
    (hk : k ≤ samples messages.length) : sample (messages ++ more) k = sample messages k := by
  cases k with
  | zero => rfl
  | succ k =>
      have hlt : 8190 + 8193 * k < messages.length := by
        unfold samples at hk
        omega
      exact List.getD_append _ _ _ _ hlt

theorem differ_append {messages more : List (BitVec 64)} {n : ℕ}
    (hn : n ≤ samples messages.length) : Differ (messages ++ more) n ↔ Differ messages n := by
  have hsame : ∀ k < n, sample (messages ++ more) (k + 1) = sample messages (k + 1) ∧
      sample (messages ++ more) k = sample messages k := fun k hk =>
    ⟨sample_append (by omega), sample_append (by omega)⟩
  refine forall₂_congr fun k hk => ?_
  rw [(hsame k hk).1, (hsame k hk).2]

/-- The counter of `query_statistic` counts modulo 8193. -/
theorem counter_next (n : ℕ) :
    (if BitVec.ofNat 32 (n % 8193) < .ofNat 32 outerCounter then BitVec.ofNat 32 (n % 8193) + 1
      else 0) = BitVec.ofNat 32 ((n + 1) % 8193) := by
  have hlt : n % 8193 < 8193 := Nat.mod_lt _ (by decide)
  have hvalue : (BitVec.ofNat 32 (n % 8193)).toNat = n % 8193 := by
    rw [BitVec.toNat_ofNat, Nat.mod_eq_of_lt (by omega)]
  have hcond : BitVec.ofNat 32 (n % 8193) < BitVec.ofNat 32 outerCounter ↔ n % 8193 < 8192 := by
    rw [BitVec.lt_def, hvalue]
    rfl
  by_cases h : n % 8193 < 8192
  · have hsucc : (n + 1) % 8193 = n % 8193 + 1 := by omega
    rw [if_pos (hcond.mpr h), hsucc, BitVec.ofNat_add]
    rfl
  · have hzero : (n + 1) % 8193 = 0 := by omega
    rw [if_neg (mt hcond.mp h), hzero]
    rfl

/-- Along every path `query_statistic` has the registers that its messages determine. -/
theorem statistic_path {word : Empty → Type} {r : StatisticRegs} {R} {S : ∀ o, List (word o)}
    (hp : (queryStatisticKernel word).Path (queryStatisticKernel word).start r R S) :
    AfterMessages (R ()) r := by
  refine hp.induct (I := fun r R _ => AfterMessages (R ()) r) ?_ ?_
  · exact ⟨rfl, rfl, fun k hk => absurd hk (by simp [samples])⟩
  intro r R S h
  cases r with
  | stored lastData => trivial
  | read counter lastData =>
      obtain ⟨rfl, rfl, hdiffer⟩ := h
      intro data
      generalize R () = messages at hdiffer ⊢
      rw [Function.update_self]
      set n := messages.length with hn
      have hcompared : BitVec.ofNat 32 ((n + 1) % 8193) = .ofNat 32 (outerCounter - 1) ↔
          (n + 1) % 8193 = 8191 := by
        have hlt : (n + 1) % 8193 < 8193 := Nat.mod_lt _ (by decide)
        rw [← BitVec.toNat_inj, BitVec.toNat_ofNat, Nat.mod_eq_of_lt (by omega)]
        rfl
      show AfterMessages (messages ++ [data]) (statisticNext _ _ data)
      unfold statisticNext
      simp only [counter_next, hcompared]
      by_cases hmod : (n + 1) % 8193 = 8191
      · -- The message is compared with the sample before it.
        obtain ⟨k, hk⟩ : ∃ k, n = 8190 + 8193 * k := ⟨(n + 1) / 8193, by omega⟩
        have hbefore : samples n = k := by
          unfold samples
          omega
        have hafter : samples (n + 1) = k + 1 := by
          unfold samples
          omega
        have hsample : sample (messages ++ [data]) (k + 1) = data := by
          have hindex : 8190 + 8193 * k = messages.length := by omega
          simp [sample, hindex]
        have hold : sample (messages ++ [data]) k = sample messages k :=
          sample_append (hbefore ▸ le_rfl)
        have hdiffer' : Differ (messages ++ [data]) k :=
          (differ_append (hbefore ▸ le_rfl)).mpr (hbefore ▸ hdiffer)
        rw [if_pos hmod, hbefore]
        by_cases hdata : data = sample messages k
        · rw [if_pos hdata]
          refine ⟨k, ?_, ?_, ?_, hdiffer'⟩
          · simp only [List.length_append, List.length_singleton]
            omega
          · rw [hsample, hdata]
          · rw [hsample, hold, hdata]
        · rw [if_neg hdata]
          refine ⟨?_, ?_, ?_⟩
          · simp [← hn, hmod]
          · simp [← hn, hafter, hsample]
          · simp only [List.length_append, List.length_singleton, ← hn, hafter]
            intro j hj
            rcases Nat.lt_succ_iff_lt_or_eq.mp hj with hj | rfl
            · exact hdiffer' j hj
            · rw [hsample, hold]
              exact hdata
      · have hsame : samples (n + 1) = samples n := by
          unfold samples
          omega
        rw [if_neg hmod]
        refine ⟨?_, ?_, ?_⟩
        · simp [← hn]
        · simp only [List.length_append, List.length_singleton, ← hn, hsame]
          exact (sample_append le_rfl).symm
        · simp only [List.length_append, List.length_singleton, ← hn, hsame]
          exact (differ_append le_rfl).mpr hdiffer

/-! ## Running totals -/

/-- The words are totals that do not decrease and do not exceed `n`. -/
def Totals (l : List (BitVec 64)) (n : ℕ) : Prop :=
  ∃ ms : List ℕ, l = ms.map (BitVec.ofNat 64) ∧ ms.Pairwise (· ≤ ·) ∧ ∀ m ∈ ms, m ≤ n

theorem Totals.nil (n : ℕ) : Totals [] n := ⟨[], rfl, .nil, by simp⟩

theorem Totals.mono {l : List (BitVec 64)} {n n' : ℕ} (h : Totals l n) (hn : n ≤ n') :
    Totals l n' := by
  obtain ⟨ms, hl, hms, hle⟩ := h
  exact ⟨ms, hl, hms, fun m hm => (hle m hm).trans hn⟩

theorem Totals.snoc {l : List (BitVec 64)} {n : ℕ} (h : Totals l n) :
    Totals (l ++ [BitVec.ofNat 64 n]) n := by
  obtain ⟨ms, rfl, hms, hle⟩ := h
  refine ⟨ms ++ [n], by simp, ?_, fun m hm => ?_⟩
  · rw [List.pairwise_append]
    refine ⟨hms, List.pairwise_singleton _ _, fun a ha b hb => ?_⟩
    rw [List.mem_singleton.mp hb]
    exact hle a ha
  · rcases List.mem_append.mp hm with hm | hm
    · exact hle m hm
    · exact (List.mem_singleton.mp hm).le

theorem Totals.of_isPrefix {l l' : List (BitVec 64)} {n : ℕ} (h : Totals l' n) (hl : l <+: l') :
    Totals l n := by
  obtain ⟨ms, rfl, hms, hle⟩ := h
  have htake := List.prefix_iff_eq_take.mp hl
  rw [← List.map_take] at htake
  exact ⟨_, htake, hms.sublist (List.take_sublist _ _),
    fun m hm => hle m (List.mem_of_mem_take hm)⟩

/-- The sum of eight totals is their total. -/
theorem dumpSum_ofNat (n : Fin 8 → ℕ) :
    dumpSum (fun i => BitVec.ofNat 64 (n i)) = BitVec.ofNat 64 (∑ i, n i) := by
  simp only [Fin.sum_univ_eight, BitVec.ofNat_add, dumpSum, add_assoc]
  rfl

/-- Sums of eight sequences of totals are totals. -/
theorem Totals.dumpSum {rounds : List (Fin 8 → BitVec 64)} {n : Fin 8 → ℕ}
    (h : ∀ i, Totals (rounds.map fun dump => dump i) (n i)) :
    Totals (rounds.map Urw.dumpSum) (∑ i, n i) := by
  choose ms hl hms hle using h
  have hlength : ∀ i, (ms i).length = rounds.length := fun i => by
    simpa using (congrArg List.length (hl i)).symm
  refine ⟨(List.range rounds.length).map fun k => ∑ i, (ms i).getD k 0, ?_, ?_, ?_⟩
  · apply List.ext_getElem
    · simp
    intro k hk _
    rw [List.length_map] at hk
    have hword : rounds[k] = fun i => BitVec.ofNat 64 ((ms i).getD k 0) := by
      funext i
      have hi : (rounds.map fun dump => dump i)[k]? =
          ((ms i).map (BitVec.ofNat 64))[k]? := by rw [hl i]
      have hki : k < (ms i).length := (hlength i).symm ▸ hk
      simpa [hk, hki] using hi
    simp only [List.getElem_map, List.getElem_range, hword, dumpSum_ofNat]
  · refine List.pairwise_map.mpr (List.pairwise_lt_range.imp_of_mem fun ha hb hab => ?_)
    rename_i a b
    rw [List.mem_range] at ha hb
    refine Finset.sum_le_sum fun i _ => ?_
    have hai : a < (ms i).length := (hlength i).symm ▸ ha
    have hbi : b < (ms i).length := (hlength i).symm ▸ hb
    simpa [hai, hbi] using (List.pairwise_iff_getElem.mp (hms i)) a b hai hbi hab
  · intro m hm
    obtain ⟨k, hk, rfl⟩ := List.mem_map.mp hm
    rw [List.mem_range] at hk
    refine Finset.sum_le_sum fun i _ => ?_
    have hki : k < (ms i).length := (hlength i).symm ▸ hk
    simpa [hki] using hle i _ (List.getElem_mem hki)

/-- The counter in the registers of `state_instance`. -/
def StateRegs.counter : StateRegs → BitVec 64
  | .poll counter => counter
  | .emit counter _ => counter
  | .report counter => counter

/-- What `state_instance` counts and sends; it holds a task only after it has read one. -/
structure Counts (r : StateRegs) (R : Unit → List Query)
    (S : (o : StateOut) → List (UrwWord o.sort)) : Prop where
  counter : r.counter = BitVec.ofNat 64 (R ()).length
  sent : Totals (S .cnt) (R ()).length
  idle : R () = [] → r = .poll 0 ∨ r = .report 0

theorem counts_path {r : StateRegs} {R S} (hp : stateKernel.Path stateKernel.start r R S) :
    Counts r R S := by
  refine hp.induct (I := Counts) ⟨rfl, .nil _, fun _ => .inl rfl⟩ ?_
  intro r R S h
  cases r with
  | poll counter =>
      refine ⟨⟨h.counter, h.sent, fun hnil => ?_⟩, fun pkg => ⟨?_, ?_, fun hnil => ?_⟩⟩
      · rcases h.idle hnil with hpoll | hreport
        · cases hpoll
          exact .inr rfl
        · cases hreport
      · have hcounter : counter = _ := h.counter
        simp [StateRegs.counter, hcounter, BitVec.ofNat_add]
      · exact h.sent.mono (by simp)
      · simp at hnil
  | emit counter pkg =>
      refine ⟨h.counter, ?_, fun hnil => ?_⟩
      · rw [Function.update_of_ne (by decide)]
        exact h.sent
      · rcases h.idle hnil with hidle | hidle <;> cases hidle
  | report counter =>
      have hidle : R () = [] → (StateRegs.poll counter = .poll 0 ∨
          StateRegs.poll counter = .report 0) := fun hnil => by
        rcases h.idle hnil with hpoll | hreport
        · cases hpoll
        · cases hreport
          exact .inl rfl
      refine ⟨⟨h.counter, h.sent, hidle⟩, ⟨h.counter, ?_, hidle⟩⟩
      have hcounter : counter = _ := h.counter
      rw [Function.update_self, hcounter]
      exact h.sent.snoc

/-! ## The network -/

/-- The processes of `router_state` and `query_statistic`. -/
inductive StatisticProc where
  | stateInstance (i : Fin 8)
  | debugDump
  | queryStatistic
deriving DecidableEq

/-- The tasks that pass `router_state`. -/
inductive StatisticTask where
  | in_ (i : Fin 8)
  | out (i : Fin 8)
deriving DecidableEq

/-- The counts on their way to `query_statistic`. -/
inductive StatisticCount where
  | debugStream (i : Fin 8)
  | state
deriving DecidableEq

/-- The streams of `router_state` and `query_statistic`. -/
abbrev StatisticChan : UrwSort → Type
  | .query => StatisticTask
  | .debug => StatisticCount

instance : ∀ s, DecidableEq (StatisticChan s)
  | .query => inferInstanceAs (DecidableEq StatisticTask)
  | .debug => inferInstanceAs (DecidableEq StatisticCount)

/-- A stream of tasks as a stream of the system. -/
abbrev StatisticTask.chan (c : StatisticTask) : Chan StatisticChan := ⟨.query, c⟩

/-- A stream of counts as a stream of the system. -/
abbrev StatisticCount.chan (c : StatisticCount) : Chan StatisticChan := ⟨.debug, c⟩

/-- The call of each process. -/
def statisticCall : StatisticProc → Call StatisticChan UrwWord
  | .stateInstance i => {
      In := Unit
      Out := StateOut
      src := fun _ => (StatisticTask.in_ i).chan
      dst := fun o => ⟨o.sort, match o with
        | .out => StatisticTask.out i
        | .cnt => StatisticCount.debugStream i⟩
      kernel := stateKernel }
  | .debugDump => {
      In := Fin 8
      Out := Unit
      src := fun i => (StatisticCount.debugStream i).chan
      dst := fun _ => StatisticCount.state.chan
      kernel := debugDumpKernel }
  | .queryStatistic => {
      In := Unit
      Out := Empty
      src := fun _ => StatisticCount.state.chan
      dst := fun o => nomatch o
      kernel := queryStatisticKernel _ }

/-- `router_state` and `query_statistic`, with streams of any depth. -/
def runStatistic (depth : Chan StatisticChan → ℕ) :
    Network StatisticProc StatisticChan UrwWord where
  node := statisticCall
  depth := depth

variable {depth : Chan StatisticChan → ℕ}

theorem runStatistic_pointToPoint : (runStatistic depth).PointToPoint := by
  constructor
  · rintro ⟨p, i⟩ ⟨q, j⟩ h
    cases p <;> cases q <;> cases h <;> rfl
  · rintro ⟨p, i⟩ ⟨q, j⟩ h
    cases p <;> cases q <;> first
      | exact i.elim
      | exact j.elim
      | (cases i <;> cases j <;> cases h <;> rfl)

/-! ## What is stored -/

/-- The number of visits that the surroundings have offered. -/
def offered (s : (runStatistic depth).State) : ℕ :=
  ∑ i, (s.written (StatisticTask.in_ i).chan).length

/-- The number of visits that `router_state` has counted. -/
def counted (s : (runStatistic depth).State) : ℕ :=
  ∑ i, (s.taken (StatisticTask.in_ i).chan).length

/-- The messages that `query_statistic` has read. -/
def messages (s : (runStatistic depth).State) : List (BitVec 64) :=
  s.taken StatisticCount.state.chan

/-- The number of visits of all queries: a query of length `len` is seen `len + 1` times. -/
def totalVisits (lens : List (BitVec 10)) : ℕ := (lens.map fun len => len.toNat + 1).sum

/-- The surroundings offer no more than the visits of the loaded queries, at any time. -/
def Visiting (lens : List (BitVec 10)) (s : (runStatistic depth).State)
    (l : (runStatistic depth).Label) : Prop :=
  ∀ s', (runStatistic depth).Step s l s' → offered s' ≤ totalVisits lens

theorem counted_le_offered (s : (runStatistic depth).State) : counted s ≤ offered s :=
  Finset.sum_le_sum fun _ _ => (s.taken_isPrefix _).length_le

theorem offered_le {lens : List (BitVec 10)} {tr} {s : (runStatistic depth).State}
    (hr : (runStatistic depth).GuardedRun (Visiting lens) (runStatistic depth).init tr s) :
    offered s ≤ totalVisits lens := by
  cases hr with
  | nil => exact (Finset.sum_eq_zero fun _ _ => rfl).le.trans (Nat.zero_le _)
  | snoc _ hok hs => exact hok _ hs

/-- The messages are totals of visits that do not decrease. -/
theorem messages_totals {s : (runStatistic depth).State} (hs : (runStatistic depth).Reachable s) :
    Totals (messages s) (counted s) := by
  obtain ⟨rounds, hfires⟩ :=
    hs.fires runStatistic_pointToPoint StatisticProc.debugDump debugDumpRounds_sound
  have hlane : ∀ i, Totals (rounds.map fun dump => dump i)
      (s.taken (StatisticTask.in_ i).chan).length := by
    intro i
    have hcounts := counts_path (hs.path runStatistic_pointToPoint (.stateInstance i))
    exact hcounts.sent.of_isPrefix ((hfires.received i).trans (s.taken_isPrefix _))
  exact (Totals.dumpSum hlane).of_isPrefix ((s.taken_isPrefix _).trans (hfires.sent ()))

theorem Totals.sample_le {l : List (BitVec 64)} {n : ℕ} (h : Totals l n) (k : ℕ) :
    (sample l k).toNat ≤ n := by
  obtain ⟨ms, rfl, -, hle⟩ := h
  cases k with
  | zero => exact Nat.zero_le _
  | succ k =>
      by_cases hk : 8190 + 8193 * k < ms.length
      · have hm := hle _ (List.getElem_mem hk)
        simpa [sample, hk] using (Nat.mod_le _ _).trans hm
      · simp [sample, hk]

/-- While visits are missing, no sample is equal to the one before. -/
def Moving (lens : List (BitVec 10)) (messages : List (BitVec 64)) : Prop :=
  ∀ k < samples messages.length, (sample messages k).toNat < totalVisits lens →
    sample messages (k + 1) ≠ sample messages k

section Idle

/-- The surroundings offer nothing. -/
def Idle (_ : (runStatistic depth).State) : (runStatistic depth).Label → Prop
  | .put _ _ => False
  | _ => True

/-- States of runs without visits. -/
def IdleRun (s s' : (runStatistic depth).State) : Prop :=
  ∃ tr, (runStatistic depth).GuardedRun Idle s tr s'

theorem IdleRun.trans {s t u : (runStatistic depth).State} (h : IdleRun s t) (h' : IdleRun t u) :
    IdleRun s u := by
  obtain ⟨tr, hr⟩ := h
  obtain ⟨tr', hr'⟩ := h'
  exact ⟨_, hr.trans hr'⟩

theorem IdleRun.reachable {s : (runStatistic depth).State}
    (h : IdleRun (runStatistic depth).init s) : (runStatistic depth).Reachable s := by
  obtain ⟨tr, hr⟩ := h
  exact ⟨tr, hr.run⟩

/-- What a process does is no visit. -/
theorem IdleRun.fire {s s' : (runStatistic depth).State} {p r e}
    (hs : (runStatistic depth).Step s (.fire p r e) s') : IdleRun s s' :=
  ⟨_, Network.GuardedRun.nil.snoc (show Idle s (.fire p r e) from trivial) hs⟩

/-- Nothing has been offered. -/
theorem IdleRun.written_in {s : (runStatistic depth).State}
    (h : IdleRun (runStatistic depth).init s) (i : Fin 8) :
    s.written (StatisticTask.in_ i).chan = [] := by
  obtain ⟨tr, hr⟩ := h
  induction hr with
  | nil => rfl
  | snoc _ hok hs ih =>
      have hfed : ∀ p o, ((runStatistic depth).node p).dst o ≠ (StatisticTask.in_ i).chan := by
        intro p o h
        cases p with
        | stateInstance j => cases o <;> cases h
        | debugDump => cases h
        | queryStatistic => exact o.elim
      rcases hs.written_fed hfed with heq | ⟨a, rfl, -⟩
      · exact heq.trans ih
      · exact hok.elim

theorem IdleRun.counted {s : (runStatistic depth).State}
    (h : IdleRun (runStatistic depth).init s) : counted s = 0 := by
  refine Nat.le_zero.mp ((counted_le_offered s).trans (le_of_eq ?_))
  exact Finset.sum_eq_zero fun i _ => by rw [h.written_in i]; rfl

/-- The run is one of every set of queries. -/
theorem IdleRun.visiting {s : (runStatistic depth).State} (lens : List (BitVec 10))
    (h : IdleRun (runStatistic depth).init s) :
    ∃ tr, (runStatistic depth).GuardedRun (Visiting lens) (runStatistic depth).init tr s := by
  obtain ⟨tr, hr⟩ := h
  refine ⟨tr, ?_⟩
  induction hr with
  | nil => exact .nil
  | @snoc tr s l s' hr hok hs ih =>
      refine ih.snoc (fun t ht => ?_) hs
      have hidle : IdleRun (runStatistic depth).init t := ⟨_, hr.snoc hok ht⟩
      refine le_of_eq_of_le (Finset.sum_eq_zero fun i _ => ?_) (Nat.zero_le _)
      rw [hidle.written_in i]
      rfl

variable (hdepth : ∀ c, 1 ≤ depth c)

include hdepth

/-- Every lane has a count for `debug_dump`, or can send one. -/
theorem idle_sends {s : (runStatistic depth).State} (h : IdleRun (runStatistic depth).init s)
    (i : Fin 8) :
    ∃ s' r g, IdleRun s s' ∧ (runStatistic depth).Moved s s' (.stateInstance i) r
        (StatisticCount.debugStream i).chan g ∧ g.queue ≠ [] := by
  by_cases hqueue : (s.fifo (StatisticCount.debugStream i).chan).queue = []
  swap
  · exact ⟨s, _, _, ⟨[], .nil⟩, ⟨rfl, fun _ _ => rfl, rfl, fun _ _ => rfl⟩, hqueue⟩
  -- A lane that is about to poll finds nothing and reports.
  have hreport : ∃ s', IdleRun s s' ∧ (runStatistic depth).Moved s s' (.stateInstance i)
      (StateRegs.report 0) (StatisticCount.debugStream i).chan
        (s.fifo (StatisticCount.debugStream i).chan) := by
    have hcounts := counts_path (h.reachable.path runStatistic_pointToPoint (.stateInstance i))
    have htaken : s.taken (StatisticTask.in_ i).chan = [] :=
      List.prefix_nil.mp (h.written_in i ▸ s.taken_isPrefix _)
    rcases hcounts.idle htaken with hregs | hregs
    · have hempty : (s.fifo (StatisticTask.in_ i).chan).queue = [] :=
        (List.append_eq_nil_iff.mp (h.written_in i)).2
      have hop : ((runStatistic depth).node (.stateInstance i)).kernel.op
          (s.regs (.stateInstance i)) = stateKernel.op (.poll 0) := by
        rw [hregs]
        rfl
      obtain ⟨e, s', hstep, hmoved⟩ := Network.Step.exists_readNone hop hempty _
      exact ⟨s', IdleRun.fire hstep, hmoved⟩
    · exact ⟨s, ⟨[], .nil⟩, hregs, fun _ _ => rfl, rfl, fun _ _ => rfl⟩
  obtain ⟨t, hrun, hreport⟩ := hreport
  have hop : ((runStatistic depth).node (.stateInstance i)).kernel.op
      (t.regs (.stateInstance i)) = stateKernel.op (.report 0) := by
    rw [hreport.regs]
    rfl
  have hroom : (t.fifo (StatisticCount.debugStream i).chan).queue.length <
      depth (StatisticCount.debugStream i).chan := by
    rw [hreport.fifo, hqueue]
    exact hdepth _
  obtain ⟨e, u, hstep, hmoved⟩ := Network.Step.exists_writeNb hop hroom
  refine ⟨u, _, _, hrun.trans (IdleRun.fire hstep), hreport.trans hmoved, ?_⟩
  exact List.append_ne_nil_of_right_ne_nil _ (List.cons_ne_nil _ _)

/-- `debug_dump` can read the count of every lane. -/
theorem dump_reads {s : (runStatistic depth).State} (h : IdleRun (runStatistic depth).init s)
    {i : Fin 8} {dump : Fin 8 → BitVec 64}
    (hregs : s.regs .debugDump = DumpRegs.read i dump) :
    ∃ s' a, IdleRun s s' ∧ s'.regs .debugDump = dumpNext i (Function.update dump i a) ∧
      s'.regs .queryStatistic = s.regs .queryStatistic ∧
        s'.fifo StatisticCount.state.chan = s.fifo StatisticCount.state.chan := by
  obtain ⟨t, r, g, hrun, hsent, hqueue⟩ := idle_sends hdepth h i
  have hop : ((runStatistic depth).node .debugDump).kernel.op (t.regs .debugDump) =
      debugDumpKernel.op (.read i dump) := by
    rw [hsent.others .debugDump StatisticProc.noConfusion, hregs]
    rfl
  obtain ⟨a, q, hq⟩ := List.exists_cons_of_ne_nil hqueue
  rw [← hsent.fifo] at hq
  obtain ⟨e, u, hstep, hmoved⟩ := Network.Step.exists_read hop hq
  refine ⟨u, a, hrun.trans (IdleRun.fire hstep), hmoved.regs, ?_, ?_⟩
  · rw [hmoved.others .queryStatistic StatisticProc.noConfusion,
      hsent.others .queryStatistic StatisticProc.noConfusion]
  · have hother : ∀ i, StatisticCount.state.chan ≠ (StatisticCount.debugStream i).chan :=
      fun i he => by cases he
    rw [hmoved.frame _ (hother i), hsent.frame _ (hother i)]

/-- `debug_dump` can get to its write. -/
theorem dump_fills (n : ℕ) {s : (runStatistic depth).State}
    (h : IdleRun (runStatistic depth).init s) {i : Fin 8} {dump : Fin 8 → BitVec 64}
    (hn : 8 - i.val = n) (hregs : s.regs .debugDump = DumpRegs.read i dump) :
    ∃ s' sums, IdleRun s s' ∧ s'.regs .debugDump = DumpRegs.write sums ∧
      s'.regs .queryStatistic = s.regs .queryStatistic ∧
        s'.fifo StatisticCount.state.chan = s.fifo StatisticCount.state.chan := by
  induction n generalizing s i dump with
  | zero => exact absurd i.isLt (by omega)
  | succ n ih =>
      obtain ⟨t, a, hrun, hnext, hkept, hstate⟩ := dump_reads hdepth h hregs
      by_cases hi : i.val + 1 < 8
      · rw [dumpNext, dif_pos hi] at hnext
        obtain ⟨u, sums, hrun', hwrite, hkept', hstate'⟩ :=
          ih (h.trans hrun) (by simp only; omega) hnext
        exact ⟨u, sums, hrun.trans hrun', hwrite, hkept'.trans hkept, hstate'.trans hstate⟩
      · rw [dumpNext, dif_neg hi] at hnext
        exact ⟨t, _, hrun, hnext, hkept, hstate⟩

/-- As long as `query_statistic` goes on there is a further message for it. -/
theorem exists_message {s : (runStatistic depth).State} (h : IdleRun (runStatistic depth).init s)
    {counter : BitVec 32} {lastData : BitVec 64}
    (hregs : s.regs .queryStatistic = StatisticRegs.read counter lastData) :
    ∃ s', IdleRun s s' ∧ (messages s').length = (messages s).length + 1 := by
  have hqueued : ∃ s' a q, IdleRun s s' ∧
      s'.regs .queryStatistic = StatisticRegs.read counter lastData ∧
        messages s' = messages s ∧ (s'.fifo StatisticCount.state.chan).queue = a :: q := by
    rcases hqueue : (s.fifo StatisticCount.state.chan).queue with _ | ⟨a, q⟩
    swap
    · exact ⟨s, a, q, ⟨[], .nil⟩, hregs, rfl, hqueue⟩
    -- The stream is empty, so `debug_dump` has room for a sum.
    have hsum : ∃ s' sums, IdleRun s s' ∧ s'.regs .debugDump = DumpRegs.write sums ∧
        s'.regs .queryStatistic = s.regs .queryStatistic ∧
          s'.fifo StatisticCount.state.chan = s.fifo StatisticCount.state.chan := by
      rcases hdump : s.regs .debugDump with ⟨i, dump⟩ | dump
      · exact dump_fills hdepth _ h rfl hdump
      · exact ⟨s, dump, ⟨[], .nil⟩, hdump, rfl, rfl⟩
    obtain ⟨t, sums, hrun, hwrite, hkept, hstate⟩ := hsum
    have hop : ((runStatistic depth).node .debugDump).kernel.op (t.regs .debugDump) =
        debugDumpKernel.op (.write sums) := by
      rw [hwrite]
      rfl
    have hroom : (t.fifo StatisticCount.state.chan).queue.length <
        depth StatisticCount.state.chan := by
      rw [hstate, hqueue]
      exact hdepth _
    obtain ⟨e, u, hstep, hmoved⟩ := Network.Step.exists_write hop hroom
    have hpush : u.fifo StatisticCount.state.chan =
        (s.fifo StatisticCount.state.chan).push (dumpSum sums) := by
      rw [← hstate]
      exact hmoved.fifo
    refine ⟨u, dumpSum sums, [], hrun.trans (IdleRun.fire hstep), ?_, ?_, ?_⟩
    · rw [hmoved.others .queryStatistic StatisticProc.noConfusion, hkept, hregs]
    · exact (congrArg Fifo.taken hpush).trans (Fifo.push_taken _ _)
    · rw [hpush, Fifo.push_queue, hqueue]
      rfl
  obtain ⟨t, a, q, hrun, hread, hsame, hqueue⟩ := hqueued
  have hop : ((runStatistic depth).node .queryStatistic).kernel.op (t.regs .queryStatistic) =
      .read () (statisticNext counter lastData) := by
    rw [hread]
    rfl
  obtain ⟨e, u, hstep, hmoved⟩ := Network.Step.exists_read hop hqueue
  refine ⟨u, hrun.trans (IdleRun.fire hstep), ?_⟩
  have htaken : messages u = messages t ++ [a] :=
    (congrArg Fifo.taken hmoved.fifo).trans (Fifo.pop_taken hqueue)
  rw [htaken, List.length_append, List.length_singleton, hsame]

/-- Without visits `query_statistic` can get to its first 8191 messages. -/
theorem exists_messages (n : ℕ) (hn : n ≤ 8191) :
    ∃ s, IdleRun (runStatistic depth).init s ∧ (messages s).length = n := by
  induction n with
  | zero => exact ⟨_, ⟨[], .nil⟩, rfl⟩
  | succ n ih =>
      obtain ⟨s, hrun, hlength⟩ := ih (by omega)
      have hafter := statistic_path (hrun.reachable.path runStatistic_pointToPoint .queryStatistic)
      rcases hregs : s.regs .queryStatistic with ⟨counter, lastData⟩ | lastData
      · obtain ⟨t, hmore, hsucc⟩ := exists_message hdepth hrun hregs
        exact ⟨t, hrun.trans hmore, by omega⟩
      · rw [hregs] at hafter
        obtain ⟨k, hk, -⟩ := hafter
        change (messages s).length = _ at hk
        omega

/-- Without visits `query_statistic` can return 0. -/
theorem exists_stored (lens : List (BitVec 10)) :
    ∃ tr s, (runStatistic depth).GuardedRun (Visiting lens) (runStatistic depth).init tr s ∧
      s.regs .queryStatistic = StatisticRegs.stored 0 ∧ counted s = 0 := by
  obtain ⟨s, hrun, hlength⟩ := exists_messages hdepth 8191 le_rfl
  obtain ⟨tr, hr⟩ := hrun.visiting lens
  refine ⟨tr, s, hr, ?_, hrun.counted⟩
  have hzero : ∀ k, sample (messages s) k = 0 := by
    intro k
    have hle := (messages_totals hrun.reachable).sample_le k
    rw [hrun.counted, Nat.le_zero] at hle
    exact BitVec.eq_of_toNat_eq hle
  have hafter := statistic_path (hrun.reachable.path runStatistic_pointToPoint .queryStatistic)
  change AfterMessages (messages s) _ at hafter
  rcases hregs : s.regs .queryStatistic with ⟨counter, lastData⟩ | lastData
  · rw [hregs] at hafter
    obtain ⟨-, -, hdiffer⟩ := hafter
    refine absurd ((hzero 1).trans (hzero 0).symm) (hdiffer 0 ?_)
    rw [hlength]
    decide
  · rw [hregs] at hafter
    obtain ⟨k, -, rfl, -⟩ := hafter
    rw [hzero]

end Idle

end RidgeWalker.Urw
