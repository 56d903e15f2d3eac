import RidgeWalker.Urw.Loop

/-!
# Queries in flight

The eight `old_first_merge_instance` processes hold `AHEAD_COUNTER` credits each.  A
credit is taken when a query is admitted and given back when one is retired, on whatever
lane that happens; a saturated lane discards it, and a lane that has waited too long for
an old query takes all its credits back.

Main results:

- Theorem `in_flight_account`: the exact account of credits in every run, and the bound on
  the queries in flight that follows from it.
- Theorem `in_flight_unbounded`: without the credits that idle lanes take back there is no
  such bound.
-/

namespace RidgeWalker.Urw

open Dataflow

/-! ## Credits of one lane -/

/-- An event of `old_first_merge_instance`. -/
abbrev MergeEvent : Type := Event (fun _ : MergeIn => Query) (fun _ : Unit => Query) Empty

/-- The event admits a query from the new-query stream. -/
def admittedBy (_ : OldFirstMergeRegs) : MergeEvent → ℕ
  | .read .new _ => 1
  | _ => 0

/-- The event retires a query. -/
def retiredBy (_ : OldFirstMergeRegs) : MergeEvent → ℕ
  | .read .old q => if q.len = 0 then 1 else 0
  | _ => 0

/-- The event retires a query on a lane that holds all its credits already. -/
def discardedBy : OldFirstMergeRegs → MergeEvent → ℕ
  | .poll counter _, .read .old q => if q.len = 0 ∧ ¬counter < aheadCounter then 1 else 0
  | _, _ => 0

/-- The credits that the event lets an idle lane take back. -/
def regrantedBy : OldFirstMergeRegs → MergeEvent → ℕ
  | .poll counter timeout, .readNone .old =>
      if counter ≠ 0 then 0 else if timeout < oldQueryTimeout then 0 else aheadCounter - counter
  | .pollNew counter timeout, .readNone .new =>
      if timeout < oldQueryTimeout then 0 else aheadCounter - counter
  | .emitNew counter timeout _, .write _ _ =>
      if timeout < oldQueryTimeout then 0 else aheadCounter - (counter - 1)
  | _, _ => 0

/-- The credits that a lane has given away. -/
def OldFirstMergeRegs.owed : OldFirstMergeRegs → ℕ
  | poll counter _ => aheadCounter - counter
  | pollNew counter _ => aheadCounter - counter
  | emitOld counter _ => aheadCounter - counter
  | emitNew counter _ _ => aheadCounter - (counter - 1)

/-- The counter stays within its range, and is positive when a new query may be taken. -/
def OldFirstMergeRegs.InRange : OldFirstMergeRegs → Prop
  | poll counter _ => counter ≤ aheadCounter
  | pollNew counter _ => counter ≤ aheadCounter ∧ 0 < counter
  | emitOld counter _ => counter ≤ aheadCounter
  | emitNew counter _ _ => counter ≤ aheadCounter ∧ 0 < counter

@[simp] theorem owed_poll (counter timeout : ℕ) :
    (OldFirstMergeRegs.poll counter timeout).owed = aheadCounter - counter := rfl

@[simp] theorem owed_pollNew (counter timeout : ℕ) :
    (OldFirstMergeRegs.pollNew counter timeout).owed = aheadCounter - counter := rfl

@[simp] theorem owed_emitOld (counter : ℕ) (updated : Query) :
    (OldFirstMergeRegs.emitOld counter updated).owed = aheadCounter - counter := rfl

@[simp] theorem owed_emitNew (counter timeout : ℕ) (pkg : Query) :
    (OldFirstMergeRegs.emitNew counter timeout pkg).owed = aheadCounter - (counter - 1) := rfl

theorem OldFirstMergeRegs.owed_le (r : OldFirstMergeRegs) : r.owed ≤ aheadCounter := by
  cases r <;> exact Nat.sub_le _ _

theorem idleTimeout_inRange {counter timeout : ℕ} (h : counter ≤ aheadCounter) :
    (idleTimeout counter timeout).InRange := by
  unfold idleTimeout
  split
  · exact h
  · exact le_refl aheadCounter

theorem idleTimeout_owed (counter timeout : ℕ) :
    (idleTimeout counter timeout).owed +
      (if timeout < oldQueryTimeout then 0 else aheadCounter - counter) =
        aheadCounter - counter := by
  unfold idleTimeout
  split
  · rfl
  · simp [OldFirstMergeRegs.owed]

/-- The account of credits over one event of one lane. -/
theorem oldFirstMerge_account {r r' : OldFirstMergeRegs} {e : MergeEvent} (hr : r.InRange)
    (hl : oldFirstMergeKernel.Local r e r') :
    r'.InRange ∧ r'.owed + retiredBy r e + regrantedBy r e =
      r.owed + admittedBy r e + discardedBy r e := by
  have hy := hl.yields
  cases r with
  | poll counter timeout =>
      have hc : counter ≤ aheadCounter := hr
      rcases hy with ⟨rfl, rfl⟩ | ⟨q, rfl, rfl⟩
      · by_cases h0 : counter = 0
        · subst h0
          refine ⟨idleTimeout_inRange hc, ?_⟩
          simpa [retiredBy, regrantedBy, admittedBy, discardedBy]
            using idleTimeout_owed 0 timeout
        · refine ⟨?_, ?_⟩
          · simpa [h0] using ⟨hc, Nat.pos_of_ne_zero h0⟩
          · simp [retiredBy, regrantedBy, admittedBy, discardedBy, h0]
      · by_cases h0 : q.len = 0
        · -- The query is retired: the credit comes back, unless the lane is saturated.
          simp only [h0, if_true]
          by_cases hlt : counter < aheadCounter
          · refine ⟨?_, ?_⟩
            · simp only [giveBack, hlt, if_true]
              exact hlt
            · simp only [retiredBy, regrantedBy, admittedBy, discardedBy, giveBack, hlt, h0,
                owed_poll, if_true, not_true, and_false, if_false]
              omega
          · refine ⟨?_, ?_⟩
            · simp only [giveBack, hlt, if_false]
              exact hc
            · simp [retiredBy, regrantedBy, admittedBy, discardedBy, giveBack, hlt, h0]
        · simp only [h0, if_false]
          refine ⟨hc, ?_⟩
          simp [retiredBy, regrantedBy, admittedBy, discardedBy, h0]
  | pollNew counter timeout =>
      obtain ⟨hc, hpos⟩ := hr
      rcases hy with ⟨rfl, rfl⟩ | ⟨q, rfl, rfl⟩
      · refine ⟨idleTimeout_inRange hc, ?_⟩
        simpa [retiredBy, regrantedBy, admittedBy, discardedBy]
          using idleTimeout_owed counter timeout
      · refine ⟨⟨hc, hpos⟩, ?_⟩
        simp only [retiredBy, regrantedBy, admittedBy, discardedBy, owed_pollNew, owed_emitNew]
        omega
  | emitOld counter updated =>
      obtain ⟨rfl, rfl⟩ := hy
      exact ⟨hr, rfl⟩
  | emitNew counter timeout pkg =>
      obtain ⟨rfl, rfl⟩ := hy
      refine ⟨idleTimeout_inRange ((Nat.sub_le _ _).trans hr.1), ?_⟩
      simpa [retiredBy, regrantedBy, admittedBy, discardedBy]
        using idleTimeout_owed (counter - 1) timeout

/-! ## The loop of the eight lanes -/

/-- The eight lanes and the pipeline between their outputs and their old-query streams,
with everything that lies on the way. -/
inductive MergeLoopProc where
  | queryMerge (k : Fin 8)
  | pipeline
deriving DecidableEq, Fintype

/-- The closed loop of `query_merge`; the surroundings feed the new-query streams. -/
def mergeLoop (depth : Chan UrwChan → ℕ) : Network MergeLoopProc UrwChan UrwWord where
  node
    | .queryMerge k => oldFirstMergeInstance (.old k) (.new k) (.out k)
    | .pipeline => walkingPipeline .out .old
  depth := depth

variable {depth : Chan UrwChan → ℕ}

/-- What a step contributes to a count of lane events. -/
def laneCount (f : OldFirstMergeRegs → MergeEvent → ℕ) : (mergeLoop depth).Label → ℕ
  | .fire (.queryMerge _) r e => f r e
  | _ => 0

/-- A count of lane events over a run. -/
def laneTotal (f : OldFirstMergeRegs → MergeEvent → ℕ) (tr : List (mergeLoop depth).Label) : ℕ :=
  (tr.map (laneCount f)).sum

/-- Queries admitted from the new-query streams. -/
def admitted (tr : List (mergeLoop depth).Label) : ℕ := laneTotal admittedBy tr

/-- Queries retired. -/
def retired (tr : List (mergeLoop depth).Label) : ℕ := laneTotal retiredBy tr

/-- Credits discarded by saturated lanes. -/
def discarded (tr : List (mergeLoop depth).Label) : ℕ := laneTotal discardedBy tr

/-- Credits taken back by idle lanes. -/
def regranted (tr : List (mergeLoop depth).Label) : ℕ := laneTotal regrantedBy tr

/-- The registers of a lane. -/
def lane (s : (mergeLoop depth).State) (k : Fin 8) : OldFirstMergeRegs := s.regs (.queryMerge k)

/-- The account of credits over one step. -/
theorem mergeLoop_step {s s' : (mergeLoop depth).State} {l : (mergeLoop depth).Label}
    (hs : (mergeLoop depth).Step s l s') (hr : ∀ k, (lane s k).InRange) :
    (∀ k, (lane s' k).InRange) ∧
      (∑ k, (lane s' k).owed) + laneCount retiredBy l + laneCount regrantedBy l =
        (∑ k, (lane s k).owed) + laneCount admittedBy l + laneCount discardedBy l := by
  have hframe : (∀ k, lane s' k = lane s k) → (∀ f, laneCount f l = 0) →
      (∀ k, (lane s' k).InRange) ∧
        (∑ k, (lane s' k).owed) + laneCount retiredBy l + laneCount regrantedBy l =
          (∑ k, (lane s k).owed) + laneCount admittedBy l + laneCount discardedBy l := by
    intro hlane hzero
    refine ⟨fun k => hlane k ▸ hr k, ?_⟩
    simp only [hzero, hlane]
  cases l with
  | fire p r e =>
      obtain ⟨rfl, r', hl, hregs⟩ := hs.fire_regs
      cases p with
      | queryMerge j =>
          obtain ⟨hrange, hacc⟩ := oldFirstMerge_account (hr j) hl
          have hcount : ∀ f, @laneCount depth f (.fire (.queryMerge j) (lane s j) e) =
              f (lane s j) e := fun f => rfl
          have hself : lane s' j = r' := by
            rw [lane, hregs]
            exact Function.update_self ..
          have hother : ∀ k, k ≠ j → lane s' k = lane s k := fun k hk => by
            rw [lane, hregs]
            exact Function.update_of_ne (fun he => hk (by injection he)) ..
          refine ⟨fun k => ?_, ?_⟩
          · by_cases hk : k = j
            · rw [hk, hself]
              exact hrange
            · rw [hother k hk]
              exact hr k
          · have hrest : ∑ k ∈ Finset.univ.erase j, (lane s' k).owed =
                ∑ k ∈ Finset.univ.erase j, (lane s k).owed :=
              Finset.sum_congr rfl fun k hk => by rw [hother k (Finset.ne_of_mem_erase hk)]
            show (∑ k, (lane s' k).owed) + laneCount retiredBy (.fire (.queryMerge j) (lane s j) e) +
                laneCount regrantedBy (.fire (.queryMerge j) (lane s j) e) =
              (∑ k, (lane s k).owed) + laneCount admittedBy (.fire (.queryMerge j) (lane s j) e) +
                laneCount discardedBy (.fire (.queryMerge j) (lane s j) e)
            rw [← Finset.add_sum_erase _ _ (Finset.mem_univ j), hrest, hself,
              ← Finset.add_sum_erase Finset.univ (fun k => (lane s k).owed) (Finset.mem_univ j)]
            simp only [hcount]
            omega
      | pipeline =>
          have hne : ∀ k, MergeLoopProc.queryMerge k ≠ .pipeline := fun k => nofun
          refine hframe (fun k => ?_) fun _ => rfl
          rw [lane, hregs]
          exact Function.update_of_ne (hne k) ..
  | put c a => exact hframe (fun k => by rw [lane, hs.put_regs]; rfl) fun _ => rfl
  | take c a => exact hframe (fun k => by rw [lane, hs.take_regs]; rfl) fun _ => rfl

/-- The account of credits over a run. -/
theorem mergeLoop_run {tr : List (mergeLoop depth).Label} {s : (mergeLoop depth).State}
    (hr : (mergeLoop depth).Run (mergeLoop depth).init tr s) :
    (∀ k, (lane s k).InRange) ∧
      (∑ k, (lane s k).owed) + retired tr + regranted tr = admitted tr + discarded tr := by
  induction hr with
  | nil =>
      refine ⟨fun k => le_refl aheadCounter, ?_⟩
      have hzero : ∀ k, (lane (mergeLoop depth).init k).owed = 0 := fun k => Nat.sub_self _
      simp [hzero, retired, regranted, admitted, discarded, laneTotal]
  | snoc _ hs ih =>
      obtain ⟨hrange, hacc⟩ := ih
      obtain ⟨hrange', hstep⟩ := mergeLoop_step hs hrange
      refine ⟨hrange', ?_⟩
      simp only [retired, regranted, admitted, discarded, laneTotal, List.map_append,
        List.map_cons, List.map_nil, List.sum_append, List.sum_singleton] at hacc ⊢
      omega

/-- The queries in flight are the credits given away, with those that idle lanes have taken
back and without those that saturated lanes have discarded; so their number is bounded by
all credits as long as the former are not more than the latter. -/
theorem in_flight_account {tr : List (mergeLoop depth).Label} {s : (mergeLoop depth).State}
    (hr : (mergeLoop depth).Run (mergeLoop depth).init tr s) :
    admitted tr + discarded tr = retired tr + regranted tr + ∑ k, (lane s k).owed ∧
      admitted tr + discarded tr ≤ retired tr + regranted tr + 8 * aheadCounter ∧
      (regranted tr ≤ discarded tr → admitted tr ≤ retired tr + 8 * aheadCounter) := by
  obtain ⟨-, hacc⟩ := mergeLoop_run hr
  have hbound : ∑ k, (lane s k).owed ≤ 8 * aheadCounter := by
    refine (Finset.sum_le_sum fun k _ => (lane s k).owed_le).trans ?_
    simp
  refine ⟨by omega, by omega, fun hle => by omega⟩

/-! ## Without the credits of idle lanes -/

/-- The state in which a run with `n` admissions and no retirements on lane 0 may go on. -/
structure Flood (n : ℕ) (tr : List (mergeLoop depth).Label) (s : (mergeLoop depth).State) :
    Prop where
  run : (mergeLoop depth).Run (mergeLoop depth).init tr s
  admitted : admitted tr = n
  retired : retired tr = 0
  /-- Every query without an old one before it brings the timeout nearer by one. -/
  lane : ∃ counter timeout, lane s 0 = .poll counter timeout ∧
    counter + timeout = aheadCounter ∧ timeout ≤ oldQueryTimeout
  pipeline : ∃ queries, s.regs .pipeline = BagRegs.idle queries
  old : (s.fifo (UrwStream.old 0).chan).queue = []
  new : (s.fifo (UrwStream.new 0).chan).queue = []
  out : (s.fifo (UrwStream.out 0).chan).queue = []

theorem fire_lane {s : (mergeLoop depth).State} {r r' : OldFirstMergeRegs} {e f}
    (hr : lane s 0 = r) (hl : oldFirstMergeKernel.Local r e r')
    (he : Network.Effect depth (oldFirstMergeInstance (.old 0) (.new 0) (.out 0)) s.fifo e f) :
    ∃ s', (mergeLoop depth).Step s (.fire (.queryMerge 0) r e) s' ∧ lane s' 0 = r' ∧
      s'.regs .pipeline = s.regs .pipeline ∧ s'.fifo = f := by
  subst hr
  have hs := Network.Step.fire (N := mergeLoop depth) (s := s) (p := .queryMerge 0) hl he
  refine ⟨_, hs, ?_, rfl, rfl⟩
  exact Function.update_self (MergeLoopProc.queryMerge 0) _ s.regs

theorem fire_pipeline {s : (mergeLoop depth).State} {r r' : BagRegs (Fin 8) (Fin 8) Hop Query} {e f}
    (hr : s.regs .pipeline = r) (hl : walkingPipelineKernel.Local r e r')
    (he : Network.Effect depth (walkingPipeline .out .old) s.fifo e f) :
    ∃ s', (mergeLoop depth).Step s (.fire .pipeline r e) s' ∧ lane s' 0 = lane s 0 ∧
      s'.regs .pipeline = r' ∧ s'.fifo = f := by
  subst hr
  have hs := Network.Step.fire (N := mergeLoop depth) (s := s) (p := .pipeline) hl he
  refine ⟨_, hs, rfl, ?_, rfl⟩
  exact Function.update_self MergeLoopProc.pipeline _ s.regs

theorem poll_none {counter timeout : ℕ} (h : counter ≠ 0) :
    oldFirstMergeKernel.Local (.poll counter timeout) (.readNone .old)
      (.pollNew counter timeout) := by
  have hl := Kernel.Local.readNone (K := oldFirstMergeKernel) (r := .poll counter timeout)
    (i := .old) rfl
  rwa [if_pos h] at hl

/-- One more query is admitted on lane 0 and disappears in the pipeline. -/
theorem Flood.succ {n : ℕ} {tr : List (mergeLoop fun _ => 1).Label} {s}
    (h : Flood n tr s) (q : Query) : ∃ tr' s', @Flood (fun _ => 1) (n + 1) tr' s' := by
  obtain ⟨counter, timeout, hlane, hsum, hmax⟩ := h.lane
  obtain ⟨queries, hpipe⟩ := h.pipeline
  have hnew : ∀ p o, ((mergeLoop fun _ => 1).node p).dst o ≠ (UrwStream.new 0).chan := by
    intro p o
    cases p <;> exact nofun
  have hpos : counter ≠ 0 := by
    simp only [aheadCounter, oldQueryTimeout] at hsum hmax
    omega
  let k := oldFirstMergeInstance (.old 0) (.new 0) (.out 0)
  let f₁ := Function.update s.fifo (UrwStream.new 0).chan ((s.fifo (UrwStream.new 0).chan).push q)
  let f₃ := Function.update f₁ (UrwStream.new 0).chan (f₁ (UrwStream.new 0).chan).pop
  let f₄ := Function.update f₃ (UrwStream.out 0).chan ((f₃ (UrwStream.out 0).chan).push q)
  have hold : (f₁ (UrwStream.old 0).chan).queue = [] := h.old
  have hout : (f₃ (UrwStream.out 0).chan).queue = [] := h.out
  have hnew₁ : (f₁ (UrwStream.new 0).chan).queue = [q] := by simp [f₁, h.new]
  have hout₄ : (f₄ (UrwStream.out 0).chan).queue = [q] := by simp [f₄, hout]
  -- The query arrives; there is no old one, so the lane admits it.
  have h₁ := Network.Step.put (N := mergeLoop fun _ => 1) (s := s) (a := q) hnew
    (by rw [h.new]; exact Nat.zero_lt_one)
  have he₂ : Network.Effect (fun _ => 1) k f₁ (.readNone MergeIn.old) f₁ := .readNone hold
  obtain ⟨s₂, h₂, hlane₂, hpipe₂, hf₂⟩ := fire_lane (s := ⟨s.regs, f₁⟩) hlane (poll_none hpos) he₂
  have he₃ : Network.Effect (fun _ => 1) k f₁ (.read MergeIn.new q) f₃ := .read hnew₁
  rw [← hf₂] at he₃
  obtain ⟨s₃, h₃, hlane₃, hpipe₃, hf₃⟩ := fire_lane hlane₂
    (.readNb (K := oldFirstMergeKernel) (i := MergeIn.new) rfl q) he₃
  have he₄ : Network.Effect (fun _ => 1) k f₃ (.write () q) f₄ :=
    .write (by rw [show (f₃ (k.dst ())).queue = [] from hout]; exact Nat.zero_lt_one)
  rw [← hf₃] at he₄
  obtain ⟨s₄, h₄, hlane₄, hpipe₄, hf₄⟩ := fire_lane hlane₃
    (.write (K := oldFirstMergeKernel) (o := ()) rfl) he₄
  -- The pipeline takes it in.
  have he₅ : Network.Effect (fun _ => 1) (walkingPipeline .out .old) s₄.fifo
      (.choose (BagChoice.accept 0)) s₄.fifo := .choose
  obtain ⟨s₅, h₅, hlane₅, hpipe₅, hf₅⟩ := fire_pipeline ((hpipe₄.trans hpipe₃).trans (hpipe₂.trans hpipe))
    (.choose (K := walkingPipelineKernel) rfl (BagChoice.accept 0)) he₅
  have he₆ : Network.Effect (fun _ => 1) (walkingPipeline .out .old) f₄ (.read (0 : Fin 8) q)
      (Function.update f₄ (UrwStream.out 0).chan (f₄ (UrwStream.out 0).chan).pop) := .read hout₄
  rw [← hf₅.trans hf₄] at he₆
  obtain ⟨s₆, h₆, hlane₆, hpipe₆, hf₆⟩ := fire_pipeline hpipe₅
    (.readNb (K := walkingPipelineKernel) (i := (0 : Fin 8)) rfl q) he₆
  rw [hf₅.trans hf₄] at hf₆
  have hrun := (((((h.run.snoc h₁).snoc h₂).snoc h₃).snoc h₄).snoc h₅).snoc h₆
  refine ⟨_, s₆, hrun, ?_, ?_, ?_, ⟨_, hpipe₆⟩, ?_, ?_, ?_⟩
  · rw [← h.admitted]
    simp [Urw.admitted, laneTotal, laneCount, admittedBy]
  · rw [← h.retired]
    simp [Urw.retired, laneTotal, laneCount, retiredBy]
  · have hlane : Urw.lane s₆ 0 = idleTimeout (counter - 1) timeout :=
      (hlane₆.trans hlane₅).trans hlane₄
    rw [hlane, idleTimeout]
    split
    · exact ⟨_, _, rfl, by omega, by omega⟩
    · exact ⟨_, _, rfl, rfl, Nat.zero_le _⟩
  · rw [hf₆]
    exact h.old
  · rw [hf₆]
    exact Fifo.pop_queue hnew₁
  · rw [hf₆]
    exact Fifo.pop_queue hout₄

/-- Lane 0 admits any number of queries while none comes back: every 4096 of them it takes
its credits back. -/
theorem flood (n : ℕ) : ∃ tr s, @Flood (fun _ => 1) n tr s := by
  induction n with
  | zero =>
      exact ⟨[], _, .nil, rfl, rfl, ⟨_, _, rfl, rfl, Nat.zero_le _⟩, ⟨_, rfl⟩, rfl, rfl, rfl⟩
  | succ n ih =>
      obtain ⟨tr, s, h⟩ := ih
      exact h.succ ⟨n, ⟨0, ⟨0, 0, 0⟩, false⟩⟩

/-- The queries in flight are not bounded by the credits of the eight lanes. -/
theorem in_flight_unbounded :
    ¬∀ (tr : List (mergeLoop fun _ => 1).Label) (s : (mergeLoop fun _ => 1).State),
      (mergeLoop fun _ => 1).Run (mergeLoop fun _ => 1).init tr s →
        admitted tr ≤ retired tr + 8 * aheadCounter := by
  intro hall
  obtain ⟨tr, s, h⟩ := flood (8 * aheadCounter + 1)
  have hle := hall tr s h.run
  rw [h.admitted, h.retired] at hle
  omega

/-- In a run that admits more queries than there are credits, idle lanes have taken back
more of them than saturated lanes have discarded. -/
theorem in_flight_account_flood :
    ∃ (tr : List (mergeLoop fun _ => 1).Label),
      retired tr = 0 ∧ 8 * aheadCounter < admitted tr ∧ discarded tr < regranted tr := by
  obtain ⟨tr, s, h⟩ := flood (8 * aheadCounter + 1)
  have hadm := h.admitted
  have hret := h.retired
  have hbound := (in_flight_account h.run).2.2
  refine ⟨tr, hret, by omega, ?_⟩
  by_contra hle
  have := hbound (Nat.le_of_not_lt hle)
  omega

end RidgeWalker.Urw
