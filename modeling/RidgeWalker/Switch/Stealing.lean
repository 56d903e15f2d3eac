import RidgeWalker.Switch.Draining
import RidgeWalker.Dataflow.Execution

/-!
# Work stealing

`rpa_ws_scheduler` hands tasks from eight inputs to eight outputs without looking at them:
each stage sends a task to whichever of two streams has room.

Main results:

- Theorem `conserves`: a wired block that routes every package keeps every accepted task in
  exactly one place and emits it unchanged.
- Theorem `Run.lastLooks`: what a `ws_distribute_package` observed before it commits.
- Theorem `work_stealing`: the scheduler loses, repeats and changes no task, does not get
  stuck, and never commits a task to a full stream while it saw room on the other one.
-/

namespace RidgeWalker.Switch

open Dataflow Network

/-! ## Tasks -/

/-- A task of a run: the input it was offered on, its position there, and the item. -/
structure Task (n : ℕ) (α : Type) where
  input : Fin n
  seq : ℕ
  item : Frp α

section Tasks

variable {α : Type} {n : ℕ} {Inner Proc : Type} {b : Butterfly (Task n α) n Inner Proc}
  {depth : Chan (Ports n Inner) → ℕ}

/-- What the surroundings have put on the inputs, in order, are tasks of `offered`. -/
def OffersTasks (offered : Fin n → ℕ → Frp α) (s : (b.network depth).State) : Prop :=
  ∀ i, ∃ k, s.written ⟨(), .input i⟩ = (List.range k).map fun m => ⟨i, m, offered i m⟩

/-- What a scheduler owes for the tasks offered to it. -/
structure Conserves (offered : Fin n → ℕ → Frp α) (s : (b.network depth).State) : Prop where
  /-- Every accepted task is in exactly one place. -/
  once : ∀ x ∈ accepted s, ∃! pl, x ∈ contents s pl
  /-- No place holds a task twice; an output keeps what it has emitted. -/
  single : ∀ pl, (contents s pl).Nodup
  /-- No place holds anything but accepted tasks. -/
  genuine : ∀ pl, ∀ x ∈ contents s pl, x ∈ accepted s
  /-- A task is what was offered, wherever it is. -/
  unchanged : ∀ pl, ∀ x ∈ contents s pl, x.item = offered x.input x.seq

variable [Fintype Inner] [Fintype Proc] [DecidableEq Inner] [DecidableEq Proc]

/-- A wired block that routes every package conserves the tasks offered to it. -/
theorem conserves (hb : b.Wired) (hroutes : b.Routes) {offered : Fin n → ℕ → Frp α}
    {s : (b.network depth).State} (hs : (b.network depth).Reachable s)
    (hoff : OffersTasks offered s) : Conserves offered s := by
  have hcons := conserved hb hroutes hs
  have htaken : ∀ i, ∃ k, s.taken ⟨(), .input i⟩ <+:
      (List.range k).map fun m => (⟨i, m, offered i m⟩ : Task n α) := by
    intro i
    obtain ⟨k, hk⟩ := hoff i
    exact ⟨k, hk ▸ (s.fifo _).taken_isPrefix⟩
  have hmem : ∀ i, ∀ x ∈ s.taken ⟨(), .input i⟩, x.input = i ∧ x.item = offered i x.seq := by
    intro i x hx
    obtain ⟨k, hk⟩ := htaken i
    obtain ⟨m, -, rfl⟩ := List.mem_map.mp (hk.subset hx)
    exact ⟨rfl, rfl⟩
  have hnodup : ∀ i, (s.taken ⟨(), .input i⟩).Nodup := by
    intro i
    obtain ⟨k, hk⟩ := htaken i
    refine hk.sublist.nodup (List.nodup_range.map fun m m' h => congrArg Task.seq h)
  have hacc : (accepted s).Nodup :=
    nodup_sum_of_tag Task.input (fun i x hx => (hmem i x hx).1) hnodup
  have hgenuine : ∀ pl, ∀ x ∈ contents s pl, x ∈ accepted s := by
    intro pl x hx
    rw [← hcons]
    exact Multiset.mem_sum.mpr ⟨pl, Finset.mem_univ pl, hx⟩
  refine ⟨fun x hx => ?_, fun pl => ?_, hgenuine, fun pl x hx => ?_⟩
  · rw [← hcons] at hx hacc
    exact existsUnique_of_nodup_sum hacc hx
  · rw [← hcons] at hacc
    exact Multiset.nodup_of_le
      (Finset.single_le_sum (fun _ _ => Multiset.zero_le _) (Finset.mem_univ pl)) hacc
  · obtain ⟨i, -, hi⟩ := Multiset.mem_sum.mp (hgenuine pl x hx)
    obtain ⟨rfl, hitem⟩ := hmem i x hi
    exact hitem

end Tasks

/-! ## What a distributor saw before it commits -/

/-- With the fill of the two outputs as observed, `ws_distribute_package` selects a full one
only if the other one is full too. -/
theorem wsSelect_full {full : Fin 2 → Bool} {flag : Bool}
    (h : full (wsSelect (full 1) (full 0) flag) = true) (o : Fin 2) : full o = true := by
  cases h0 : full 0 <;> cases h1 : full 1 <;> cases flag <;> rw [h0, h1] at h <;>
    simp_all [wsSelect]
  all_goals fin_cases o <;> simp_all

namespace PackageCall

variable {S : Type} {C : S → Type} {word : S → Type} {s : S}

/-- The registers of a call of `ws_distribute_package`. -/
def stealing : (k : PackageCall C word s) → k.call.kernel.σ → Option (WsDistributeRegs (word s))
  | wsDistribute _ _ _ => fun r => some r
  | _ => fun _ => none

theorem stealing_start {k : PackageCall C word s} {in_ out1 out2 : C s}
    (hk : k = wsDistribute in_ out1 out2) :
    k.stealing k.call.kernel.start = some (.poll false) := by
  subst hk
  rfl

variable [DecidableEq S] [∀ s, DecidableEq (C s)]

/-- A distributor that has observed its first output did so in its last operation. -/
theorem of_weigh {depth : Chan C → ℕ} {k : PackageCall C word s} {in_ out1 out2 : C s}
    (hk : k = wsDistribute in_ out1 out2) {f f' : Fifos C word} {r r' : k.call.kernel.σ} {e}
    (hl : k.call.kernel.Local r e r') (he : Effect depth k.call f e f') {flag full1 : Bool}
    {item : word s} (hr : k.stealing r' = some (.weigh flag full1 item)) :
    k.stealing r = some (.inspect flag item) ∧ (∃ x y, e = .look x y) ∧
      full1 = decide (depth ⟨s, out1⟩ ≤ (f ⟨s, out1⟩).queue.length) := by
  subst hk
  have hy := hl.yields
  cases r with
  | poll flag' =>
      rcases hy with ⟨-, rfl⟩ | ⟨x, -, rfl⟩ <;> cases hr
  | inspect flag' item' =>
      obtain ⟨x, y, rfl, rfl⟩ := hy
      obtain ⟨-, -, rfl⟩ := he.of_look
      cases hr
      exact ⟨rfl, ⟨_, _, rfl⟩, rfl⟩
  | weigh flag' full1' item' =>
      obtain ⟨x, y, -, rfl⟩ := hy
      cases hr
  | emit o item' =>
      obtain ⟨-, rfl⟩ := hy
      cases hr

/-- A distributor that has committed a task observed its second output in its last
operation. -/
theorem of_emit {depth : Chan C → ℕ} {k : PackageCall C word s} {in_ out1 out2 : C s}
    (hk : k = wsDistribute in_ out1 out2) {f f' : Fifos C word} {r r' : k.call.kernel.σ} {e}
    (hl : k.call.kernel.Local r e r') (he : Effect depth k.call f e f') {o : Fin 2}
    {item : word s} (hr : k.stealing r' = some (.emit o item)) :
    ∃ flag full1, k.stealing r = some (.weigh flag full1 item) ∧ (∃ x y, e = .look x y) ∧
      o = wsSelect (decide (depth ⟨s, out2⟩ ≤ (f ⟨s, out2⟩).queue.length)) full1 flag := by
  subst hk
  have hy := hl.yields
  cases r with
  | poll flag' =>
      rcases hy with ⟨-, rfl⟩ | ⟨x, -, rfl⟩ <;> cases hr
  | inspect flag' item' =>
      obtain ⟨x, y, -, rfl⟩ := hy
      cases hr
  | weigh flag' full1' item' =>
      obtain ⟨x, y, rfl, rfl⟩ := hy
      obtain ⟨-, -, rfl⟩ := he.of_look
      cases hr
      exact ⟨flag', full1', rfl, ⟨_, _, rfl⟩, rfl⟩
  | emit o' item' =>
      obtain ⟨-, rfl⟩ := hy
      cases hr

end PackageCall

section Looks

variable {w : Type} {n : ℕ} {Inner Proc : Type} {b : Butterfly w n Inner Proc}
  {depth : Chan (Ports n Inner) → ℕ}

/-- The stream is full. -/
def Full (s : (b.network depth).State) (c : Port n Inner) : Bool :=
  decide (depth ⟨(), c⟩ ≤ (s.fifo ⟨(), c⟩).queue.length)

/-- The step is an operation of call `p`. -/
def Fires (p : Proc) (l : (b.network depth).Label) : Prop := ∃ r e, l = .fire p r e

variable [DecidableEq Inner] [DecidableEq Proc]

/-- In the run `tr` the last operation of call `p` was to observe its streams, in the state
`s` that the run reached after `before`. -/
def LastLook (tr : List (b.network depth).Label) (p : Proc)
    (before : List (b.network depth).Label) (s : (b.network depth).State) : Prop :=
  (b.network depth).Run (b.network depth).init before s ∧
    ∃ x y rest, tr = before ++ .fire p (s.regs p) (.look x y) :: rest ∧ ∀ l ∈ rest, ¬ Fires p l

/-- Steps of other calls and of the surroundings do not change what a call did last. -/
theorem LastLook.snoc {tr before : List (b.network depth).Label} {p : Proc}
    {s : (b.network depth).State} (h : LastLook tr p before s) {l : (b.network depth).Label}
    (hl : ¬ Fires p l) : LastLook (tr ++ [l]) p before s := by
  obtain ⟨hrun, x, y, rest, rfl, hrest⟩ := h
  refine ⟨hrun, x, y, rest ++ [l], by simp, fun l' hl' => ?_⟩
  rcases List.mem_append.mp hl' with hl' | hl'
  · exact hrest l' hl'
  · rw [List.mem_singleton.mp hl']
    exact hl

/-- What a distributor has observed when it goes by it. -/
structure Looked (tr : List (b.network depth).Label) (p : Proc) (out1 out2 : Port n Inner)
    (r : Option (WsDistributeRegs w)) : Prop where
  /-- Before it looks at its second output it has looked at the first. -/
  first : ∀ flag full1 item, r = some (.weigh flag full1 item) → ∃ before s,
    LastLook tr p before s ∧ (b.calls p).stealing (s.regs p) = some (.inspect flag item) ∧
      full1 = Full s out1
  /-- Before it commits a task it has looked at both. -/
  both : ∀ o item, r = some (.emit o item) → ∃ before₁ s₁ before₂ s₂ flag,
    LastLook before₂ p before₁ s₁ ∧ LastLook tr p before₂ s₂ ∧
      (b.calls p).stealing (s₁.regs p) = some (.inspect flag item) ∧
        (b.calls p).stealing (s₂.regs p) = some (.weigh flag (Full s₁ out1) item) ∧
          o = wsSelect (Full s₂ out2) (Full s₁ out1) flag

/-- In every run a distributor goes by what it observed last. -/
theorem run_looked {p : Proc} {in_ out1 out2 : Port n Inner}
    (hp : b.calls p = .wsDistribute in_ out1 out2) {tr : List (b.network depth).Label}
    {s : (b.network depth).State} (hr : (b.network depth).Run (b.network depth).init tr s) :
    Looked tr p out1 out2 ((b.calls p).stealing (s.regs p)) := by
  induction hr with
  | nil =>
      have hstart := PackageCall.stealing_start hp
      refine ⟨fun flag full1 item h => ?_, fun o item h => ?_⟩
      · cases hstart.symm.trans h
      · cases hstart.symm.trans h
  | @snoc tr t l u hrun hstep ih =>
      by_cases hl : Fires p l
      · obtain ⟨r, e, rfl⟩ := hl
        obtain ⟨rfl, hlocal, he⟩ := hstep.fire_effect
        have hlook : ∀ x y, e = .look x y → LastLook (tr ++ [.fire p (t.regs p) e]) p tr t := by
          rintro x y rfl
          exact ⟨hrun, x, y, [], rfl, by simp⟩
        refine ⟨fun flag full1 item hr => ?_, fun o item hr => ?_⟩
        · obtain ⟨hbefore, ⟨x, y, hxy⟩, hfull⟩ := PackageCall.of_weigh hp hlocal he hr
          exact ⟨tr, t, hlook x y hxy, hbefore, hfull⟩
        · obtain ⟨flag, full1, hbefore, ⟨x, y, hxy⟩, hsel⟩ := PackageCall.of_emit hp hlocal he hr
          obtain ⟨before, s₁, hfirst, hinspect, rfl⟩ := ih.first flag full1 item hbefore
          exact ⟨before, s₁, tr, t, flag, hfirst, hlook x y hxy, hinspect, hbefore, hsel⟩
      · have hregs : u.regs p = t.regs p := by
          cases hstep with
          | @fire q e r f _ _ =>
              have hq : p ≠ q := by
                rintro rfl
                exact hl ⟨_, _, rfl⟩
              exact Function.update_of_ne hq _ _
          | put _ _ => rfl
          | take _ _ => rfl
        rw [hregs]
        refine ⟨fun flag full1 item hr => ?_, fun o item hr => ?_⟩
        · obtain ⟨before, s₁, hlook, hrest⟩ := ih.first flag full1 item hr
          exact ⟨before, s₁, hlook.snoc hl, hrest⟩
        · obtain ⟨before₁, s₁, before₂, s₂, flag, hlook₁, hlook₂, hrest⟩ := ih.both o item hr
          exact ⟨before₁, s₁, before₂, s₂, flag, hlook₁, hlook₂.snoc hl, hrest⟩

/-- A distributor that has committed a task to a stream which it saw full saw the other one
full as well. -/
theorem run_commits {p : Proc} {in_ out1 out2 : Port n Inner}
    (hp : b.calls p = .wsDistribute in_ out1 out2) {tr : List (b.network depth).Label}
    {s : (b.network depth).State} (hr : (b.network depth).Run (b.network depth).init tr s)
    {o : Fin 2} {item : w} (ho : (b.calls p).stealing (s.regs p) = some (.emit o item)) :
    ∃ before₁ s₁ before₂ s₂, LastLook before₂ p before₁ s₁ ∧ LastLook tr p before₂ s₂ ∧
      (∃ flag, (b.calls p).stealing (s₁.regs p) = some (.inspect flag item)) ∧
        (∃ flag full1, (b.calls p).stealing (s₂.regs p) = some (.weigh flag full1 item)) ∧
          (![Full s₁ out1, Full s₂ out2] o = true →
            ∀ o', ![Full s₁ out1, Full s₂ out2] o' = true) := by
  obtain ⟨before₁, s₁, before₂, s₂, flag, hlook₁, hlook₂, hinspect, hweigh, rfl⟩ :=
    (run_looked hp hr).both o item ho
  exact ⟨before₁, s₁, before₂, s₂, hlook₁, hlook₂, ⟨flag, hinspect⟩, ⟨flag, _, hweigh⟩,
    fun h => wsSelect_full h⟩

end Looks

/-! ## The scheduler -/

section Scheduler

variable {S : Type} {C : S → Type} {word : S → Type} {s : S}

/-- Reads and writes ahead of a task on a stream inside `rpa_ws_scheduler`. -/
def levelScheduler : SchedulerInner → ℕ
  | .inl _ => 14
  | .inr (.inl _) => 2
  | .inr (.inr x) => 2 + level8 x

/-- Reads and writes ahead of a task that a call of `rpa_ws_scheduler` holds. -/
def heightScheduler : SchedulerProc → ℕ
  | .inl _ => 15
  | .inr (.inl p) => 2 + height8 p
  | .inr (.inr _) => 1

theorem rpaWsScheduler_graded :
    (rpaWsScheduler : Block C word s 8 SchedulerInner SchedulerProc).Graded 16 levelScheduler
      heightScheduler := by
  have hws : (workStealing8x8Frp : Block C word s 8 Inner8 Proc8).Graded 12 level8 height8 :=
    workStealing8x8Frp_graded
  refine ⟨by decide, ?_, ?_, ?_, fun ins outs inner ahead base hi ho hx => ?_⟩
  · rintro (k | k | x)
    · exact Nat.succ_pos 13
    · exact Nat.succ_pos 1
    · exact Nat.add_pos_left (by decide) _
  · rintro (k | k | x)
    · exact (by decide : (14 : ℕ) < 16)
    · exact (by decide : (2 : ℕ) < 16)
    · have hlt := hws.level_lt x
      simp only [levelScheduler]
      omega
  · rintro (k | p | k)
    · exact Nat.succ_pos 14
    · exact Nat.add_pos_left (by decide) _
    · exact Nat.succ_pos 0
  · rintro (k | p | k)
    · simp [rpaWsScheduler, hi, hx, heightScheduler, levelScheduler, Nat.add_assoc]
    · obtain ⟨hins, houts⟩ := hws.ways _ _ _ ahead (base + 2)
        (fun i => hx (.inl i)) (fun j => hx (.inr (.inl j)))
        (fun x => (hx (.inr (.inr x))).trans (Nat.add_assoc _ _ _).symm) p
      refine ⟨fun c hc => ?_, fun c hc => ?_⟩
      · rw [hins c hc, heightScheduler, Nat.add_assoc base]
      · rw [houts c hc, heightScheduler, Nat.add_assoc]
    · simp [rpaWsScheduler, ho, hx, heightScheduler, levelScheduler]

end Scheduler

/-- The package calls of `rpa_ws_scheduler` on its own streams. -/
abbrev schedulerCall (α : Type) (p : SchedulerProc) :
    PackageCall (Ports 8 SchedulerInner) (fun _ => Task 8 α) () :=
  Butterfly.calls rpaWsScheduler p

/-- `rpa_ws_scheduler` as a closed system. -/
abbrev scheduler (α : Type) (depth : Chan (Ports 8 SchedulerInner) → ℕ) :
    Network SchedulerProc (Ports 8 SchedulerInner) fun _ => Task 8 α :=
  Butterfly.network rpaWsScheduler depth

/-- `rpa_ws_scheduler` keeps every accepted task in one place and emits it unchanged; it
does not get stuck; and a distributor commits a task to a stream that it saw full only if it
saw the other one full as well. -/
theorem work_stealing {α : Type} (depth : Chan (Ports 8 SchedulerInner) → ℕ)
    (offered : Fin 8 → ℕ → Frp α) :
    (∀ s : (scheduler α depth).State, (scheduler α depth).Reachable s →
      OffersTasks offered s → Conserves offered s) ∧
    ((∀ x, 1 ≤ depth ⟨(), .inner x⟩) →
      Drains (rpaWsScheduler : Butterfly (Task 8 α) 8 SchedulerInner SchedulerProc) depth
        (movesAhead levelScheduler heightScheduler)) ∧
    ∀ p in_ out1 out2, schedulerCall α p = .wsDistribute in_ out1 out2 →
      ∀ tr (s : (scheduler α depth).State), (scheduler α depth).Run (scheduler α depth).init tr s →
        ∀ o item, (schedulerCall α p).stealing (s.regs p) = some (.emit o item) →
          ∃ before₁ s₁ before₂ s₂, LastLook before₂ p before₁ s₁ ∧ LastLook tr p before₂ s₂ ∧
            (∃ flag, (schedulerCall α p).stealing (s₁.regs p) = some (.inspect flag item)) ∧
            (∃ flag full1,
              (schedulerCall α p).stealing (s₂.regs p) = some (.weigh flag full1 item)) ∧
            (![Full s₁ out1, Full s₂ out2] o = true →
              ∀ o', ![Full s₁ out1, Full s₂ out2] o' = true) := by
  refine ⟨fun s hs hoff => ?_, fun hdepth => ?_, fun p in_ out1 out2 hp tr s hr o item ho => ?_⟩
  · exact conserves rpaWsScheduler_wired rpaWsScheduler_routes hs hoff
  · exact Butterfly.drains (b := rpaWsScheduler) rpaWsScheduler_wired rpaWsScheduler_routes
      rpaWsScheduler_graded hdepth
  · exact run_commits hp hr ho

/-- The first task on input 0. -/
def firstTask : Task 8 Unit := ⟨0, 0, ⟨(), true⟩⟩

/-- The first distributor of `rpa_ws_scheduler`. -/
def firstDistributor : SchedulerProc := .inr (.inl (.inl (0, .inl (0, .inl 0))))

/-- A task that the first distributor commits on streams that hold a single task. -/
theorem work_stealing_first :
    ∃ (tr : List (scheduler Unit fun _ => 1).Label) (s : (scheduler Unit fun _ => 1).State),
      accepted s = {firstTask} ∧
      Conserves (fun _ _ => firstTask.item) s ∧
      Drains (rpaWsScheduler : Butterfly (Task 8 Unit) 8 SchedulerInner SchedulerProc)
        (fun _ => 1) (movesAhead levelScheduler heightScheduler) ∧
      ∃ before₁ before₂, ∃ s₁ s₂ : (scheduler Unit fun _ => 1).State,
        LastLook before₂ firstDistributor before₁ s₁ ∧
          LastLook tr firstDistributor before₂ s₂ := by
  let N := scheduler Unit fun _ => 1
  let acts : List N.Action := [.put ⟨(), .input 0⟩ firstTask, .fire (.inl 0) none,
    .fire (.inl 0) none, .fire firstDistributor none, .fire firstDistributor none,
    .fire firstDistributor none]
  obtain ⟨tr, s, hx⟩ : ∃ tr s, Network.execute (fun _ _ => True) acts [] N.init = some (tr, s) :=
    ⟨_, _, rfl⟩
  have hr := (Network.execute_run .nil hx).run
  obtain ⟨hconserves, hdrains, hcommits⟩ := work_stealing (fun _ => 1) fun _ _ => firstTask.item
  have hoff : OffersTasks (fun _ _ => firstTask.item) s := by
    cases hx
    intro i
    fin_cases i
    · exact ⟨1, rfl⟩
    all_goals exact ⟨0, rfl⟩
  have hcommit := hcommits firstDistributor _ _ _ rfl tr s hr 1 firstTask (by cases hx; rfl)
  obtain ⟨before₁, s₁, before₂, s₂, hlook₁, hlook₂, -⟩ := hcommit
  refine ⟨tr, s, by cases hx; rfl, hconserves s ⟨tr, hr⟩ hoff, hdrains fun _ => le_rfl,
    before₁, before₂, s₁, s₂, hlook₁, hlook₂⟩

end RidgeWalker.Switch
