import RidgeWalker.Dataflow.Network

/-!
# Kernels that compute on streams

A kernel that works in rounds takes some words from its inputs and gives some words to its
outputs in each of them.  Its history lags behind the rounds it has begun only by the words
it has taken for the next round and by those it still has to give for the last one.

Main results:

- Definition `Rounds`: how a kernel works in rounds.
- Theorem `Rounds.fires`: what such a kernel has received and sent.
- Theorem `Network.Reachable.feedback`: what holds of the words of a feedback stream.
- Theorems `Network.GuardedRun.histories` and `Network.GuardedRun.keeps`: an invariant of one kernel in the runs of a system.
- Theorem `zip_isPrefix`: rounds are made of the words that the inputs have in common.
-/

namespace RidgeWalker.Dataflow

variable {In Out : Type} {α : In → Type} {β : Out → Type}

/-- How a kernel works in rounds: what it takes and gives in a sequence of rounds, and what
its registers say about the round it is in. -/
structure Rounds (K : Kernel α β) (ρ : Type) where
  /-- The words taken in the rounds so far. -/
  ins : List ρ → ∀ i, List (α i)
  /-- The words given in the rounds so far. -/
  outs : List ρ → ∀ o, List (β o)
  /-- The words taken for the next round. -/
  got : K.σ → ∀ i, List (α i)
  /-- The words still to be given for the last round. -/
  owes : K.σ → ∀ o, List (β o)
  /-- The registers that carry over agree with the rounds so far. -/
  agrees : List ρ → K.σ → Prop

namespace Rounds

variable {K : Kernel α β} {ρ : Type}

/-- The history of a kernel that works in rounds. -/
structure History (W : Rounds K ρ) (rounds : List ρ) (r : K.σ) (R : ∀ i, List (α i))
    (S : ∀ o, List (β o)) : Prop where
  agrees : W.agrees rounds r
  received : ∀ i, R i = W.ins rounds i ++ W.got r i
  sent : ∀ o, S o ++ W.owes r o = W.outs rounds o

section Operations

variable {W : Rounds K ρ} {rounds : List ρ} {r r' : K.σ} {R : ∀ i, List (α i)}
  {S : ∀ o, List (β o)}

/-- An operation without words that changes neither what was taken nor what is to be given. -/
theorem History.idle (h : W.History rounds r R S) (hagrees : W.agrees rounds r')
    (hgot : W.got r' = W.got r) (howes : W.owes r' = W.owes r) : W.History rounds r' R S :=
  ⟨hagrees, fun i => by rw [hgot, h.received], fun o => by rw [howes, h.sent]⟩

/-- A word is taken for the next round. -/
theorem History.take [DecidableEq In] (h : W.History rounds r R S) {i : In} {a : α i}
    (hagrees : W.agrees rounds r')
    (hgot : W.got r' = Function.update (W.got r) i (W.got r i ++ [a]))
    (howes : W.owes r' = W.owes r) :
    W.History rounds r' (Function.update R i (R i ++ [a])) S := by
  refine ⟨hagrees, fun j => ?_, fun o => by rw [howes, h.sent]⟩
  rw [hgot]
  by_cases hj : j = i
  · subst hj
    simp [h.received]
  · rw [Function.update_of_ne hj, Function.update_of_ne hj, h.received]

/-- A word is given that was still to be given. -/
theorem History.give [DecidableEq Out] (h : W.History rounds r R S) {o : Out} {b : β o}
    (hagrees : W.agrees rounds r') (hgot : W.got r' = W.got r)
    (howes : W.owes r = Function.update (W.owes r') o (b :: W.owes r' o)) :
    W.History rounds r' R (Function.update S o (S o ++ [b])) := by
  refine ⟨hagrees, fun i => by rw [hgot, h.received], fun x => ?_⟩
  have hx := h.sent x
  rw [howes] at hx
  by_cases hxo : x = o
  · subst hxo
    simpa using hx
  · rw [Function.update_of_ne hxo] at hx ⊢
    exact hx

/-- The last word of a round is taken. -/
theorem History.round [DecidableEq In] (h : W.History rounds r R S) {i : In} {a : α i} (x : ρ)
    (hagrees : W.agrees (rounds ++ [x]) r')
    (hins : ∀ j, W.ins (rounds ++ [x]) j =
      W.ins rounds j ++ Function.update (W.got r) i (W.got r i ++ [a]) j)
    (hgot : ∀ j, W.got r' j = []) (howes : ∀ o, W.owes r o = [])
    (houts : ∀ o, W.outs (rounds ++ [x]) o = W.outs rounds o ++ W.owes r' o) :
    W.History (rounds ++ [x]) r' (Function.update R i (R i ++ [a])) S := by
  refine ⟨hagrees, fun j => ?_, fun o => ?_⟩
  · rw [hgot, hins, List.append_nil]
    by_cases hj : j = i
    · subst hj
      simp [h.received]
    · rw [Function.update_of_ne hj, Function.update_of_ne hj, h.received]
  · have ho := h.sent o
    rw [howes, List.append_nil] at ho
    rw [houts, ho]

end Operations

/-- The words of a round that have been taken after `n` reads, when the inputs are read in the order
of their ranks. -/
def gathered (rank : In → ℕ) (v : ∀ i, α i) (n : ℕ) : ∀ i, List (α i) :=
  fun i => if rank i < n then [v i] else []

/-- One more read. -/
theorem gathered_update [DecidableEq In] {rank : In → ℕ} (hrank : Function.Injective rank)
    (v : ∀ i, α i) (i : In) (a : α i) :
    gathered rank (Function.update v i a) (rank i + 1) =
      Function.update (gathered rank v (rank i)) i (gathered rank v (rank i) i ++ [a]) := by
  funext j
  by_cases hj : j = i
  · subst hj
    simp [gathered]
  · have hne : rank j ≠ rank i := fun h => hj (hrank h)
    have hlt : rank j < rank i + 1 ↔ rank j < rank i := by omega
    simp only [gathered, Function.update_of_ne hj, hlt]

/-- After the last read the round has been taken. -/
theorem gathered_all {rank : In → ℕ} {n : ℕ} (h : ∀ i, rank i < n) (v : ∀ i, α i) (i : In) :
    gathered rank v n i = [v i] :=
  if_pos (h i)

/-- The kernel starts between two rounds, and every operation keeps its history. -/
structure Sound [DecidableEq In] [DecidableEq Out] (W : Rounds K ρ) : Prop where
  start : W.History [] K.start (fun _ => []) (fun _ => [])
  keeps : ∀ rounds r R S, W.History rounds r R S →
    K.Keeps (fun r R S => ∃ rounds, W.History rounds r R S) R S (K.op r)

end Rounds

/-- A kernel has received and sent no more than what its rounds take and give, and exactly
that when it is between two of them. -/
structure Fires (ins : ∀ i, List (α i)) (outs : ∀ o, List (β o)) (between : Prop)
    (R : ∀ i, List (α i)) (S : ∀ o, List (β o)) : Prop where
  received : ∀ i, ins i <+: R i
  sent : ∀ o, S o <+: outs o
  received_eq : between → ∀ i, R i = ins i
  sent_eq : between → ∀ o, S o = outs o

/-- A kernel that works in rounds has a history of rounds. -/
theorem Rounds.history [DecidableEq In] [DecidableEq Out] {K : Kernel α β} {ρ : Type}
    {W : Rounds K ρ} (hW : W.Sound) {r R S} (hp : K.Path K.start r R S) :
    ∃ rounds, W.History rounds r R S := by
  refine hp.induct (I := fun r R S => ∃ rounds, W.History rounds r R S) ⟨[], hW.start⟩ ?_
  rintro r R S ⟨rounds, h⟩
  exact hW.keeps rounds r R S h

/-- What a kernel that works in rounds has received and sent. -/
theorem Rounds.fires [DecidableEq In] [DecidableEq Out] {K : Kernel α β} {ρ : Type}
    {W : Rounds K ρ} (hW : W.Sound) {r R S} (hp : K.Path K.start r R S) :
    ∃ rounds, Fires (W.ins rounds) (W.outs rounds)
      ((∀ i, W.got r i = []) ∧ ∀ o, W.owes r o = []) R S := by
  obtain ⟨rounds, -, hreceived, hsent⟩ := Rounds.history hW hp
  refine ⟨rounds, fun i => ?_, fun o => ⟨_, hsent o⟩, fun hb i => ?_, fun hb o => ?_⟩
  · rw [hreceived]
    exact List.prefix_append _ _
  · rw [hreceived, hb.1, List.append_nil]
  · rw [← hsent, hb.2, List.append_nil]

/-- What a kernel of a network that works in rounds has read and written. -/
theorem Network.Reachable.fires {P S : Type} {C : S → Type} {word : S → Type} [DecidableEq P]
    [DecidableEq S] [∀ s, DecidableEq (C s)] {N : Network P C word} (hN : N.PointToPoint)
    {s : N.State} (hs : N.Reachable s) (p : P) {ρ : Type} {W : Rounds (N.node p).kernel ρ}
    (hW : W.Sound) :
    ∃ rounds, Fires (W.ins rounds) (W.outs rounds)
      ((∀ i, W.got (s.regs p) i = []) ∧ ∀ o, W.owes (s.regs p) o = [])
      (fun i => s.taken ((N.node p).src i)) (fun o => s.written ((N.node p).dst o)) :=
  Rounds.fires hW (hs.path hN p)

/-- Everything written to a stream with an empty queue has been read. -/
theorem Network.State.taken_eq_written {P S : Type} {C : S → Type} {word : S → Type}
    {N : Network P C word} {s : N.State} {c : Chan C} (h : (s.fifo c).queue = []) :
    s.taken c = s.written c := by
  simp [State.taken, State.written, Fifo.written, h]

theorem Network.State.taken_isPrefix {P S : Type} {C : S → Type} {word : S → Type}
    {N : Network P C word} (s : N.State) (c : Chan C) : s.taken c <+: s.written c :=
  (s.fifo c).taken_isPrefix

section Feedback

variable {P S : Type} {C : S → Type} {word : S → Type}
variable [DecidableEq P] [DecidableEq S] [∀ s, DecidableEq (C s)]

/-- A step reads only words written before it. -/
theorem Network.Step.taken_isPrefix {N : Network P C word} {s s' : N.State} {l : N.Label}
    (hs : N.Step s l s') (c : Chan C) : s'.taken c <+: s.written c := by
  have hpop : ∀ c', (Function.update s.fifo c' (s.fifo c').pop c).taken <+: (s.fifo c).written := by
    intro c'
    by_cases hc : c = c'
    · subst hc
      rw [Function.update_self, ← Fifo.pop_written]
      exact Fifo.taken_isPrefix _
    · rw [Function.update_of_ne hc]
      exact Fifo.taken_isPrefix _
  have hpush : ∀ c' a, (Function.update s.fifo c' ((s.fifo c').push a) c).taken <+:
      (s.fifo c).written := by
    intro c' a
    by_cases hc : c = c'
    · subst hc
      rw [Function.update_self, Fifo.push_taken]
      exact Fifo.taken_isPrefix _
    · rw [Function.update_of_ne hc]
      exact Fifo.taken_isPrefix _
  cases hs with
  | fire hl he =>
      cases he with
      | read _ => exact hpop _
      | write _ => exact hpush _ _
      | _ => exact Fifo.taken_isPrefix _
  | put _ _ => exact hpush _ _
  | take _ _ => exact hpop _

/-- What has been read stays read. -/
theorem Network.Step.taken_mono {N : Network P C word} {s s' : N.State} {l : N.Label}
    (hs : N.Step s l s') (c : Chan C) : s.taken c <+: s'.taken c := by
  have hpop : ∀ c', (s.fifo c).taken <+: (Function.update s.fifo c' (s.fifo c').pop c).taken := by
    intro c'
    by_cases hc : c = c'
    · subst hc
      rw [Function.update_self]
      exact List.prefix_append _ _
    · rw [Function.update_of_ne hc]
  have hpush : ∀ c' a, (s.fifo c).taken <+:
      (Function.update s.fifo c' ((s.fifo c').push a) c).taken := by
    intro c' a
    by_cases hc : c = c'
    · subst hc
      rw [Function.update_self, Fifo.push_taken]
    · rw [Function.update_of_ne hc]
  cases hs with
  | fire hl he =>
      cases he with
      | read _ => exact hpop _
      | write _ => exact hpush _ _
      | _ => exact List.prefix_refl _
  | put _ _ => exact hpush _ _
  | take _ _ => exact hpop _

/-- What has been written stays written. -/
theorem Network.Step.written_mono {N : Network P C word} {s s' : N.State} {l : N.Label}
    (hs : N.Step s l s') (c : Chan C) : s.written c <+: s'.written c := by
  have hpop : ∀ c', (s.fifo c).written <+:
      (Function.update s.fifo c' (s.fifo c').pop c).written := by
    intro c'
    by_cases hc : c = c'
    · subst hc
      rw [Function.update_self, Fifo.pop_written]
    · rw [Function.update_of_ne hc]
  have hpush : ∀ c' a, (s.fifo c).written <+:
      (Function.update s.fifo c' ((s.fifo c').push a) c).written := by
    intro c' a
    by_cases hc : c = c'
    · subst hc
      rw [Function.update_self, Fifo.push_written]
      exact List.prefix_append _ _
    · rw [Function.update_of_ne hc]
  cases hs with
  | fire hl he =>
      cases he with
      | read _ => exact hpop _
      | write _ => exact hpush _ _
      | _ => exact List.prefix_refl _
  | put _ _ => exact hpush _ _
  | take _ _ => exact hpop _

theorem Network.Run.written_mono {N : Network P C word} {s s' : N.State} {tr : List N.Label}
    (hr : N.Run s tr s') (c : Chan C) : s.written c <+: s'.written c := by
  induction hr with
  | nil => exact List.prefix_refl _
  | snoc _ hs ih => exact ih.trans (hs.written_mono c)

/-- A stream without a writer grows only by what the surroundings write. -/
theorem Network.Step.written_fed {N : Network P C word} {s s' : N.State} {l : N.Label}
    (hs : N.Step s l s') {c : Chan C} (hw : ∀ p o, (N.node p).dst o ≠ c) :
    s'.written c = s.written c ∨ ∃ a, l = .put c a ∧ s'.written c = s.written c ++ [a] := by
  cases hs with
  | fire hl he => exact .inl (he.written_of_not_dst (hw _))
  | @put c' a _ _ =>
      by_cases hc : c = c'
      · subst hc
        exact .inr ⟨a, rfl, by simp [State.written]⟩
      · exact .inl (by simp [State.written, Function.update_of_ne hc])
  | @take c' a _ _ _ =>
      by_cases hc : c = c'
      · subst hc
        exact .inl (by simp [State.written])
      · exact .inl (by simp [State.written, Function.update_of_ne hc])

/-- The words of a feedback stream are good if good words read lead to good words written. -/
theorem Network.Reachable.feedback {N : Network P C word} {c : Chan C} {good : word c.1 → Prop}
    (h : ∀ s, N.Reachable s → (∀ a ∈ s.taken c, good a) → ∀ a ∈ s.written c, good a)
    {s : N.State} (hs : N.Reachable s) : ∀ a ∈ s.written c, good a := by
  obtain ⟨tr, hr⟩ := hs
  induction hr with
  | nil => exact fun a ha => absurd ha List.not_mem_nil
  | snoc hr hstep ih =>
      refine h _ ⟨_, hr.snoc hstep⟩ fun a ha => ?_
      exact ih a ((hstep.taken_isPrefix c).subset ha)

/-- A step either is an operation of a kernel, and says so, or leaves its registers and its
histories alone. -/
theorem Network.Step.label_or_frame {N : Network P C word} (hN : N.PointToPoint) {s s' : N.State}
    {l : N.Label} (hs : N.Step s l s') (p : P) :
    (∃ e, l = .fire p (s.regs p) e ∧ (N.node p).kernel.Local (s.regs p) e (s'.regs p) ∧
      (fun i => s'.taken ((N.node p).src i)) =
        e.received (fun i => s.taken ((N.node p).src i)) ∧
      (fun o => s'.written ((N.node p).dst o)) =
        e.sent (fun o => s.written ((N.node p).dst o))) ∨
    s'.regs p = s.regs p ∧
      (fun i => s'.taken ((N.node p).src i)) = (fun i => s.taken ((N.node p).src i)) ∧
      (fun o => s'.written ((N.node p).dst o)) = fun o => s.written ((N.node p).dst o) := by
  cases hs with
  | @fire q e r f hl he =>
      by_cases hpq : q = p
      · subst hpq
        refine .inl ⟨e, rfl, by simpa using hl, ?_, ?_⟩
        · ext1 i
          exact he.taken_src (t := []) (hN.src_port q) i rfl
        · ext1 o
          exact he.written_dst (w := []) (hN.dst_port q) o rfl
      · refine .inr ⟨Function.update_of_ne (Ne.symm hpq) _ _, ?_, ?_⟩
        · ext1 i
          exact he.taken_of_not_src fun j => hN.src_ne hpq j i
        · ext1 o
          exact he.written_of_not_dst fun j => hN.dst_ne hpq j o
  | @put c a hw _ =>
      refine .inr ⟨rfl, ?_, ?_⟩
      · ext1 i
        by_cases hc : (N.node p).src i = c
        · subst hc
          simp [State.taken]
        · simp [State.taken, Function.update_of_ne hc]
      · ext1 o
        simp [State.written, Function.update_of_ne (hw p o)]
  | @take c a q hr _ =>
      refine .inr ⟨rfl, ?_, ?_⟩
      · ext1 i
        simp [State.taken, Function.update_of_ne (hr p i)]
      · ext1 o
        by_cases hc : (N.node p).dst o = c
        · subst hc
          simp [State.written]
        · simp [State.written, Function.update_of_ne hc]

/-- A step either is an operation of a kernel or leaves its registers and its histories
alone. -/
theorem Network.Step.fired_or_frame {N : Network P C word} (hN : N.PointToPoint) {s s' : N.State}
    {l : N.Label} (hs : N.Step s l s') (p : P) :
    (∃ e, (N.node p).kernel.Local (s.regs p) e (s'.regs p) ∧
      (fun i => s'.taken ((N.node p).src i)) =
        e.received (fun i => s.taken ((N.node p).src i)) ∧
      (fun o => s'.written ((N.node p).dst o)) =
        e.sent (fun o => s.written ((N.node p).dst o))) ∨
    s'.regs p = s.regs p ∧
      (fun i => s'.taken ((N.node p).src i)) = (fun i => s.taken ((N.node p).src i)) ∧
      (fun o => s'.written ((N.node p).dst o)) = fun o => s.written ((N.node p).dst o) := by
  rcases hs.label_or_frame hN p with ⟨e, -, hfired⟩ | hframe
  · exact .inl ⟨e, hfired⟩
  · exact .inr hframe

/-- A weaker condition guards the run as well. -/
theorem Network.GuardedRun.mono {N : Network P C word} {ok ok' : N.State → N.Label → Prop}
    (h : ∀ s l, ok s l → ok' s l) {s₀ s : N.State} {tr : List N.Label}
    (hr : N.GuardedRun ok s₀ tr s) : N.GuardedRun ok' s₀ tr s := by
  induction hr with
  | nil => exact .nil
  | snoc _ hok hs ih => exact ih.snoc (h _ _ hok) hs

/-- An assertion about the histories of one kernel holds along every guarded run, if every firing
of the kernel under the guard keeps it. -/
theorem Network.GuardedRun.histories {N : Network P C word} (hN : N.PointToPoint)
    {ok : N.State → N.Label → Prop} {p : P}
    {I : (N.node p).kernel.σ → (∀ i, List (word ((N.node p).src i).1)) →
      (∀ o, List (word ((N.node p).dst o).1)) → Prop}
    (h₀ : I (N.node p).kernel.start (fun _ => []) (fun _ => []))
    (hop : ∀ s s' e, ok s (.fire p (s.regs p) e) → N.Step s (.fire p (s.regs p) e) s' →
      (N.node p).kernel.Local (s.regs p) e (s'.regs p) →
      I (s.regs p) (fun i => s.taken ((N.node p).src i))
        (fun o => s.written ((N.node p).dst o)) →
      I (s'.regs p) (e.received fun i => s.taken ((N.node p).src i))
        (e.sent fun o => s.written ((N.node p).dst o)))
    {tr : List N.Label} {s : N.State} (hr : N.GuardedRun ok N.init tr s) :
    I (s.regs p) (fun i => s.taken ((N.node p).src i))
      (fun o => s.written ((N.node p).dst o)) := by
  induction hr with
  | nil => exact h₀
  | @snoc tr s l s' _ hok hs ih =>
      rcases hs.label_or_frame hN p with ⟨e, rfl, hl, hR, hS⟩ | ⟨hregs, hR, hS⟩
      · rw [hR, hS]
        exact hop s s' e hok hs hl ih
      · rw [hregs, hR, hS]
        exact ih

/-- An assertion about the histories of one kernel holds along every guarded run, if every
operation keeps it that reads only words already written, and every step of the system does. -/
theorem Network.GuardedRun.keeps {N : Network P C word} (hN : N.PointToPoint)
    {ok : N.State → N.Label → Prop} {p : P}
    {I : N.State → (N.node p).kernel.σ → (∀ i, List (word ((N.node p).src i).1)) →
      (∀ o, List (word ((N.node p).dst o).1)) → Prop}
    (h₀ : I N.init (N.node p).kernel.start (fun _ => []) (fun _ => []))
    (hop : ∀ tr s l, N.GuardedRun ok N.init tr s → ok s l →
      I s (s.regs p) (fun i => s.taken ((N.node p).src i))
        (fun o => s.written ((N.node p).dst o)) →
      (N.node p).kernel.Keeps
        (fun r R S => (∀ i, R i <+: s.written ((N.node p).src i)) → I s r R S)
        (fun i => s.taken ((N.node p).src i)) (fun o => s.written ((N.node p).dst o))
        ((N.node p).kernel.op (s.regs p)))
    (hgrow : ∀ tr s l s', N.GuardedRun ok N.init tr s → ok s l → N.Step s l s' →
      ∀ r R S, I s r R S → I s' r R S)
    {tr : List N.Label} {s : N.State} (hr : N.GuardedRun ok N.init tr s) :
    I s (s.regs p) (fun i => s.taken ((N.node p).src i))
      (fun o => s.written ((N.node p).dst o)) := by
  induction hr with
  | nil => exact h₀
  | @snoc tr s l s' hr hok hs ih =>
      apply hgrow tr s l s' hr hok hs
      rcases hs.fired_or_frame hN p with ⟨e, hl, hR, hS⟩ | ⟨hregs, hR, hS⟩
      · rw [hR, hS]
        refine (hop tr s l hr hok ih).local hl fun i => ?_
        rw [← hR]
        exact hs.taken_isPrefix _
      · rw [hregs, hR, hS]
        exact ih

end Feedback

/-- A word keeps its position when more words follow. -/
theorem getElem?_of_isPrefix {A : Type} {l m : List A} (h : l <+: m) {n : ℕ} {x : A}
    (hx : l[n]? = some x) : m[n]? = some x := by
  obtain ⟨hn, rfl⟩ := List.getElem?_eq_some_iff.mp hx
  exact List.prefix_iff_getElem?.mp h n hn

theorem zip_map_fst_snd {A B : Type} (rounds : List (A × B)) :
    (rounds.map Prod.fst).zip (rounds.map Prod.snd) = rounds :=
  (List.zip_of_prod rfl rfl).symm

/-- Rounds are made of the words that two inputs have in common. -/
theorem zip_isPrefix {A B : Type} {rounds : List (A × B)} {l : List A} {l' : List B}
    (h : rounds.map Prod.fst <+: l) (h' : rounds.map Prod.snd <+: l') :
    rounds <+: l.zip l' := by
  obtain ⟨t, rfl⟩ := h
  obtain ⟨t', rfl⟩ := h'
  rw [List.zip_append (by simp), zip_map_fst_snd]
  exact List.prefix_append _ _

/-- Joining the words that two inputs have in common, by position. -/
theorem zipWith_isPrefix {A B D : Type} (f : A → B → D) {l l' : List A} {r r' : List B}
    (hl : l <+: l') (hr : r <+: r') : List.zipWith f l r <+: List.zipWith f l' r' := by
  induction l generalizing l' r r' with
  | nil => exact List.nil_prefix
  | cons a l ih =>
      obtain ⟨t, rfl⟩ := hl
      cases r with
      | nil => exact List.nil_prefix
      | cons b r =>
          obtain ⟨t', rfl⟩ := hr
          rw [List.cons_append, List.cons_append, List.zipWith_cons_cons, List.zipWith_cons_cons]
          exact List.cons_prefix_cons.mpr
            ⟨rfl, ih (List.prefix_append _ _) (List.prefix_append _ _)⟩

theorem filterMap_zip_some {A B D : Type} (f : A → B → D) (l : List A) (l' : List B) :
    (l.zip l').filterMap (fun x => some (f x.1 x.2)) = List.zipWith f l l' := by
  rw [← List.map_uncurry_zip_eq_zipWith, ← List.filterMap_eq_map]
  rfl

end RidgeWalker.Dataflow
