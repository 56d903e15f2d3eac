import RidgeWalker.Dataflow.Network

/-!
# Executing a network

An interleaving is a list of actions: which kernel fires, or what the surroundings do.
Executing it computes the state it leads to, so that concrete runs can be evaluated.

Main results:

- Definition `Network.execute`: the run along a list of actions.
- Theorem `Network.execute_run`: what is executed is a run.
-/

namespace RidgeWalker.Dataflow

namespace Network

variable {P S : Type} {C : S → Type} {word : S → Type}

/-- Who takes the next step: a kernel, with the free choice it makes if it makes one, or the
surroundings. -/
inductive Action (N : Network P C word) where
  | fire (p : P) (w : Option (N.node p).kernel.Ω)
  | put (c : Chan C) (a : word c.1)
  | take (c : Chan C)

section

variable [DecidableEq S] [∀ s, DecidableEq (C s)]

/-- The event of the next operation of a call on given streams, with the registers and the
streams after it. -/
def Call.next (depth : Chan C → ℕ) (k : Call C word) (r : k.kernel.σ) (f : Fifos C word)
    (choice : Option k.kernel.Ω) :
    Option (Event (fun i => word (k.src i).1) (fun o => word (k.dst o).1) k.kernel.Ω ×
      k.kernel.σ × Fifos C word) :=
  match k.kernel.op r with
  | .read i cont =>
      match (f (k.src i)).queue with
      | a :: _ => some (.read i a, cont a, Function.update f (k.src i) (f (k.src i)).pop)
      | [] => none
  | .readNb i cont =>
      match (f (k.src i)).queue with
      | a :: _ => some (.read i a, cont (some a), Function.update f (k.src i) (f (k.src i)).pop)
      | [] => some (.readNone i, cont none, f)
  | .look cont =>
      let empty := fun i => (f (k.src i)).queue.isEmpty
      let full := fun o => decide (depth (k.dst o) ≤ (f (k.dst o)).queue.length)
      some (.look empty full, cont empty full, f)
  | .write o b cont =>
      if (f (k.dst o)).queue.length < depth (k.dst o) then
        some (.write o b, cont, Function.update f (k.dst o) ((f (k.dst o)).push b))
      else none
  | .writeNb o b cont =>
      if (f (k.dst o)).queue.length < depth (k.dst o) then
        some (.write o b, cont true, Function.update f (k.dst o) ((f (k.dst o)).push b))
      else some (.writeFail o, cont false, f)
  | .choose cont =>
      match choice with
      | some w => some (.choose w, cont w, f)
      | none => none
  | .halt => none

/-- What is computed for a call is one of its operations and its effect. -/
theorem Call.next_sound {depth : Chan C → ℕ} {k : Call C word} {r r' : k.kernel.σ}
    {f f' : Fifos C word} {choice : Option k.kernel.Ω} {e}
    (h : Call.next depth k r f choice = some (e, r', f')) :
    k.kernel.Local r e r' ∧ Effect depth k f e f' := by
  unfold Call.next at h
  split at h
  · rename_i i cont hop
    split at h
    · rename_i a q hq
      cases h
      exact ⟨.read hop a, .read hq⟩
    · cases h
  · rename_i i cont hop
    split at h
    · rename_i a q hq
      cases h
      exact ⟨.readNb hop a, .read hq⟩
    · rename_i hq
      cases h
      exact ⟨.readNone hop, .readNone hq⟩
  · rename_i cont hop
    cases h
    exact ⟨.look hop _ _, .look⟩
  · rename_i o b cont hop
    split at h
    · rename_i hroom
      cases h
      exact ⟨.write hop, .write hroom⟩
    · cases h
  · rename_i o b cont hop
    split at h
    · rename_i hroom
      cases h
      exact ⟨.writeNb hop, .write hroom⟩
    · rename_i hfull
      cases h
      exact ⟨.writeFail hop, .writeFail (not_lt.mp hfull)⟩
  · rename_i cont hop
    split at h
    · cases h
      exact ⟨.choose hop _, .choose⟩
    · cases h
  · cases h

end

variable [Fintype P] [DecidableEq P] [DecidableEq S] [∀ s, DecidableEq (C s)]
variable {N : Network P C word}

/-- The step that an action takes. -/
def next (s : N.State) : N.Action → Option (N.Label × N.State)
  | .fire p choice =>
      match Call.next N.depth (N.node p) (s.regs p) s.fifo choice with
      | some (e, r, f) => some (.fire p (s.regs p) e, ⟨Function.update s.regs p r, f⟩)
      | none => none
  | .put c a =>
      if (∀ p o, (N.node p).dst o ≠ c) ∧ (s.fifo c).queue.length < N.depth c then
        some (.put c a, { s with fifo := Function.update s.fifo c ((s.fifo c).push a) })
      else none
  | .take c =>
      match (s.fifo c).queue with
      | a :: _ =>
          if ∀ p i, (N.node p).src i ≠ c then
            some (.take c a, { s with fifo := Function.update s.fifo c (s.fifo c).pop })
          else none
      | [] => none

theorem next_step {s s' : N.State} {a : N.Action} {l : N.Label} (h : next s a = some (l, s')) :
    N.Step s l s' := by
  cases a with
  | fire p choice =>
      simp only [next] at h
      split at h
      · rename_i e r f hnext
        cases h
        obtain ⟨hl, he⟩ := Call.next_sound hnext
        exact .fire hl he
      · cases h
  | put c a =>
      simp only [next] at h
      split at h
      · rename_i hput
        cases h
        exact .put hput.1 hput.2
      · cases h
  | take c =>
      simp only [next] at h
      split at h
      · rename_i a q hq
        split at h
        · rename_i hr
          cases h
          exact .take hr hq
        · cases h
      · cases h

/-- The run along a list of actions, continuing the run `tr` to `s`; every step has to meet
the condition `ok`. -/
def execute (ok : N.State → N.Label → Prop) [∀ s l, Decidable (ok s l)] :
    List N.Action → List N.Label → N.State → Option (List N.Label × N.State)
  | [], tr, s => some (tr, s)
  | a :: rest, tr, s =>
      match next s a with
      | some (l, s') => if ok s l then execute ok rest (tr ++ [l]) s' else none
      | none => none

/-- What is executed is a run. -/
theorem execute_run {ok : N.State → N.Label → Prop} [∀ s l, Decidable (ok s l)]
    {s₀ s s' : N.State} {tr tr' : List N.Label} {acts : List N.Action}
    (hr : N.GuardedRun ok s₀ tr s) (h : execute ok acts tr s = some (tr', s')) :
    N.GuardedRun ok s₀ tr' s' := by
  induction acts generalizing tr s with
  | nil =>
      cases h
      exact hr
  | cons a rest ih =>
      unfold execute at h
      split at h
      · rename_i l t hnext
        split at h
        · rename_i hok
          exact ih (hr.snoc hok (next_step hnext)) h
        · cases h
      · cases h

end Network

end RidgeWalker.Dataflow
