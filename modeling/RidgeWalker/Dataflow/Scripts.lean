import RidgeWalker.Dataflow.Stillness

/-!
# Kernels that follow a script

A script says what a kernel reads in a round, where every read may depend on the words before, and
what it writes when the round is complete.  A kernel that answers every word of its only input is the
case of one read.

Main results:

- Definition `scriptKernel`: the kernel of a script.
- Theorem `script_history`: what such a kernel has received and sent.
- Theorem `script_still`: what it waits for at a standstill.
-/

namespace RidgeWalker.Dataflow

variable {In Out : Type} {α : In → Type} {β : Out → Type}

/-! ## Rounds of reads -/

/-- What is still to be read in a round. -/
inductive Ask (α : In → Type) (ρ : Type) where
  /-- The round is complete. -/
  | answer (x : ρ)
  /-- The next word, by a blocking read or by polling until there is one. -/
  | read (i : In) (blocking : Bool) (next : α i → Ask α ρ)

section Reads

variable [DecidableEq In] {ρ : Type}

/-- Reading the words `w` leads from one point of a round to another. -/
inductive Ask.Reads (q₀ : Ask α ρ) : (∀ i, List (α i)) → Ask α ρ → Prop where
  | refl : Reads q₀ (fun _ => []) q₀
  | step {w i blocking next} (h : Reads q₀ w (.read i blocking next)) (a : α i) :
      Reads q₀ (Function.update w i (w i ++ [a])) (next a)

/-- A round that is completed from here, after the words `w`, says which words it has taken. -/
def Ask.Tells (words : ρ → ∀ i, List (α i)) : Ask α ρ → (∀ i, List (α i)) → Prop
  | .answer x, w => words x = w
  | .read i _ next, w => ∀ a, (next a).Tells words (Function.update w i (w i ++ [a]))

theorem Ask.Tells.of_reads {words : ρ → ∀ i, List (α i)} {q₀ q : Ask α ρ} {w : ∀ i, List (α i)}
    (h : q₀.Tells words fun _ => []) (hreads : q₀.Reads w q) : q.Tells words w := by
  induction hreads with
  | refl => exact h
  | step _ a ih => exact ih a

end Reads

/-! ## Scripts -/

/-- What a kernel reads and writes in its rounds.  It reads something in every round, and a round
knows the words that it has taken. -/
structure Script [DecidableEq In] (α : In → Type) (β : Out → Type) where
  σ : Type
  start : σ
  ρ : Type
  ask : σ → Ask α ρ
  next : ρ → σ
  sends : ρ → List (Send β)
  words : ρ → ∀ i, List (α i)
  ask_ne : ∀ s x, ask s ≠ .answer x
  tells : ∀ s, (ask s).Tells words fun _ => []

variable [DecidableEq In] (T : Script α β)

/-- A complete round is answered, and the next one begins. -/
def Script.settle : Ask α T.ρ → Ask α T.ρ × List (Send β)
  | .answer x => (T.ask (T.next x), T.sends x)
  | .read i blocking next => (.read i blocking next, [])

/-- The kernel of a script. -/
def scriptKernel : Kernel α β where
  σ := Ask α T.ρ × List (Send β)
  Ω := Empty
  start := (T.ask T.start, [])
  op
    | (q, ⟨o, b⟩ :: sends) => .write o b (q, sends)
    | (.read i true next, []) => .read i fun a => T.settle (next a)
    | (.read i false next, []) => .readNb i fun
        | some a => T.settle (next a)
        | none => (.read i false next, [])
    | (.answer _, []) => .halt

variable [DecidableEq Out] {T}

/-- What the kernel of a script has received and sent in the rounds `xs`. -/
structure Script.History (T : Script α β) (xs : List T.ρ) (r : Ask α T.ρ × List (Send β))
    (R : ∀ i, List (α i)) (S : ∀ o, List (β o)) : Prop where
  /-- The words taken for the next round lead to the point where it is. -/
  received : ∃ s w, (T.ask s).Reads w r.1 ∧ (∀ i, R i = xs.flatMap (T.words · i) ++ w i) ∧
    (r.2 ≠ [] → w = fun _ => [])
  sent : ∀ o, S o ++ sentTo o r.2 = xs.flatMap fun x => sentTo o (T.sends x)
  asks : ∀ x, r.1 ≠ .answer x

/-- One more word is read. -/
theorem Script.History.read {xs : List T.ρ} {R : ∀ i, List (α i)} {S : ∀ o, List (β o)} {i : In}
    {blocking : Bool} {next : α i → Ask α T.ρ} (h : T.History xs (.read i blocking next, []) R S)
    (a : α i) :
    ∃ xs, T.History xs (T.settle (next a)) (Function.update R i (R i ++ [a])) S := by
  obtain ⟨s, w, hreads, hR, -⟩ := h.received
  have hstep := hreads.step a
  have htaken : ∀ j, Function.update R i (R i ++ [a]) j =
      xs.flatMap (T.words · j) ++ Function.update w i (w i ++ [a]) j := fun j => by
    by_cases hj : j = i
    · subst hj
      simp [hR]
    · simp [hj, hR]
  cases hq : next a with
  | read j blocking' next' =>
      rw [hq] at hstep
      exact ⟨xs, ⟨s, _, hstep, htaken, fun hne => absurd rfl hne⟩, h.sent, by simp [Script.settle]⟩
  | answer x =>
      rw [hq] at hstep
      have hwords : T.words x = Function.update w i (w i ++ [a]) := (T.tells s).of_reads hstep
      refine ⟨xs ++ [x], ⟨T.next x, _, .refl, fun j => ?_, fun _ => rfl⟩, fun o => ?_,
        T.ask_ne _⟩
      · rw [htaken, List.flatMap_append, List.flatMap_singleton, hwords, List.append_nil]
      · have hsent := h.sent o
        simp only [sentTo, List.append_nil] at hsent
        simp [Script.settle, hsent]

/-- What the kernel of a script has received and sent. -/
theorem script_history {r : Ask α T.ρ × List (Send β)} {R : ∀ i, List (α i)}
    {S : ∀ o, List (β o)} (hp : (scriptKernel T).Path (scriptKernel T).start r R S) :
    ∃ xs, T.History xs r R S := by
  refine hp.induct (I := fun r R S => ∃ xs, T.History xs r R S) ?_ ?_
  · exact ⟨[], ⟨T.start, _, .refl, fun _ => rfl, fun _ => rfl⟩, fun _ => rfl, T.ask_ne _⟩
  rintro ⟨q, _ | ⟨⟨o, b⟩, sends⟩⟩ R S ⟨xs, h⟩
  · cases q with
    | answer x => exact absurd rfl (h.asks x)
    | read i blocking next =>
        cases blocking with
        | true => exact fun a => h.read a
        | false => exact ⟨⟨xs, h⟩, fun a => h.read a⟩
  · obtain ⟨s, w, hreads, hR, hnil⟩ := h.received
    refine ⟨xs, ⟨s, w, hreads, hR, fun _ => hnil (List.cons_ne_nil _ _)⟩, fun o' => ?_, h.asks⟩
    rw [← h.sent o']
    by_cases ho : o' = o
    · subst ho
      simp
    · rw [Function.update_of_ne ho, sentTo_of_ne (Ne.symm ho)]

namespace Script.History

variable {xs : List T.ρ} {r : Ask α T.ρ × List (Send β)} {R : ∀ i, List (α i)}
  {S : ∀ o, List (β o)}

/-- The words of the rounds have been received. -/
theorem words_isPrefix (h : T.History xs r R S) (i : In) : xs.flatMap (T.words · i) <+: R i := by
  obtain ⟨s, w, -, hR, -⟩ := h.received
  rw [hR]
  exact List.prefix_append _ _

/-- Only answers to rounds have been sent. -/
theorem sent_isPrefix (h : T.History xs r R S) (o : Out) :
    S o <+: xs.flatMap fun x => sentTo o (T.sends x) :=
  ⟨_, h.sent o⟩

end Script.History

/-! ## At a standstill -/

section Still

variable {P S : Type} {C : S → Type} {word : S → Type}
variable [DecidableEq S] [∀ s, DecidableEq (C s)]

/-- The kernel of a script with room behind it waits for a word. -/
theorem script_still {In Out : Type} [Fintype In] [Fintype Out] [DecidableEq In] [DecidableEq Out]
    {depth : Chan C → ℕ} {src : In → Chan C} {dst : Out → Chan C}
    {T : Script (fun i => word (src i).1) fun o => word (dst o).1}
    {r : Ask (fun i => word (src i).1) T.ρ × List (Send fun o => word (dst o).1)}
    {f : Network.Fifos C word}
    (h : Network.CallStill depth ⟨In, Out, src, dst, scriptKernel T⟩ r f)
    (hasks : ∀ x, r.1 ≠ .answer x) :
    (r.2 = [] ∧ ∃ i blocking next, r.1 = .read i blocking next ∧ (f (src i)).queue = []) ∨
      ∃ o b rest, r.2 = ⟨o, b⟩ :: rest ∧ depth (dst o) ≤ (f (dst o)).queue.length := by
  obtain ⟨q, _ | ⟨⟨o, b⟩, sends⟩⟩ := r
  · cases q with
    | answer x => exact absurd rfl (hasks x)
    | read i blocking next =>
        refine .inl ⟨rfl, i, blocking, next, rfl, ?_⟩
        cases blocking with
        | true => exact Network.CallStill.of_read h rfl
        | false => exact (Network.CallStill.of_readNb h rfl).1
  · exact .inr ⟨o, b, sends, rfl, Network.CallStill.of_write h rfl⟩

end Still

end RidgeWalker.Dataflow
