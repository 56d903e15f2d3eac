import RidgeWalker.Dataflow.Kernel

/-!
# Traces of a kernel

A path forgets the polls that found a stream empty.  A trace keeps every event of a kernel in
order, so that arrivals and idle polls can be told apart and counted.

Main results:

- Theorem `Kernel.Trace.induct`: what every event keeps holds along every trace.
- Theorem `Kernel.Trace.trans`: traces follow each other.
- Theorem `Kernel.Trace.path`: the words that a trace receives and sends are those of a path.
-/

namespace RidgeWalker.Dataflow

variable {In Out : Type} {α : In → Type} {β : Out → Type}

namespace Kernel

/-- `K.Trace r₀ es r`: the kernel gets from `r₀` to `r` by the events `es`. -/
inductive Trace (K : Kernel α β) (r₀ : K.σ) : List (Event α β K.Ω) → K.σ → Prop where
  | nil : Trace K r₀ [] r₀
  | snoc {es r e r'} (h : Trace K r₀ es r) (hl : K.Local r e r') : Trace K r₀ (es ++ [e]) r'

variable {K : Kernel α β}

/-- Induction along a trace. -/
theorem Trace.induct {I : List (Event α β K.Ω) → K.σ → Prop} {r₀ r : K.σ}
    {es : List (Event α β K.Ω)} (h : K.Trace r₀ es r) (h₀ : I [] r₀)
    (hk : ∀ es r e r', I es r → K.Local r e r' → I (es ++ [e]) r') : I es r := by
  induction h with
  | nil => exact h₀
  | snoc _ hl ih => exact hk _ _ _ _ ih hl

theorem Trace.single {r r' : K.σ} {e : Event α β K.Ω} (hl : K.Local r e r') :
    K.Trace r [e] r' :=
  .snoc .nil hl

/-- Traces follow each other. -/
theorem Trace.trans {r₀ r r' : K.σ} {es es' : List (Event α β K.Ω)} (h : K.Trace r₀ es r)
    (h' : K.Trace r es' r') : K.Trace r₀ (es ++ es') r' := by
  induction h' with
  | nil => rwa [List.append_nil]
  | snoc _ hl ih =>
      rw [← List.append_assoc]
      exact ih.snoc hl

theorem Trace.cons {r r' r'' : K.σ} {e : Event α β K.Ω} {es : List (Event α β K.Ω)}
    (hl : K.Local r e r') (h : K.Trace r' es r'') : K.Trace r (e :: es) r'' :=
  (Trace.single hl).trans h

/-- A trace all of whose steps satisfy `ok`. -/
inductive GuardedTrace (K : Kernel α β) (ok : K.σ → Event α β K.Ω → Prop) (r₀ : K.σ) :
    List (Event α β K.Ω) → K.σ → Prop where
  | nil : GuardedTrace K ok r₀ [] r₀
  | snoc {es r e r'} (h : GuardedTrace K ok r₀ es r) (hok : ok r e) (hl : K.Local r e r') :
      GuardedTrace K ok r₀ (es ++ [e]) r'

theorem GuardedTrace.trace {ok : K.σ → Event α β K.Ω → Prop} {r₀ r : K.σ}
    {es : List (Event α β K.Ω)} (h : K.GuardedTrace ok r₀ es r) : K.Trace r₀ es r := by
  induction h with
  | nil => exact .nil
  | snoc _ _ hl ih => exact ih.snoc hl

end Kernel

/-! ## Words of a trace -/

section Words

variable [DecidableEq In] [DecidableEq Out] {Ω : Type}

/-- The words that some events receive. -/
def received (es : List (Event α β Ω)) : ∀ i, List (α i) :=
  es.foldl (fun R e => e.received R) fun _ => []

/-- The words that some events send. -/
def sent (es : List (Event α β Ω)) : ∀ o, List (β o) :=
  es.foldl (fun S e => e.sent S) fun _ => []

@[simp] theorem received_snoc (es : List (Event α β Ω)) (e : Event α β Ω) :
    received (es ++ [e]) = e.received (received es) := by
  simp [received]

@[simp] theorem sent_snoc (es : List (Event α β Ω)) (e : Event α β Ω) :
    sent (es ++ [e]) = e.sent (sent es) := by
  simp [sent]

omit [DecidableEq In] in
/-- A write adds a word to its stream. -/
theorem Event.sent_write_self (S : ∀ o, List (β o)) (o : Out) (b : β o) :
    (Event.write o b : Event α β Ω).sent S o = S o ++ [b] :=
  Function.update_self ..

omit [DecidableEq In] in
/-- A write leaves the other streams alone. -/
theorem Event.sent_write_of_ne (S : ∀ o, List (β o)) {o o' : Out} (h : o' ≠ o) (b : β o) :
    (Event.write o b : Event α β Ω).sent S o' = S o' :=
  Function.update_of_ne h ..

/-- The words of a trace are those of a path. -/
theorem Kernel.Trace.path {K : Kernel α β} {r₀ r : K.σ} {es : List (Event α β K.Ω)}
    (h : K.Trace r₀ es r) : K.Path r₀ r (received es) (sent es) := by
  induction h with
  | nil => exact .refl
  | snoc _ hl ih =>
      rw [received_snoc, sent_snoc]
      exact ih.step hl

end Words

end RidgeWalker.Dataflow
