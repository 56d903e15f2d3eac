import RidgeWalker.Bits.Numerals

/-!
# Dataflow kernels

A kernel is a sequential program that owns a few registers and talks to the rest
of the system only through streams.  One loop iteration is cut into single stream
operations, so that an interleaving of kernels can pause a kernel between any two
of its stream accesses.

Main results:

- Definition `Kernel.Path`: the words a kernel has received and sent on the way
  from one register state to another.
- Theorem `Kernel.Path.induct`: an assertion about registers and stream histories
  that every single operation keeps holds along every path.
-/

namespace RidgeWalker.Dataflow

/-! ## Single stream operations -/

/-- The next stream operation of a kernel, with the registers it continues in.

`In` and `Out` name the ports, `α` and `β` give the word type of each port, and `Ω`
is the type of the free choices of a kernel whose behaviour is not fixed. -/
inductive Op {In Out : Type} (α : In → Type) (β : Out → Type) (Ω σ : Type) where
  /-- Blocking read. -/
  | read (i : In) (k : α i → σ)
  /-- Non-blocking read; `none` means that the stream was empty. -/
  | readNb (i : In) (k : Option (α i) → σ)
  /-- Observe which inputs are empty and which outputs are full. -/
  | look (k : (In → Bool) → (Out → Bool) → σ)
  /-- Blocking write. -/
  | write (o : Out) (b : β o) (k : σ)
  /-- Non-blocking write; `false` means that the stream was full and the word is lost. -/
  | writeNb (o : Out) (b : β o) (k : Bool → σ)
  /-- An internal choice. -/
  | choose (k : Ω → σ)
  /-- The kernel has returned. -/
  | halt

/-- What one executed operation did, as seen from the ports of the kernel. -/
inductive Event {In Out : Type} (α : In → Type) (β : Out → Type) (Ω : Type) where
  | read (i : In) (a : α i)
  | readNone (i : In)
  | look (empty : In → Bool) (full : Out → Bool)
  | write (o : Out) (b : β o)
  | writeFail (o : Out)
  | choose (w : Ω)

/-- The events that an operation allows and the registers they lead to. -/
def Op.Yields {In Out : Type} {α : In → Type} {β : Out → Type} {Ω σ : Type} (e : Event α β Ω)
    (r' : σ) : Op α β Ω σ → Prop
  | .read i k => ∃ a, e = .read i a ∧ r' = k a
  | .readNb i k => (e = .readNone i ∧ r' = k none) ∨ ∃ a, e = .read i a ∧ r' = k (some a)
  | .look k => ∃ x f, e = .look x f ∧ r' = k x f
  | .write o b k => e = .write o b ∧ r' = k
  | .writeNb o b k => (e = .writeFail o ∧ r' = k false) ∨ (e = .write o b ∧ r' = k true)
  | .choose k => ∃ w, e = .choose w ∧ r' = k w
  | .halt => False

/-- A sequential program over the ports `In` and `Out`. -/
structure Kernel {In Out : Type} (α : In → Type) (β : Out → Type) where
  /-- Registers and program counter. -/
  σ : Type
  /-- Free choices. -/
  Ω : Type
  /-- Registers when the kernel is started. -/
  start : σ
  /-- The operation executed next. -/
  op : σ → Op α β Ω σ

namespace Kernel

variable {In Out : Type} {α : In → Type} {β : Out → Type} (K : Kernel α β)

/-- One operation of the kernel, labelled with what it did. -/
inductive Local : K.σ → Event α β K.Ω → K.σ → Prop where
  | read {r i k} (h : K.op r = .read i k) (a : α i) : Local r (.read i a) (k a)
  | readNb {r i k} (h : K.op r = .readNb i k) (a : α i) : Local r (.read i a) (k (some a))
  | readNone {r i k} (h : K.op r = .readNb i k) : Local r (.readNone i) (k none)
  | look {r k} (h : K.op r = .look k) (e f) : Local r (.look e f) (k e f)
  | write {r o b k} (h : K.op r = .write o b k) : Local r (.write o b) k
  | writeNb {r o b k} (h : K.op r = .writeNb o b k) : Local r (.write o b) (k true)
  | writeFail {r o b k} (h : K.op r = .writeNb o b k) : Local r (.writeFail o) (k false)
  | choose {r k} (h : K.op r = .choose k) (w : K.Ω) : Local r (.choose w) (k w)

/-- What one operation of a kernel can do. -/
theorem Local.yields {K : Kernel α β} {r r' : K.σ} {e : Event α β K.Ω} (hl : K.Local r e r') :
    (K.op r).Yields e r' := by
  cases hl with
  | read h a => rw [h]; exact ⟨a, rfl, rfl⟩
  | readNb h a => rw [h]; exact .inr ⟨a, rfl, rfl⟩
  | readNone h => rw [h]; exact .inl ⟨rfl, rfl⟩
  | look h x f => rw [h]; exact ⟨x, f, rfl, rfl⟩
  | write h => rw [h]; exact ⟨rfl, rfl⟩
  | writeNb h => rw [h]; exact .inr ⟨rfl, rfl⟩
  | writeFail h => rw [h]; exact .inl ⟨rfl, rfl⟩
  | choose h w => rw [h]; exact ⟨w, rfl, rfl⟩

end Kernel

/-! ## Stream histories of one kernel -/

section Histories

variable {In Out : Type} {α : In → Type} {β : Out → Type} {Ω : Type}
variable [DecidableEq In] [DecidableEq Out]

/-- Words received on every input port after one more event. -/
def Event.received (e : Event α β Ω) (R : ∀ i, List (α i)) : ∀ i, List (α i) :=
  match e with
  | .read i a => Function.update R i (R i ++ [a])
  | _ => R

/-- Words sent on every output port after one more event. -/
def Event.sent (e : Event α β Ω) (S : ∀ o, List (β o)) : ∀ o, List (β o) :=
  match e with
  | .write o b => Function.update S o (S o ++ [b])
  | _ => S

namespace Kernel

variable (K : Kernel α β)

/-- `K.Path r₀ r R S`: the kernel can get from `r₀` to `r` while receiving `R` and
sending `S`. -/
inductive Path (r₀ : K.σ) : K.σ → (∀ i, List (α i)) → (∀ o, List (β o)) → Prop where
  | refl : Path r₀ r₀ (fun _ => []) (fun _ => [])
  | step {r R S e r'} (h : Path r₀ r R S) (hl : K.Local r e r') :
      Path r₀ r' (e.received R) (e.sent S)

/-- The obligation that one operation puts on an assertion about registers and
histories. -/
def Keeps (I : K.σ → (∀ i, List (α i)) → (∀ o, List (β o)) → Prop)
    (R : ∀ i, List (α i)) (S : ∀ o, List (β o)) : Op α β K.Ω K.σ → Prop
  | .read i k => ∀ a, I (k a) (Function.update R i (R i ++ [a])) S
  | .readNb i k =>
      I (k none) R S ∧ ∀ a, I (k (some a)) (Function.update R i (R i ++ [a])) S
  | .look k => ∀ e f, I (k e f) R S
  | .write o b k => I k R (Function.update S o (S o ++ [b]))
  | .writeNb o b k => I (k false) R S ∧ I (k true) R (Function.update S o (S o ++ [b]))
  | .choose k => ∀ w, I (k w) R S
  | .halt => True

variable {K}

/-- One operation keeps an assertion whose obligation for that operation holds. -/
theorem Keeps.local {I : K.σ → (∀ i, List (α i)) → (∀ o, List (β o)) → Prop}
    {r r' : K.σ} {e : Event α β K.Ω} {R : ∀ i, List (α i)} {S : ∀ o, List (β o)}
    (hk : K.Keeps I R S (K.op r)) (hl : K.Local r e r') :
    I r' (e.received R) (e.sent S) := by
  cases hl with
  | read h a => rw [h] at hk; exact hk a
  | readNb h a => rw [h] at hk; exact hk.2 a
  | readNone h => rw [h] at hk; exact hk.1
  | look h e f => rw [h] at hk; exact hk e f
  | write h => rw [h] at hk; exact hk
  | writeNb h => rw [h] at hk; exact hk.2
  | writeFail h => rw [h] at hk; exact hk.1
  | choose h w => rw [h] at hk; exact hk w

/-- Induction along a path: an assertion that holds at the start and that every
operation keeps holds at the end. -/
theorem Path.induct {I : K.σ → (∀ i, List (α i)) → (∀ o, List (β o)) → Prop}
    {r₀ r : K.σ} {R : ∀ i, List (α i)} {S : ∀ o, List (β o)}
    (hp : K.Path r₀ r R S) (h₀ : I r₀ (fun _ => []) (fun _ => []))
    (hk : ∀ r R S, I r R S → K.Keeps I R S (K.op r)) : I r R S := by
  induction hp with
  | refl => exact h₀
  | step _ hl ih => exact (hk _ _ _ ih).local hl

end Kernel

end Histories

end RidgeWalker.Dataflow
