import RidgeWalker.Dataflow.Conservation

/-!
# Pipelines of unknown delay

Kernels that stand for a part of a system of which only its effect on the words is known:
every word that is accepted is delivered once, changed, after any delay.  A bag may also
deliver in any order and on any output.

Main results:

- Theorem `bagKernel_balanced`: a bag neither loses nor repeats a word, when the amounts do
  not show the change.
- Theorem `fifoKernel_local`: what one event of an ordered pipeline can do.
-/

namespace RidgeWalker.Dataflow

variable {w : Type}

/-! ## Delivery in any order -/

section Bag

variable {In Out G : Type}

/-- What a bag may do next: accept from an input, or deliver the `n`-th word it holds. -/
inductive BagChoice (In Out G : Type) where
  | accept (i : In)
  | deliver (n : ℕ) (o : Out) (g : G)

/-- The words a bag holds, and the one it is delivering. -/
inductive BagRegs (In Out G w : Type) where
  | idle (items : List w)
  | accept (items : List w) (i : In)
  | deliver (items : List w) (o : Out) (g : G) (x : w)

/-- A kernel that delivers every accepted word once, changed by any `g`, at any time, in any
order and on any output. -/
def bagKernel (In Out : Type) (change : G → w → w) :
    Kernel (fun _ : In => w) (fun _ : Out => w) where
  σ := BagRegs In Out G w
  Ω := BagChoice In Out G
  start := .idle []
  op
    | .idle items => .choose fun
        | .accept i => .accept items i
        | .deliver n o g =>
            match items[n]? with
            | some x => .deliver (items.eraseIdx n) o g x
            | none => .idle items
    | .accept items i => .readNb i fun
        | some x => .idle (items ++ [x])
        | none => .idle items
    | .deliver items o g x => .writeNb o (change g x) fun
        | true => .idle items
        | false => .idle (items ++ [x])

variable {M : Type} [AddCancelCommMonoid M]

/-- The amount in a bag. -/
def BagRegs.held (tok : w → M) : BagRegs In Out G w → M
  | .idle items => amount tok items
  | .accept items _ => amount tok items
  | .deliver items _ _ x => amount tok items + tok x

theorem amount_eraseIdx (tok : w → M) {l : List w} {n : ℕ} {a : w} (h : l[n]? = some a) :
    amount tok (l.eraseIdx n) + tok a = amount tok l := by
  obtain ⟨hn, rfl⟩ := List.getElem?_eq_some_iff.mp h
  have hperm := (List.getElem_cons_eraseIdx_perm hn).map tok
  rw [amount, amount, ← hperm.sum_eq, List.map_cons, List.sum_cons, add_comm]

/-- A bag neither loses nor repeats a word. -/
theorem bagKernel_balanced {change : G → w → w} {tok : w → M}
    (h : ∀ g x, tok (change g x) = tok x) :
    (bagKernel In Out change).Balanced (fun _ => tok) (fun _ => tok) (BagRegs.held tok) := by
  intro r
  cases r with
  | idle items =>
      intro choice
      cases choice with
      | accept i => rfl
      | deliver n o g =>
          cases hx : items[n]? with
          | none => simp [hx, BagRegs.held]
          | some x => simpa [hx, BagRegs.held] using amount_eraseIdx tok hx
  | accept items i => exact ⟨rfl, fun x => by simp [BagRegs.held]⟩
  | deliver items o g x => exact ⟨by simp [BagRegs.held], by simp [BagRegs.held, h]⟩

end Bag

/-! ## Delivery in order -/

section InOrder

variable {G : Type}

/-- What an ordered pipeline may do next. -/
inductive FifoChoice (G : Type) where
  | accept
  | deliver (g : G)

/-- The words an ordered pipeline holds, oldest first, and the one it is delivering. -/
inductive FifoRegs (G w : Type) where
  | idle (items : List w)
  | accept (items : List w)
  | deliver (g : G) (x : w) (items : List w)

/-- A kernel that delivers every accepted word once, changed by any `g`, at any time but in
order. -/
def fifoKernel (change : G → w → w) : Kernel (fun _ : Unit => w) (fun _ : Unit => w) where
  σ := FifoRegs G w
  Ω := FifoChoice G
  start := .idle []
  op
    | .idle items => .choose fun
        | .accept => .accept items
        | .deliver g =>
            match items with
            | x :: rest => .deliver g x rest
            | [] => .idle []
    | .accept items => .readNb () fun
        | some x => .idle (items ++ [x])
        | none => .idle items
    | .deliver g x rest => .writeNb () (change g x) fun
        | true => .idle rest
        | false => .idle (x :: rest)

/-- The words in an ordered pipeline, oldest first. -/
def FifoRegs.items : FifoRegs G w → List w
  | .idle items => items
  | .accept items => items
  | .deliver _ x rest => x :: rest

/-- An event of an ordered pipeline takes a word in at the end, gives the oldest one out,
or leaves its words alone. -/
theorem fifoKernel_local {change : G → w → w} {r r' : FifoRegs G w}
    {e : Event (fun _ : Unit => w) (fun _ : Unit => w) (FifoChoice G)}
    (hl : (fifoKernel change).Local r e r') :
    (∃ x, e = .read () x ∧ r'.items = r.items ++ [x]) ∨
      (∃ g x, e = .write () (change g x) ∧ r.items = x :: r'.items) ∨
      (e = .readNone () ∨ e = .writeFail () ∨ ∃ c, e = .choose c) ∧ r'.items = r.items := by
  have hy := hl.yields
  cases r with
  | idle items =>
      obtain ⟨c, rfl, rfl⟩ := hy
      refine .inr (.inr ⟨.inr (.inr ⟨c, rfl⟩), ?_⟩)
      cases c with
      | accept => rfl
      | deliver g => cases items <;> rfl
  | accept items =>
      rcases hy with ⟨rfl, rfl⟩ | ⟨x, rfl, rfl⟩
      · exact .inr (.inr ⟨.inl rfl, rfl⟩)
      · exact .inl ⟨x, rfl, rfl⟩
  | deliver g x rest =>
      rcases hy with ⟨rfl, rfl⟩ | ⟨rfl, rfl⟩
      · exact .inr (.inr ⟨.inr (.inl rfl), rfl⟩)
      · exact .inr (.inl ⟨g, x, rfl, rfl⟩)

end InOrder

end RidgeWalker.Dataflow
