import RidgeWalker.Dataflow.Conservation

/-!
# Draining a network

When every word has the same number of reads and writes ahead of it wherever it is, a
network without a way back cannot get stuck: a word that cannot move is blocked by a word
with less ahead of it.  The number of reads and writes still to be done is then exactly the
number of moves after which the network is empty.

Main results:

- Definition `Network.Turn`: a kernel operates alone until it has read or written a word.
- Definition `Grading`: how many reads and writes are ahead of a word.
- Theorem `Grading.step`: every move inside the network uses up one of them.
- Theorem `Grading.progress`: while there are words inside and the outputs have room, some
  kernel can take a turn.
- Theorem `Grading.drained`: from every reachable state the network can be emptied.
-/

namespace RidgeWalker.Dataflow

/-- The event reads or writes a word. -/
def Event.moves {In Out : Type} {α : In → Type} {β : Out → Type} {Ω : Type} :
    Event α β Ω → Bool
  | .read _ _ => true
  | .write _ _ => true
  | _ => false

namespace Network

variable {P S : Type} {C : S → Type} {word : S → Type}

/-! ## Words that move -/

section Moves

variable [DecidableEq S] [∀ s, DecidableEq (C s)]

/-- A call that operates alone until it has read or written a word: it ends with the
event `e`. -/
inductive CallTurn (depth : Chan C → ℕ) (k : Call C word) :
    k.kernel.σ → Fifos C word →
      Event (fun i => word (k.src i).1) (fun o => word (k.dst o).1) k.kernel.Ω →
        k.kernel.σ → Fifos C word → Prop where
  | word {r f e r' f'} (hl : k.kernel.Local r e r') (he : Effect depth k f e f')
      (hm : e.moves = true) : CallTurn depth k r f e r' f'
  | idle {r f e t e' r' f'} (hl : k.kernel.Local r e t) (he : Effect depth k f e f)
      (hm : e.moves = false) (ht : CallTurn depth k t f e' r' f') : CallTurn depth k r f e' r' f'

/-- The last event of a turn reads or writes a word. -/
theorem CallTurn.moves {depth : Chan C → ℕ} {k : Call C word} {r r' f f' e}
    (ht : CallTurn depth k r f e r' f') : e.moves = true := by
  induction ht with
  | word _ _ hm => exact hm
  | idle _ _ _ _ ih => exact ih

/-- A stream that no kernel writes: it is fed by the surroundings. -/
def Fed (N : Network P C word) (c : Chan C) : Prop := ∀ p o, (N.node p).dst o ≠ c

variable [Fintype P]

instance (N : Network P C word) : DecidablePred N.Fed := fun c =>
  inferInstanceAs (Decidable (∀ p o, (N.node p).dst o ≠ c))

/-- The step moves a word that is already inside the network. -/
def Label.moves {N : Network P C word} : N.Label → Bool
  | .fire p _ (.read i _) => !decide (N.Fed ((N.node p).src i))
  | .fire _ _ (.write _ _) => true
  | _ => false

/-- The step offers a word to the network or brings one into it. -/
def Label.enters {N : Network P C word} : N.Label → Bool
  | .fire p _ (.read i _) => decide (N.Fed ((N.node p).src i))
  | .put _ _ => true
  | _ => false

theorem Label.enters_of_moves {N : Network P C word} {l : N.Label} (h : l.moves = true) :
    l.enters = false := by
  cases l with
  | fire p r e =>
      cases e with
      | read i a => simpa [Label.moves, Label.enters] using h
      | _ => rfl
  | put c a => cases h
  | take c a => rfl

variable [DecidableEq P]

/-- Kernel `p` operates alone until it has moved a word inside the network. -/
def Turn (N : Network P C word) (p : P) (s s' : N.State) : Prop :=
  ∃ e r f, CallTurn N.depth (N.node p) (s.regs p) s.fifo e r f ∧
    (∀ i a, e = .read i a → ¬ N.Fed ((N.node p).src i)) ∧
    s' = ⟨Function.update s.regs p r, f⟩

end Moves

/-! ## Joining runs -/

section Runs

variable [DecidableEq P] [DecidableEq S] [∀ s, DecidableEq (C s)] {N : Network P C word}

theorem Run.trans {s₀ s t : N.State} {tr tr' : List N.Label} (h : N.Run s₀ tr s)
    (h' : N.Run s tr' t) : N.Run s₀ (tr ++ tr') t := by
  induction h' with
  | nil => simpa using h
  | snoc _ hs ih =>
      rw [← List.append_assoc]
      exact ih.snoc hs

theorem Run.cons {s t u : N.State} {l : N.Label} {tr : List N.Label} (hs : N.Step s l t)
    (hr : N.Run t tr u) : N.Run s (l :: tr) u :=
  (Run.nil.snoc hs).trans hr

theorem Reachable.run {s t : N.State} {tr : List N.Label} (hs : N.Reachable s)
    (hr : N.Run s tr t) : N.Reachable t := by
  obtain ⟨tr₀, h₀⟩ := hs
  exact ⟨_, h₀.trans hr⟩

theorem GuardedRun.trans {ok : N.State → N.Label → Prop} {s₀ s t : N.State}
    {tr tr' : List N.Label} (h : N.GuardedRun ok s₀ tr s) (h' : N.GuardedRun ok s tr' t) :
    N.GuardedRun ok s₀ (tr ++ tr') t := by
  induction h' with
  | nil => simpa using h
  | snoc _ hok hs ih =>
      rw [← List.append_assoc]
      exact ih.snoc hok hs

/-- Kernel `p` has moved on to `r`, and nothing else has changed but stream `c`. -/
structure Moved (s s' : N.State) (p : P) (r : (N.node p).kernel.σ) (c : Chan C)
    (g : Fifo (word c.1)) : Prop where
  regs : s'.regs p = r
  others : ∀ q ≠ p, s'.regs q = s.regs q
  fifo : s'.fifo c = g
  frame : ∀ c' ≠ c, s'.fifo c' = s.fifo c'

omit [DecidableEq P] [DecidableEq S] [∀ s, DecidableEq (C s)] in
theorem Moved.trans {s t u : N.State} {p : P} {r r' : (N.node p).kernel.σ} {c : Chan C}
    {g g' : Fifo (word c.1)} (h : N.Moved s t p r c g) (h' : N.Moved t u p r' c g') :
    N.Moved s u p r' c g' :=
  ⟨h'.regs, fun q hq => (h'.others q hq).trans (h.others q hq), h'.fifo,
    fun c' hc => (h'.frame c' hc).trans (h.frame c' hc)⟩

theorem Step.exists_of_event {s : N.State} {p : P} {e} {r} {c : Chan C} {g : Fifo (word c.1)}
    (hl : (N.node p).kernel.Local (s.regs p) e r)
    (he : Effect N.depth (N.node p) s.fifo e (Function.update s.fifo c g)) :
    ∃ s', N.Step s (.fire p (s.regs p) e) s' ∧ N.Moved s s' p r c g :=
  ⟨_, .fire hl he, Function.update_self _ _ _, fun _ hq => Function.update_of_ne hq _ _,
    Function.update_self _ _ _, fun _ hc => Function.update_of_ne hc _ _⟩

/-- A kernel at a read takes the oldest queued word. -/
theorem Step.exists_read {s : N.State} {p : P} {i : (N.node p).In} {k} {a} {q}
    (hop : (N.node p).kernel.op (s.regs p) = .read i k)
    (hqueue : (s.fifo ((N.node p).src i)).queue = a :: q) :
    ∃ e s', N.Step s (.fire p (s.regs p) e) s' ∧
      N.Moved s s' p (k a) ((N.node p).src i) (s.fifo ((N.node p).src i)).pop :=
  ⟨_, Step.exists_of_event (.read hop a) (.read hqueue)⟩

/-- A kernel that polls an empty stream finds nothing. -/
theorem Step.exists_readNone {s : N.State} {p : P} {i : (N.node p).In} {k}
    (hop : (N.node p).kernel.op (s.regs p) = .readNb i k)
    (hqueue : (s.fifo ((N.node p).src i)).queue = []) (c : Chan C) :
    ∃ e s', N.Step s (.fire p (s.regs p) e) s' ∧ N.Moved s s' p (k none) c (s.fifo c) := by
  refine ⟨_, Step.exists_of_event (.readNone hop) ?_⟩
  rw [Function.update_eq_self]
  exact .readNone hqueue

/-- A kernel at a write appends its word, if there is room. -/
theorem Step.exists_write {s : N.State} {p : P} {o : (N.node p).Out} {b} {k}
    (hop : (N.node p).kernel.op (s.regs p) = .write o b k)
    (hroom : (s.fifo ((N.node p).dst o)).queue.length < N.depth ((N.node p).dst o)) :
    ∃ e s', N.Step s (.fire p (s.regs p) e) s' ∧
      N.Moved s s' p k ((N.node p).dst o) ((s.fifo ((N.node p).dst o)).push b) :=
  ⟨_, Step.exists_of_event (.write hop) (.write hroom)⟩

/-- A kernel that offers a word to a stream with room appends it. -/
theorem Step.exists_writeNb {s : N.State} {p : P} {o : (N.node p).Out} {b} {k}
    (hop : (N.node p).kernel.op (s.regs p) = .writeNb o b k)
    (hroom : (s.fifo ((N.node p).dst o)).queue.length < N.depth ((N.node p).dst o)) :
    ∃ e s', N.Step s (.fire p (s.regs p) e) s' ∧
      N.Moved s s' p (k true) ((N.node p).dst o) ((s.fifo ((N.node p).dst o)).push b) :=
  ⟨_, Step.exists_of_event (.writeNb hop) (.write hroom)⟩

/-- The surroundings can make room in an output of the network. -/
theorem exists_room {c : Chan C} (hr : ∀ p i, (N.node p).src i ≠ c) (hdepth : 1 ≤ N.depth c)
    (s : N.State) : ∃ tr s', N.Run s tr s' ∧ s'.regs = s.regs ∧
      (s'.fifo c).queue.length < N.depth c := by
  induction hlength : (s.fifo c).queue.length generalizing s with
  | zero => exact ⟨[], s, .nil, rfl, by omega⟩
  | succ n ih =>
      obtain ⟨a, q, hqueue⟩ := List.exists_cons_of_length_eq_add_one hlength
      have htake := Step.take hr hqueue
      have hrest : (Function.update s.fifo c (s.fifo c).pop c).queue.length = n := by
        rw [Function.update_self, Fifo.pop_queue hqueue]
        rw [hqueue, List.length_cons] at hlength
        omega
      obtain ⟨tr, s', hrun, hregs, hroom⟩ := ih ⟨s.regs, _⟩ hrest
      exact ⟨_, s', hrun.cons htake, hregs, hroom⟩

/-- An event only takes words from streams bound to the input ports of its call. -/
theorem Effect.queue_isPrefix {depth : Chan C → ℕ} {k : Call C word} {f f' : Fifos C word} {e}
    (he : Effect depth k f e f') {c : Chan C} (hc : ∀ i, k.src i ≠ c) :
    (f c).queue <+: (f' c).queue := by
  cases he with
  | read h => rw [Function.update_of_ne (hc _).symm]
  | @write o b h =>
      by_cases ho : c = k.dst o
      · subst ho
        simp
      · rw [Function.update_of_ne ho]
  | _ => exact List.prefix_refl _

/-- What a call observes of its streams. -/
theorem Effect.of_look {depth : Chan C → ℕ} {k : Call C word} {f f' : Fifos C word} {x y}
    (he : Effect depth k f (.look x y) f') :
    f' = f ∧ (x = fun i => (f (k.src i)).queue.isEmpty) ∧
      y = fun o => decide (depth (k.dst o) ≤ (f (k.dst o)).queue.length) := by
  cases he with
  | look => exact ⟨rfl, rfl, rfl⟩

variable [Fintype P]

/-- The steps of a turn: none of them enters a word, and only the last one moves one. -/
theorem Turn.run {p : P} {s s' : N.State} (ht : N.Turn p s s') :
    ∃ tr t l, N.Run s tr t ∧ (∀ l ∈ tr, l.moves = false ∧ l.enters = false) ∧
      N.Step t l s' ∧ l.moves = true := by
  obtain ⟨e, r, f, hturn, hfed, rfl⟩ := ht
  obtain ⟨regs, fifo⟩ := s
  change CallTurn N.depth (N.node p) (regs p) fifo e r f at hturn
  generalize hr₀ : regs p = r₀ at hturn
  induction hturn generalizing regs with
  | @word r₀ f₀ e r f hl he hm =>
      subst hr₀
      refine ⟨[], _, .fire p (regs p) e, .nil, by simp, .fire hl he, ?_⟩
      cases e with
      | read i a => simpa [Label.moves] using hfed i a rfl
      | write o b => rfl
      | _ => cases hm
  | @idle r₀ f₀ e r₁ e' r f hl he hm _ ih =>
      subst hr₀
      obtain ⟨tr, t, l, hrun, hidle, hstep, hmoves⟩ :=
        ih hfed (Function.update regs p r₁) (by simp)
      rw [Function.update_idem] at hstep
      have hfirst : N.Step ⟨regs, f₀⟩ (.fire p (regs p) e) ⟨Function.update regs p r₁, f₀⟩ :=
        .fire hl he
      refine ⟨_, t, l, hrun.cons hfirst, ?_, hstep, hmoves⟩
      intro l' hl'
      rcases List.mem_cons.mp hl' with rfl | hl'
      · cases e with
        | read i a => cases hm
        | write o b => cases hm
        | _ => exact ⟨rfl, rfl⟩
      · exact hidle l' hl'

end Runs

end Network

/-! ## Networks without a way back -/

section Gradings

open Network

variable {P S : Type} {C : S → Type} {word : S → Type} [Fintype P]
variable [DecidableEq S] [∀ s, DecidableEq (C s)]

/-- The number of reads and writes ahead of a word on a stream and in the registers of a
kernel, the same on every way it can take. -/
structure Grading (N : Network P C word) where
  /-- Reads and writes ahead of a word on a stream. -/
  level : Chan C → ℕ
  /-- Reads and writes ahead of a word that a kernel holds. -/
  height : P → ℕ
  /-- How many words a kernel holds. -/
  count : ∀ p, (N.node p).kernel.σ → ℕ
  level_src : ∀ p i, level ((N.node p).src i) = height p + 1
  level_dst : ∀ p o, level ((N.node p).dst o) + 1 = height p
  level_out : ∀ c, (∀ p i, (N.node p).src i ≠ c) → level c = 0
  height_pos : ∀ p, 0 < height p
  balanced : ∀ p, (N.node p).kernel.Balanced (fun _ _ => 1) (fun _ _ => 1) (count p)

namespace Grading

variable {N : Network P C word} (G : Grading N)

/-- What one word on a stream counts for; words that have not entered do not count. -/
def weight (c : Chan C) : ℕ := if N.Fed c then 0 else G.level c

/-- There is a word at a place inside the network. -/
def Occupied (s : N.State) : Chan C ⊕ P → Prop
  | .inl c => ¬ N.Fed c ∧ (∃ p i, (N.node p).src i = c) ∧ (s.fifo c).queue ≠ []
  | .inr p => G.count p (s.regs p) ≠ 0

variable [Fintype (Chan C)]

/-- The number of reads and writes that the words inside the network still have ahead. -/
def remaining (s : N.State) : ℕ :=
  total (fun c _ => G.weight c) (fun p r => G.height p * G.count p r) s

/-- Nothing is ahead exactly when there is no word inside. -/
theorem remaining_eq_zero {s : N.State} :
    G.remaining s = 0 ↔ ∀ pl, ¬ G.Occupied s pl := by
  have hqueue : ∀ c, amount (fun _ : word c.1 => G.weight c) (s.fifo c).queue =
      (s.fifo c).queue.length * G.weight c := by
    intro c
    simp [amount]
  rw [remaining, ← sum_inside, Finset.sum_eq_zero_iff]
  constructor
  · rintro h (c | p)
    · rintro ⟨hfed, ⟨p, i, rfl⟩, hq⟩
      have hzero := h (.inl ((N.node p).src i)) (Finset.mem_univ _)
      simp only [inside, hqueue, Nat.mul_eq_zero, List.length_eq_zero_iff] at hzero
      rcases hzero with hzero | hzero
      · exact hq hzero
      · simp [weight, hfed, G.level_src] at hzero
    · intro hp
      have hzero := h (.inr p) (Finset.mem_univ _)
      rcases Nat.mul_eq_zero.mp hzero with hzero | hzero
      · exact (G.height_pos p).ne' hzero
      · exact hp hzero
  · rintro h (c | p) -
    · simp only [inside, hqueue, Nat.mul_eq_zero]
      by_cases hq : (s.fifo c).queue = []
      · exact .inl (by simp [hq])
      · right
        by_cases hfed : N.Fed c
        · simp [weight, hfed]
        · have hsrc : ∀ p i, (N.node p).src i ≠ c := fun p i hpi =>
            h (.inl c) ⟨hfed, ⟨p, i, hpi⟩, hq⟩
          simp [weight, G.level_out c hsrc]
    · have hp : G.count p (s.regs p) = 0 := not_not.mp (h (.inr p))
      simp [inside, hp]

variable [DecidableEq P]

/-- Every move inside the network uses up one read or write, and nothing else but an
entering word changes their number. -/
theorem step {s s' : N.State} {l : N.Label} (hs : N.Step s l s') :
    (l.moves = true → G.remaining s' + 1 = G.remaining s) ∧
      (l.moves = false → l.enters = false → G.remaining s' = G.remaining s) := by
  cases l with
  | fire p r e =>
      obtain ⟨rfl, hl, hb⟩ :=
        hs.fire_balance (fun c _ => G.weight c) (fun p r => G.height p * G.count p r)
      have hcount := (G.balanced p).local hl
      unfold remaining
      cases e with
      | read i a =>
          by_cases hfed : N.Fed ((N.node p).src i)
          · simp [Label.moves, Label.enters, hfed]
          · have hweight : G.weight ((N.node p).src i) = G.height p + 1 := by
              rw [weight, if_neg hfed, G.level_src]
            simp only [Event.amountIn, Event.amountOut, add_zero] at hb hcount
            rw [hcount, Nat.mul_add, hweight] at hb
            simp only [Label.moves, hfed, decide_false, Bool.not_false]
            refine ⟨fun _ => by omega, fun h => by simp at h⟩
      | write o b =>
          have hweight : G.weight ((N.node p).dst o) + 1 = G.height p := by
            rw [weight, if_neg fun h => h p o rfl, G.level_dst]
          simp only [Event.amountIn, Event.amountOut, add_zero] at hb hcount
          rw [← hcount, Nat.mul_add] at hb
          simp only [Label.moves]
          refine ⟨fun _ => by omega, fun h => by simp at h⟩
      | _ =>
          simp only [Event.amountIn, Event.amountOut, add_zero] at hb hcount
          rw [hcount] at hb
          simp only [Label.moves]
          refine ⟨fun h => by simp at h, fun _ _ => by omega⟩
  | put c a =>
      exact ⟨fun h => by simp [Label.moves] at h, fun _ h => by simp [Label.enters] at h⟩
  | take c a =>
      refine ⟨fun h => by simp [Label.moves] at h, fun _ _ => ?_⟩
      cases hs with
      | take hr hq =>
          have hpop := queued_pop (fun c (_ : word c.1) => G.weight c) hq
          have hweight : G.weight c = 0 := by simp [weight, G.level_out c hr]
          rw [hweight, add_zero] at hpop
          simp only [remaining, total, hpop]

/-- As long as no word enters, the moves done and those still ahead add up. -/
theorem run {s s' : N.State} {tr : List N.Label} (hr : N.Run s tr s')
    (hin : ∀ l ∈ tr, l.enters = false) :
    tr.countP Label.moves + G.remaining s' = G.remaining s := by
  induction hr with
  | nil => simp
  | @snoc tr t l u _ hs ih =>
      have ih := ih fun l hl => hin l (by simp [hl])
      have hlast := hin l (by simp)
      obtain ⟨hmove, hrest⟩ := G.step hs
      rw [List.countP_append, List.countP_singleton]
      cases hm : l.moves with
      | true =>
          have hone := hmove hm
          simp only [if_true]
          omega
      | false =>
          have hsame := hrest hm hlast
          simp only [Bool.false_eq_true, if_false]
          omega

/-! ## Progress -/

/-- Every kernel can take a turn as soon as its streams let it. -/
structure Lively (s : N.State) : Prop where
  /-- A kernel that holds a word can move it when all its outputs have room. -/
  give : ∀ p, G.count p (s.regs p) ≠ 0 →
    (∀ o, (s.fifo ((N.node p).dst o)).queue.length < N.depth ((N.node p).dst o)) →
      ∃ s', N.Turn p s s'
  /-- A kernel that holds nothing can read a word when there is one. -/
  take : ∀ p i, G.count p (s.regs p) = 0 → ¬ N.Fed ((N.node p).src i) →
    (s.fifo ((N.node p).src i)).queue ≠ [] → ∃ s', N.Turn p s s'

omit [Fintype (Chan C)] in
/-- While there is a word inside and the outputs have room, some kernel can take a turn: a
word that cannot move is blocked by a word that has less ahead of it. -/
theorem progress {s : N.State} (hs : G.Lively s)
    (hdepth : ∀ p i, ¬ N.Fed ((N.node p).src i) → 1 ≤ N.depth ((N.node p).src i))
    (hroom : ∀ c, (∀ p i, (N.node p).src i ≠ c) → (s.fifo c).queue.length < N.depth c)
    {pl : Chan C ⊕ P} (hpl : G.Occupied s pl) : ∃ p s', N.Turn p s s' := by
  -- The induction is on how much the word has ahead of it.
  have hind : ∀ m, (∀ c, G.level c ≤ m → G.Occupied s (.inl c) → ∃ p s', N.Turn p s s') ∧
      ∀ p, G.height p ≤ m → G.Occupied s (.inr p) → ∃ p s', N.Turn p s s' := by
    intro m
    induction m with
    | zero =>
        refine ⟨?_, fun p hp => absurd hp (G.height_pos p).not_ge⟩
        rintro c hc ⟨-, ⟨p, i, rfl⟩, -⟩
        rw [G.level_src] at hc
        omega
    | succ m ih =>
        constructor
        · rintro c hc ⟨hfed, ⟨p, i, rfl⟩, hq⟩
          rw [G.level_src] at hc
          by_cases hcount : G.count p (s.regs p) = 0
          · exact ⟨p, hs.take p i hcount hfed hq⟩
          · exact ih.2 p (by omega) hcount
        · intro p hp hcount
          by_cases hfree : ∀ o,
              (s.fifo ((N.node p).dst o)).queue.length < N.depth ((N.node p).dst o)
          · exact ⟨p, hs.give p hcount hfree⟩
          · obtain ⟨o, ho⟩ := not_forall.mp hfree
            have hlevel := G.level_dst p o
            have hwritten : ¬ N.Fed ((N.node p).dst o) := fun h => h p o rfl
            have hread : ∃ q i, (N.node q).src i = (N.node p).dst o := by
              by_contra hnone
              exact ho (hroom _ fun q i h => hnone ⟨q, i, h⟩)
            refine ih.1 _ (by omega) ⟨hwritten, hread, fun hnil => ?_⟩
            obtain ⟨q, i, hqi⟩ := hread
            have hone := hdepth q i (hqi ▸ hwritten)
            rw [hqi] at hone
            rw [hnil] at ho
            exact ho hone
  cases pl with
  | inl c => exact (hind (G.level c)).1 c le_rfl hpl
  | inr p => exact (hind (G.height p)).2 p le_rfl hpl

/-! ## Emptying -/

/-- The surroundings can take everything off the streams that no kernel reads. -/
theorem exists_taken (s : N.State) :
    ∃ tr t, N.Run s tr t ∧ (∀ l ∈ tr, l.moves = false ∧ l.enters = false) ∧
      ∀ c, (∀ p i, (N.node p).src i ≠ c) → (t.fifo c).queue = [] := by
  classical
  let unread : ∀ c : Chan C, word c.1 → ℕ := fun c _ =>
    if ∀ p i, (N.node p).src i ≠ c then 1 else 0
  generalize hn : queued unread s.fifo = n
  induction n generalizing s with
  | zero =>
      refine ⟨[], s, .nil, by simp, fun c hc => ?_⟩
      have hzero := (Finset.sum_eq_zero_iff.mp hn) c (Finset.mem_univ c)
      cases hq : (s.fifo c).queue with
      | nil => rfl
      | cons a q => simp [hq, unread, hc] at hzero
  | succ n ih =>
      have hne : ∑ c, ((s.fifo c).queue.map (unread c)).sum ≠ 0 := by
        change queued unread s.fifo ≠ 0
        omega
      obtain ⟨c, -, hc⟩ := Finset.exists_ne_zero_of_sum_ne_zero hne
      obtain ⟨a, q, hq⟩ : ∃ a q, (s.fifo c).queue = a :: q := by
        apply List.exists_cons_of_ne_nil
        intro hnil
        simp [hnil] at hc
      have hsrc : ∀ p i, (N.node p).src i ≠ c := by
        by_contra hsrc
        simp [unread, hsrc] at hc
      have hone : unread c a = 1 := if_pos hsrc
      have hpop := queued_pop unread hq
      rw [hone, hn] at hpop
      obtain ⟨tr, t, hrun, hidle, hnil⟩ :=
        ih { s with fifo := Function.update s.fifo c (s.fifo c).pop } (Nat.succ.inj hpop)
      refine ⟨_, t, hrun.cons (.take hsrc hq), ?_, hnil⟩
      intro l hl
      rcases List.mem_cons.mp hl with rfl | hl
      · exact ⟨rfl, rfl⟩
      · exact hidle l hl

/-- From every reachable state the network can be emptied without a further word, when the
surroundings drain it. -/
theorem drained (hlively : ∀ s, N.Reachable s → G.Lively s)
    (hdepth : ∀ c, ¬ N.Fed c → 1 ≤ N.depth c)
    (hfeeds : ∀ c, N.Fed c → ∃ p i, (N.node p).src i = c) {s : N.State} (hs : N.Reachable s) :
    ∃ tr t, N.Run s tr t ∧ (∀ l ∈ tr, l.enters = false) ∧ G.remaining t = 0 := by
  generalize hn : G.remaining s = n
  induction n generalizing s with
  | zero => exact ⟨[], s, .nil, by simp, hn⟩
  | succ n ih =>
      -- First the outputs are drained, then some kernel takes its turn.
      obtain ⟨tr, t, hrun, hidle, hnil⟩ := exists_taken s
      have hsame := G.run hrun fun l hl => (hidle l hl).2
      rw [List.countP_eq_zero.mpr fun l hl => by simp [(hidle l hl).1], zero_add] at hsame
      have ht := hs.run hrun
      have hocc : ∃ pl, G.Occupied t pl := by
        by_contra hnone
        have hzero := G.remaining_eq_zero.mpr fun pl hpl => hnone ⟨pl, hpl⟩
        omega
      obtain ⟨pl, hpl⟩ := hocc
      have hroom : ∀ c, (∀ p i, (N.node p).src i ≠ c) → (t.fifo c).queue.length < N.depth c := by
        intro c hc
        have hfed : ¬ N.Fed c := fun h => by
          obtain ⟨p, i, hpi⟩ := hfeeds c h
          exact hc p i hpi
        rw [hnil c hc]
        exact hdepth c hfed
      obtain ⟨p, u, hturn⟩ := G.progress (hlively t ht) (fun p i => hdepth _) hroom hpl
      obtain ⟨tr', v, l, hrun', hidle', hstep, hmoves⟩ := hturn.run
      have hbefore := G.run hrun' fun l hl => (hidle' l hl).2
      rw [List.countP_eq_zero.mpr fun l hl => by simp [(hidle' l hl).1], zero_add] at hbefore
      have hmove := (G.step hstep).1 hmoves
      have hone := hrun'.snoc hstep
      obtain ⟨tr'', z, hrest, hin, hzero⟩ := ih (ht.run hone) (by omega)
      refine ⟨tr ++ ((tr' ++ [l]) ++ tr''), z, hrun.trans (hone.trans hrest), ?_, hzero⟩
      intro l' hl'
      simp only [List.mem_append, List.mem_singleton] at hl'
      rcases hl' with hl' | (hl' | rfl) | hl'
      · exact (hidle l' hl').2
      · exact (hidle' l' hl').2
      · exact Label.enters_of_moves hmoves
      · exact hin l' hl'

end Grading

end Gradings

end RidgeWalker.Dataflow
