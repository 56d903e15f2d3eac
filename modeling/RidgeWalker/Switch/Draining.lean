import RidgeWalker.Switch.Delivery
import RidgeWalker.Dataflow.Draining

/-!
# The butterfly networks do not get stuck

Every package that enters a butterfly network is read and written the same number of times
before it leaves, so the networks are graded.  The package kernels never hold a package back
on their own account: with room on its outputs a kernel gives the package it holds, and a
kernel that holds none takes one that waits for it.

Main results:

- Theorem `Block.Graded.double`: doubling a network adds two kernels to every way.
- Theorem `Butterfly.drains`: a graded network of package kernels cannot get stuck and
  empties after as many moves as its packages have ahead.
- Theorem `networks_drain`: this holds of the switch and of the work-stealing network of
  width eight.
-/

namespace RidgeWalker.Switch

open Dataflow Network

/-! ## Turns of the package kernels -/

section Turns

/-- An input that `merge_package` selects was observed to hold a package. -/
theorem mergeSelect_observed {in2Empty in1Empty flag : Bool} {i : Fin 2}
    (h : mergeSelect in2Empty in1Empty flag = some i) : ![in1Empty, in2Empty] i = false := by
  cases in2Empty <;> cases in1Empty <;> cases flag <;> cases h <;> rfl

/-- `merge_package` selects an input unless it observed both to be empty. -/
theorem mergeSelect_isSome {in2Empty in1Empty : Bool} (flag : Bool)
    (h : in2Empty = false ∨ in1Empty = false) : ∃ i, mergeSelect in2Empty in1Empty flag = some i := by
  cases in2Empty <;> cases in1Empty <;> cases flag <;> simp [mergeSelect] at h ⊢

/-- A merger that counts on a package is not mistaken. -/
def MergeRegs.Sure {w : Type} (queue : Fin 2 → List w) : MergeRegs w → Prop
  | .weigh _ in1Empty => in1Empty = false → queue 0 ≠ []
  | .fetch i => queue i ≠ []
  | _ => True

/-- What a merger observes keeps it from being mistaken, and so does what it does. -/
theorem MergeRegs.Sure.local {w : Type} {queue queue' : Fin 2 → List w} {r r' : MergeRegs w}
    {e : Event (fun _ : Fin 2 => w) (fun _ : Unit => w) Empty} (h : r.Sure queue)
    (hl : (mergePackageKernel w).Local r e r')
    (hlook : ∀ x y, e = .look x y → queue' = queue ∧ x = fun i => (queue i).isEmpty) :
    r'.Sure queue' := by
  have hy := hl.yields
  cases r with
  | poll flag =>
      obtain ⟨x, y, rfl, rfl⟩ := hy
      obtain ⟨rfl, rfl⟩ := hlook x y rfl
      intro hempty
      simpa using hempty
  | weigh flag in1Empty =>
      obtain ⟨x, y, rfl, rfl⟩ := hy
      obtain ⟨rfl, rfl⟩ := hlook x y rfl
      cases hsel : mergeSelect (queue' 1).isEmpty in1Empty flag with
      | none => simp only [hsel]; trivial
      | some i =>
          simp only [hsel]
          have hobs := mergeSelect_observed hsel
          fin_cases i
          · exact h hobs
          · have hne : queue' 1 ≠ [] := by simpa using hobs
            exact hne
  | fetch i =>
      obtain ⟨a, -, rfl⟩ := hy
      trivial
  | emit i item =>
      obtain ⟨-, rfl⟩ := hy
      trivial

namespace PackageCall

variable {S : Type} {C : S → Type} {word : S → Type} {s : S}
variable [DecidableEq S] [∀ s, DecidableEq (C s)]

/-- A package call that counts on a package is not mistaken. -/
def Sure (f : Fifos C word) : (k : PackageCall C word s) → k.call.kernel.σ → Prop
  | merge in1 in2 _ => MergeRegs.Sure fun i => (f ⟨s, ![in1, in2] i⟩).queue
  | _ => fun _ => True

omit [DecidableEq S] [∀ s, DecidableEq (C s)] in
theorem Sure.start (f : Fifos C word) (k : PackageCall C word s) :
    k.Sure f k.call.kernel.start := by
  cases k <;> trivial

omit [DecidableEq S] [∀ s, DecidableEq (C s)] in
/-- New packages on the inputs do not make a call mistaken. -/
theorem Sure.grow {f f' : Fifos C word} {k : PackageCall C word s} {r : k.call.kernel.σ}
    (h : k.Sure f r) (hf : ∀ i, (f (k.call.src i)).queue <+: (f' (k.call.src i)).queue) :
    k.Sure f' r := by
  cases k with
  | merge in1 in2 out =>
      have hne : ∀ i : Fin 2, (f ⟨s, ![in1, in2] i⟩).queue ≠ [] →
          (f' ⟨s, ![in1, in2] i⟩).queue ≠ [] := by
        intro i hi hnil
        exact hi (List.prefix_nil.mp (hnil ▸ hf i))
      cases r with
      | weigh flag in1Empty => exact fun hempty => hne 0 (h hempty)
      | fetch i => exact hne i h
      | _ => trivial
  | _ => trivial

/-- The operations of a package call keep it from being mistaken. -/
theorem Sure.local {depth : Chan C → ℕ} {f f' : Fifos C word} {k : PackageCall C word s}
    {r r' : k.call.kernel.σ} {e} (h : k.Sure f r) (hl : k.call.kernel.Local r e r')
    (he : Effect depth k.call f e f') : k.Sure f' r' := by
  cases k with
  | merge in1 in2 out =>
      let queue := fun (g : Fifos C word) (i : Fin 2) => (g ⟨s, ![in1, in2] i⟩).queue
      have hmerge : MergeRegs.Sure (queue f) r := h
      change MergeRegs.Sure (queue f') r'
      refine hmerge.local hl ?_
      rintro x y rfl
      obtain ⟨rfl, rfl, -⟩ := he.of_look
      exact ⟨rfl, rfl⟩
  | _ => trivial

/-- How many packages the registers hold. -/
def count (k : PackageCall C word s) : k.call.kernel.σ → ℕ := k.held fun _ => 1

/-- With room on its outputs a call gives the package it holds. -/
theorem exists_write {depth : Chan C → ℕ} {f : Fifos C word} {k : PackageCall C word s}
    {r : k.call.kernel.σ} (hr : k.count r ≠ 0)
    (hroom : ∀ o, (f (k.call.dst o)).queue.length < depth (k.call.dst o)) :
    ∃ o b r' f', CallTurn depth k.call r f (.write o b) r' f' := by
  cases k with
  | distribute dest in_ out1 out2 id1 id2 mask =>
      cases r with
      | poll => exact absurd rfl hr
      | emit o item => exact ⟨o, item, _, _, .word (.write rfl) (.write (hroom o)) rfl⟩
  | wsDistribute in_ out1 out2 =>
      let k : PackageCall C word s := wsDistribute in_ out1 out2
      have hemit : ∀ (o : Fin 2) item, ∃ o' b r' f',
          CallTurn depth k.call (.emit o item) f (.write o' b) r' f' := fun o item =>
        ⟨o, item, _, _, .word (.write rfl) (.write (hroom o)) rfl⟩
      have hweigh : ∀ flag out1Full item, ∃ o' b r' f',
          CallTurn depth k.call (.weigh flag out1Full item) f (.write o' b) r' f' := by
        intro flag out1Full item
        obtain ⟨o', b, r', f', ht⟩ := hemit _ item
        exact ⟨o', b, r', f', .idle (.look rfl _ _) .look rfl ht⟩
      cases r with
      | poll flag => exact absurd rfl hr
      | inspect flag item =>
          obtain ⟨o', b, r', f', ht⟩ := hweigh flag _ item
          exact ⟨o', b, r', f', .idle (.look rfl _ _) .look rfl ht⟩
      | weigh flag out1Full item => exact hweigh flag out1Full item
      | emit o item => exact hemit o item
  | merge in1 in2 out =>
      cases r with
      | emit i item => exact ⟨(), item, _, _, .word (.write rfl) (.write (hroom ())) rfl⟩
      | _ => exact absurd rfl hr
  | forward in_ out =>
      cases r with
      | fetch => exact absurd rfl hr
      | emit item => exact ⟨(), item, _, _, .word (.write rfl) (.write (hroom ())) rfl⟩

/-- A merger that holds nothing takes a package that waits for it. -/
theorem merge_exists_read {depth : Chan C → ℕ} {f : Fifos C word} {in1 in2 out : C s}
    {r : MergeRegs (word s)} (hr : MergeRegs.held (fun _ => 1) r = 0)
    (hsure : (merge in1 in2 out : PackageCall C word s).Sure f r) {i : Fin 2}
    (hq : (f ⟨s, ![in1, in2] i⟩).queue ≠ []) :
    ∃ i' a r' f', CallTurn depth (merge in1 in2 out : PackageCall C word s).call r f
      (.read i' a) r' f' := by
  let k : PackageCall C word s := merge in1 in2 out
  have hfetch : ∀ i : Fin 2, (f ⟨s, ![in1, in2] i⟩).queue ≠ [] →
      ∃ i' a r' f', CallTurn depth k.call (.fetch i) f (.read i' a) r' f' := by
    intro i hi
    obtain ⟨a, q, hq⟩ : ∃ a q, (f (k.call.src i)).queue = a :: q :=
      List.exists_cons_of_ne_nil hi
    have hread : k.call.kernel.Local (.fetch i) (.read i a) (.emit i a) :=
      Kernel.Local.read (K := k.call.kernel) (i := i) rfl a
    exact ⟨i, a, _, _, .word hread (.read hq) rfl⟩
  have hstep : ∀ flag in1Empty, k.call.kernel.Local (.weigh flag in1Empty)
      (.look (fun i : Fin 2 => (f ⟨s, ![in1, in2] i⟩).queue.isEmpty)
        fun _ : Unit => decide (depth ⟨s, out⟩ ≤ (f ⟨s, out⟩).queue.length))
      ((mergeSelect (f ⟨s, in2⟩).queue.isEmpty in1Empty flag).elim (.poll flag) .fetch) := by
    intro flag in1Empty
    let empty : Fin 2 → Bool := fun i => (f ⟨s, ![in1, in2] i⟩).queue.isEmpty
    have hlook := Kernel.Local.look (K := k.call.kernel) (r := MergeRegs.weigh flag in1Empty) rfl
      empty (fun _ : Unit => decide (depth ⟨s, out⟩ ≤ (f ⟨s, out⟩).queue.length))
    have hselect : mergeSelect (f ⟨s, in2⟩).queue.isEmpty in1Empty flag =
        mergeSelect (empty 1) in1Empty flag := rfl
    rw [hselect]
    cases h : mergeSelect (empty 1) in1Empty flag with
    | none =>
        rw [h] at hlook
        exact hlook
    | some i =>
        rw [h] at hlook
        exact hlook
  -- Having observed a package on either input, the merger fetches one.
  have hweigh : ∀ flag in1Empty, (in1Empty = false → (f ⟨s, in1⟩).queue ≠ []) →
      ((f ⟨s, in2⟩).queue.isEmpty = false ∨ in1Empty = false) →
        ∃ i' a r' f', CallTurn depth k.call (.weigh flag in1Empty) f (.read i' a) r' f' := by
    intro flag in1Empty hsure hsome
    obtain ⟨i, hi⟩ := mergeSelect_isSome flag hsome
    have hobs := mergeSelect_observed hi
    have hne : (f ⟨s, ![in1, in2] i⟩).queue ≠ [] := by
      fin_cases i
      · exact hsure hobs
      · simpa using hobs
    obtain ⟨i', a, r', f', ht⟩ := hfetch i hne
    have hlook := hstep flag in1Empty
    simp only [hi] at hlook
    exact ⟨i', a, r', f', .idle hlook .look rfl ht⟩
  have hpoll : ∀ flag, ∃ i' a r' f', CallTurn depth k.call (.poll flag) f (.read i' a) r' f' := by
    intro flag
    obtain ⟨i', a, r', f', ht⟩ := hweigh flag (f ⟨s, in1⟩).queue.isEmpty (by simp) (by
      fin_cases i
      · exact .inr (by simpa using hq)
      · exact .inl (by simpa using hq))
    exact ⟨i', a, r', f', .idle (.look rfl _ _) .look rfl ht⟩
  cases r with
  | poll flag => exact hpoll flag
  | weigh flag in1Empty =>
      by_cases hsome : (f ⟨s, in2⟩).queue.isEmpty = false ∨ in1Empty = false
      · exact hweigh flag in1Empty hsure hsome
      · -- The package arrived after the observation: the merger polls once more.
        obtain ⟨i', a, r', f', ht⟩ := hpoll flag
        have hlook := hstep flag in1Empty
        obtain ⟨hempty, rfl⟩ : (f ⟨s, in2⟩).queue.isEmpty = true ∧ in1Empty = true := by
          simpa [not_or] using hsome
        have hsel : mergeSelect (f ⟨s, in2⟩).queue.isEmpty true flag = none := by
          rw [hempty]
          rfl
        simp only [hsel] at hlook
        exact ⟨i', a, r', f', .idle hlook .look rfl ht⟩
  | fetch i => exact hfetch i hsure
  | emit i item => exact absurd hr one_ne_zero

/-- A call that holds nothing takes a package that waits for it. -/
theorem exists_read {depth : Chan C → ℕ} {f : Fifos C word} {k : PackageCall C word s}
    {r : k.call.kernel.σ} (hr : k.count r = 0) (hsure : k.Sure f r) {i : k.call.In}
    (hq : (f (k.call.src i)).queue ≠ []) :
    ∃ i' a r' f', CallTurn depth k.call r f (.read i' a) r' f' := by
  obtain ⟨a, q, hcons⟩ := List.exists_cons_of_ne_nil hq
  cases k with
  | distribute dest in_ out1 out2 id1 id2 mask =>
      cases r with
      | poll =>
          have hread := Kernel.Local.readNb (K := distributePackageKernel dest id1 id2 mask)
            (r := .poll) (i := i) rfl a
          exact ⟨i, a, _, _, .word hread (.read hcons) rfl⟩
      | emit o item => exact absurd hr one_ne_zero
  | wsDistribute in_ out1 out2 =>
      cases r with
      | poll flag =>
          have hread := Kernel.Local.readNb (K := wsDistributePackageKernel (word s))
            (r := .poll flag) (i := i) rfl a
          exact ⟨i, a, _, _, .word hread (.read hcons) rfl⟩
      | _ => exact absurd hr one_ne_zero
  | merge in1 in2 out => exact merge_exists_read hr hsure hq
  | forward in_ out =>
      cases r with
      | fetch =>
          have hread := Kernel.Local.read (K := forwardKernel (word s)) (r := .fetch) (i := i) rfl a
          exact ⟨i, a, _, _, .word hread (.read hcons) rfl⟩
      | emit item => exact absurd hr one_ne_zero

end PackageCall

end Turns

/-! ## Every way has the same length -/

section Grades

variable {S : Type} {C : S → Type} {word : S → Type} {s : S}
variable {m n : ℕ} {Inner Proc : Type}

/-- On every way through the block a package is read and written `top` times in all;
`level` and `height` count what is ahead of it on a stream inside and in a call. -/
structure Block.Graded (b : Block C word s n Inner Proc) (top : ℕ) (level : Inner → ℕ)
    (height : Proc → ℕ) : Prop where
  top_pos : 0 < top
  level_pos : ∀ x, 0 < level x
  level_lt : ∀ x, level x < top
  height_pos : ∀ p, 0 < height p
  ways : ∀ ins outs inner (ahead : C s → ℕ) (base : ℕ), (∀ i, ahead (ins i) = base + top) →
    (∀ j, ahead (outs j) = base) → (∀ x, ahead (inner x) = base + level x) →
      ∀ p, (∀ c ∈ (b ins outs inner p).ins, ahead c = base + height p + 1) ∧
        ∀ c ∈ (b ins outs inner p).outs, ahead c + 1 = base + height p

/-- Reads and writes ahead of a package that a call of a network of width two holds. -/
def height2 : Proc2 → ℕ
  | .inl _ => 3
  | .inr _ => 1

theorem butterfly2x2_graded {first : (in_ out1 out2 : C s) → PackageCall C word s}
    (hin : ∀ a b c, (first a b c).ins = {a}) (hout : ∀ a b c, (first a b c).outs = {b} + {c}) :
    (butterfly2x2 first).Graded 4 (fun _ => 2) height2 := by
  refine ⟨by decide, fun _ => by decide, fun _ => by decide, fun p => ?_,
    fun ins outs inner ahead base hi ho hx p => ?_⟩
  · cases p <;> simp [height2]
  · rcases p with k | k <;> fin_cases k <;>
      simp [butterfly2x2, hin, hout, PackageCall.merge_ins, PackageCall.merge_outs, hi, ho, hx,
        height2]

/-- Reads and writes ahead of a package on a stream inside a doubled network. -/
def levelDouble {Inner : Type} (level : Inner → ℕ) : InnerDouble m Inner → ℕ
  | .inl _ => 4
  | .inr (.inl (_, x)) => 4 + level x
  | .inr (.inr _) => 2

/-- Reads and writes ahead of a package that a call of a doubled network holds. -/
def heightDouble {Proc : Type} (height : Proc → ℕ) : ProcDouble m Proc → ℕ
  | .inl (_, p) => 4 + height p
  | .inr (_, p) => height2 p

/-- Doubling a network adds two kernels to every way. -/
theorem Block.Graded.double {half : Block C word s m Inner Proc}
    {last : Block C word s 2 Inner2 Proc2} {top : ℕ} {level : Inner → ℕ} {height : Proc → ℕ}
    (hhalf : half.Graded top level height) (hlast : last.Graded 4 (fun _ => 2) height2) :
    (half.double last).Graded (4 + top) (levelDouble level) (heightDouble height) := by
  have htop := hhalf.top_pos
  refine ⟨by omega, ?_, ?_, ?_, fun ins outs inner ahead base hi ho hx => ?_⟩
  · rintro (k | ⟨h, x⟩ | ⟨k, x⟩)
    · exact Nat.succ_pos 3
    · exact Nat.add_pos_left (by decide) _
    · exact Nat.succ_pos 1
  · rintro (k | ⟨h, x⟩ | ⟨k, x⟩)
    · simp only [levelDouble]
      omega
    · exact Nat.add_lt_add_left (hhalf.level_lt x) 4
    · simp only [levelDouble]
      omega
  · rintro (⟨h, p⟩ | ⟨k, p⟩)
    · exact Nat.add_pos_left (by decide) _
    · exact hlast.height_pos p
  · rintro (⟨h, p⟩ | ⟨k, p⟩)
    · obtain ⟨hins, houts⟩ := hhalf.ways _ _ _ ahead (base + 4)
        (fun i => (hi _).trans (Nat.add_assoc _ _ _).symm) (fun j => hx (.inl _))
        (fun x => (hx (.inr (.inl (h, x)))).trans (Nat.add_assoc _ _ _).symm) p
      refine ⟨fun c hc => ?_, fun c hc => ?_⟩
      · rw [hins c hc, heightDouble, Nat.add_assoc base]
      · rw [houts c hc, heightDouble, Nat.add_assoc]
    · exact hlast.ways _ _ _ ahead base (fun i => hx (.inl _)) (fun j => ho _)
        (fun x => hx (.inr (.inr (k, x)))) p

end Grades

/-! ## Closed systems -/

/-- The number of packages in the registers is what they hold. -/
theorem PackageCall.card_held {S : Type} {C : S → Type} {word : S → Type} {s : S}
    (k : PackageCall C word s) (r : k.call.kernel.σ) :
    (k.held (fun x => ({x} : Multiset (word s))) r).card = k.count r := by
  cases k <;> cases r <;> rfl

section Closed

variable {w : Type} {n : ℕ} {Inner Proc : Type}

/-- The streams of a switch: its inputs, its outputs and those inside. -/
def Port.equiv (n : ℕ) (Inner : Type) : Port n Inner ≃ Fin n ⊕ Fin n ⊕ Inner where
  toFun
    | .input i => .inl i
    | .output j => .inr (.inl j)
    | .inner x => .inr (.inr x)
  invFun
    | .inl i => .input i
    | .inr (.inl j) => .output j
    | .inr (.inr x) => .inner x
  left_inv c := by cases c <;> rfl
  right_inv c := by rcases c with i | j | x <;> rfl

instance [Fintype Inner] : Fintype (Port n Inner) := Fintype.ofEquiv _ (Port.equiv n Inner).symm

/-- The reads and writes ahead of a package on a stream of a switch. -/
def ahead (top : ℕ) (level : Inner → ℕ) : Chan (Ports n Inner) → ℕ
  | ⟨_, .input _⟩ => top
  | ⟨_, .output _⟩ => 0
  | ⟨_, .inner x⟩ => level x

variable {b : Butterfly w n Inner Proc} {depth : Chan (Ports n Inner) → ℕ}

/-- The packages inside a switch: on its streams inside and in its calls. -/
def aboard [Fintype Inner] [Fintype Proc] (s : (b.network depth).State) : Multiset w :=
  (∑ x, contents s (.inl x)) + ∑ p, contents s (.inr (.inl p))

/-- The reads and writes that the packages inside a switch have ahead. -/
def movesAhead [Fintype Inner] [Fintype Proc] (level : Inner → ℕ) (height : Proc → ℕ)
    (s : (b.network depth).State) : ℕ :=
  (∑ x, level x * (contents s (.inl x)).card) + ∑ p, height p * (contents s (.inr (.inl p))).card

/-- A switch does not get stuck, and empties after as many moves as its packages have
ahead. -/
structure Drains [Fintype Inner] [Fintype Proc] [DecidableEq Inner] [DecidableEq Proc]
    (b : Butterfly w n Inner Proc) (depth : Chan (Ports n Inner) → ℕ)
    (measure : (b.network depth).State → ℕ) : Prop where
  /-- With a package inside and room on the outputs, some kernel can move a package. -/
  progress : ∀ s, (b.network depth).Reachable s → aboard s ≠ 0 →
    (∀ j, (s.fifo ⟨(), .output j⟩).queue.length < depth ⟨(), .output j⟩) →
      ∃ p s', (b.network depth).Turn p s s'
  /-- Every move inside decreases the measure. -/
  move : ∀ s l s', (b.network depth).Step s l s' → l.moves = true → measure s' + 1 = measure s
  /-- Nothing else changes it while no package enters. -/
  rest : ∀ s l s', (b.network depth).Step s l s' → l.moves = false → l.enters = false →
    measure s' = measure s
  /-- It is zero when nothing is inside. -/
  zero : ∀ s : (b.network depth).State, measure s = 0 ↔ aboard s = 0
  /-- Without further packages there are no more moves than the measure says. -/
  bound : ∀ s tr s', (b.network depth).Run s tr s' → (∀ l ∈ tr, l.enters = false) →
    tr.countP Label.moves + measure s' = measure s
  /-- Without further packages and with drained outputs the switch can be emptied. -/
  empties : (∀ j, 1 ≤ depth ⟨(), .output j⟩) → ∀ s, (b.network depth).Reachable s →
    ∃ tr s', (b.network depth).Run s tr s' ∧ (∀ l ∈ tr, l.enters = false) ∧ aboard s' = 0

variable [Fintype Inner] [Fintype Proc] {top : ℕ} {level : Inner → ℕ} {height : Proc → ℕ}

/-- The surroundings feed the inputs of a switch and no other stream. -/
theorem fed_iff (depth : Chan (Ports n Inner) → ℕ) (hb : b.Wired) [DecidableEq Inner]
    {c : Chan (Ports n Inner)} :
    (b.network depth).Fed c ↔ ∃ i, c = ⟨(), .input i⟩ := by
  have hwritten : (∃ p, c.2 ∈ (b.calls p).outs) ↔
      (∃ j, .output j = c.2) ∨ ∃ x, .inner x = c.2 := hb.mem_writes
  have hnot : (b.network depth).Fed c ↔ ¬ ∃ p, c.2 ∈ (b.calls p).outs := by
    constructor
    · rintro h ⟨p, hp⟩
      obtain ⟨o, ho⟩ := PackageCall.mem_outs.mp hp
      exact h p o ho
    · rintro h p o ho
      exact h ⟨p, PackageCall.mem_outs.mpr ⟨o, ho⟩⟩
  rw [hnot, hwritten]
  obtain ⟨⟨⟩, c⟩ := c
  cases c with
  | input i => simp
  | output j => simp
  | inner x => simp

/-- Every stream of a switch but its outputs is read. -/
theorem read_iff (depth : Chan (Ports n Inner) → ℕ) (hb : b.Wired) {c : Chan (Ports n Inner)} :
    (∃ p i, ((b.network depth).node p).src i = c) ↔ ∀ j, c ≠ ⟨(), .output j⟩ := by
  have hread : (∃ p, c.2 ∈ (b.calls p).ins) ↔
      (∃ i, .input i = c.2) ∨ ∃ x, .inner x = c.2 := hb.mem_reads
  have hsome : (∃ p i, ((b.network depth).node p).src i = c) ↔ ∃ p, c.2 ∈ (b.calls p).ins := by
    constructor
    · rintro ⟨p, i, hi⟩
      exact ⟨p, PackageCall.mem_ins.mpr ⟨i, hi⟩⟩
    · rintro ⟨p, hp⟩
      obtain ⟨i, hi⟩ := PackageCall.mem_ins.mp hp
      exact ⟨p, i, hi⟩
  rw [hsome, hread]
  obtain ⟨⟨⟩, c⟩ := c
  cases c with
  | input i => simp
  | output j => simp
  | inner x => simp

/-- A graded block of package kernels is graded as a network. -/
def Butterfly.grading [DecidableEq Inner] (depth : Chan (Ports n Inner) → ℕ)
    (hb : b.Wired) (hroutes : b.Routes)
    (hg : b.Graded top level height) : Grading (b.network depth) where
  level := ahead top level
  height := height
  count p := (b.calls p).count
  level_src p i := by
    have hways := (hg.ways .input .output .inner (fun c => ahead (n := n) top level ⟨(), c⟩) 0
      (fun _ => (Nat.zero_add _).symm) (fun _ => rfl) (fun _ => (Nat.zero_add _).symm) p).1
    have hc := hways ((b.calls p).call.src i).2 (PackageCall.mem_ins.mpr ⟨i, rfl⟩)
    rw [Nat.zero_add] at hc
    exact hc
  level_dst p o := by
    have hways := (hg.ways .input .output .inner (fun c => ahead (n := n) top level ⟨(), c⟩) 0
      (fun _ => (Nat.zero_add _).symm) (fun _ => rfl) (fun _ => (Nat.zero_add _).symm) p).2
    have hc := hways ((b.calls p).call.dst o).2 (PackageCall.mem_outs.mpr ⟨o, rfl⟩)
    rw [Nat.zero_add] at hc
    exact hc
  level_out c hc := by
    have hnot := mt (read_iff depth hb).mpr fun ⟨p, i, hi⟩ => hc p i hi
    obtain ⟨j, hj⟩ := not_forall.mp hnot
    rw [not_not.mp hj]
    rfl
  height_pos := hg.height_pos
  balanced p := (b.calls p).balanced (fun _ _ => 1) (fun _ _ => rfl) (fun _ _ => rfl)
    (hroutes _ _ _ p)

variable [DecidableEq Inner] [DecidableEq Proc]

/-- In every reachable state no call is mistaken. -/
theorem sure (hb : b.Wired) {s : (b.network depth).State} (hs : (b.network depth).Reachable s)
    (p : Proc) : (b.calls p).Sure s.fifo (s.regs p) := by
  have hpp : (b.network depth).PointToPoint := network_pointToPoint hb
  obtain ⟨tr, hr⟩ := hs
  induction hr with
  | nil => exact PackageCall.Sure.start _ _
  | @snoc tr t l u _ hstep ih =>
      cases hstep with
      | @fire q e r f hl he =>
          by_cases hpq : p = q
          · subst hpq
            have hself : Function.update t.regs p r p = r := Function.update_self p r t.regs
            have hnew := ih.local hl he
            exact (congrArg (PackageCall.Sure f (b.calls p)) hself).mpr hnew
          · simp only [Function.update_of_ne hpq]
            exact ih.grow fun i => he.queue_isPrefix fun j => hpp.src_ne (Ne.symm hpq) j i
      | @put c a hw hroom =>
          refine ih.grow fun i => ?_
          by_cases hc : (b.calls p).call.src i = c
          · subst hc
            simp
          · simp [Function.update_of_ne hc]
      | @take c a q hr hq =>
          refine ih.grow fun i => ?_
          have hc : (b.calls p).call.src i ≠ c := hr p i
          simp [Function.update_of_ne hc]

/-- The package kernels take their turns as soon as their streams let them. -/
theorem lively (hb : b.Wired) (hroutes : b.Routes) (hg : b.Graded top level height)
    {s : (b.network depth).State} (hs : (b.network depth).Reachable s) :
    (Butterfly.grading depth hb hroutes hg).Lively s := by
  let G := Butterfly.grading depth hb hroutes hg
  constructor
  · intro p hp hroom
    obtain ⟨o, a, r, f, ht⟩ := PackageCall.exists_write hp hroom
    exact ⟨_, _, r, f, ht, fun i a h => (nomatch h), rfl⟩
  · intro p i hp hfed hq
    obtain ⟨i', a, r, f, ht⟩ := PackageCall.exists_read hp (sure hb hs p) hq
    refine ⟨_, _, r, f, ht, fun j a' h => ?_, rfl⟩
    cases h
    -- Either input of a call is as far from the outputs as the other one.
    have hlevel : G.level ((b.calls p).call.src i') = G.level ((b.calls p).call.src i) :=
      (G.level_src p i').trans (G.level_src p i).symm
    intro hfed'
    obtain ⟨j, hj⟩ := (fed_iff depth hb).mp hfed'
    have htop : G.level ((b.calls p).call.src i') = top := by
      rw [show (b.calls p).call.src i' = ⟨(), .input j⟩ from hj]
      rfl
    rw [htop] at hlevel
    rcases hsrc : (b.calls p).call.src i with ⟨⟨⟩, k | k | x⟩
    · exact hfed ((fed_iff depth hb).mpr ⟨k, hsrc⟩)
    · exact (read_iff depth hb).mp ⟨p, i, rfl⟩ k hsrc
    · rw [hsrc] at hlevel
      exact (hg.level_lt x).ne' hlevel

omit [DecidableEq Proc] in
/-- What the grading counts are the moves ahead of the packages inside. -/
theorem remaining_eq (depth : Chan (Ports n Inner) → ℕ) (hb : b.Wired) (hroutes : b.Routes) (hg : b.Graded top level height)
    (s : (b.network depth).State) :
    (Butterfly.grading depth hb hroutes hg).remaining s =
      movesAhead level height s := by
  let G := Butterfly.grading depth hb hroutes hg
  have hinput : ∀ i, G.weight ⟨(), .input i⟩ = 0 := fun i =>
    if_pos ((fed_iff depth hb).mpr ⟨i, rfl⟩)
  have houtput : ∀ j, G.weight ⟨(), .output j⟩ = 0 := fun j => by
    unfold Grading.weight
    split <;> rfl
  have hinner : ∀ x, G.weight ⟨(), .inner x⟩ = level x := fun x =>
    if_neg fun hfed => by
      obtain ⟨i, hi⟩ := (fed_iff depth hb).mp hfed
      cases hi
  have hqueue : ∀ c : Chan (Ports n Inner), ((s.fifo c).queue.map fun _ : w => G.weight c).sum =
      G.weight c * (s.fifo c).queue.length := by
    intro c
    simp [Nat.mul_comm]
  unfold Grading.remaining total queued movesAhead
  congr 1
  · calc ∑ c, ((s.fifo c).queue.map fun _ : w => G.weight c).sum
        = ∑ c : Chan (Ports n Inner), G.weight c * (s.fifo c).queue.length :=
          Finset.sum_congr rfl fun c _ => hqueue c
      _ = ∑ c : Port n Inner, G.weight ⟨(), c⟩ * (s.fifo ⟨(), c⟩).queue.length := by
          rw [Fintype.sum_sigma]
          simp
      _ = ∑ x, level x * (s.fifo ⟨(), .inner x⟩).queue.length := by
          rw [← (Port.equiv n Inner).symm.sum_comp, Fintype.sum_sum_type, Fintype.sum_sum_type]
          simp [Port.equiv, hinput, houtput, hinner]
      _ = _ := rfl
  · exact Finset.sum_congr rfl fun p _ =>
      congrArg (height p * ·) ((b.calls p).card_held (s.regs p)).symm

omit [DecidableEq Inner] [DecidableEq Proc] in
/-- No moves are ahead exactly when nothing is inside. -/
theorem movesAhead_eq_zero (hg : b.Graded top level height) {s : (b.network depth).State} :
    movesAhead level height s = 0 ↔ aboard s = 0 := by
  have hlevel : ∀ x, level x ≠ 0 := fun x => (hg.level_pos x).ne'
  have hheight : ∀ p, height p ≠ 0 := fun p => (hg.height_pos p).ne'
  unfold movesAhead aboard
  rw [Nat.add_eq_zero_iff, add_eq_zero, Finset.sum_eq_zero_iff, Finset.sum_eq_zero_iff,
    Finset.sum_eq_zero_iff, Finset.sum_eq_zero_iff]
  simp only [Nat.mul_eq_zero, hlevel, hheight, false_or, Multiset.card_eq_zero]

/-- A graded network of package kernels does not get stuck, whatever the capacities of its
streams. -/
theorem Butterfly.drains (hb : b.Wired) (hroutes : b.Routes) (hg : b.Graded top level height)
    (hdepth : ∀ x, 1 ≤ depth ⟨(), .inner x⟩) : Drains b depth (movesAhead level height) := by
  let G := Butterfly.grading depth hb hroutes hg
  have hmeasure := remaining_eq depth hb hroutes hg
  have hinner : ∀ c, ¬ (b.network depth).Fed c → (∀ j, c ≠ ⟨(), .output j⟩) → 1 ≤ depth c := by
    rintro ⟨⟨⟩, i | j | x⟩ hfed hout
    · exact absurd ((fed_iff depth hb).mpr ⟨i, rfl⟩) hfed
    · exact absurd rfl (hout j)
    · exact hdepth x
  refine ⟨fun s hs hne hroom => ?_, fun s l s' hstep hm => ?_, fun s l s' hstep hm hin => ?_,
    fun s => movesAhead_eq_zero hg, fun s tr s' hr hin => ?_, fun hout s hs => ?_⟩
  · have hocc : ∃ pl, G.Occupied s pl := by
      by_contra hnone
      have hzero := G.remaining_eq_zero.mpr fun pl hpl => hnone ⟨pl, hpl⟩
      exact hne ((movesAhead_eq_zero hg).mp ((hmeasure s).symm.trans hzero))
    obtain ⟨pl, hpl⟩ := hocc
    refine G.progress (lively hb hroutes hg hs) (fun p i hfed => ?_) (fun c hc => ?_) hpl
    · exact hinner _ hfed ((read_iff depth hb).mp ⟨p, i, rfl⟩)
    · have hnot := mt (read_iff depth hb).mpr fun ⟨p, i, hi⟩ => hc p i hi
      obtain ⟨j, hj⟩ := not_forall.mp hnot
      rw [not_not.mp hj]
      exact hroom j
  · rw [← hmeasure, ← hmeasure]
    exact (G.step hstep).1 hm
  · rw [← hmeasure, ← hmeasure]
    exact (G.step hstep).2 hm hin
  · rw [← hmeasure, ← hmeasure]
    exact G.run hr hin
  · have hall : ∀ c, ¬ (b.network depth).Fed c → 1 ≤ depth c := by
      intro c hfed
      by_cases hc : ∀ j, c ≠ ⟨(), .output j⟩
      · exact hinner c hfed hc
      · obtain ⟨j, hj⟩ := not_forall.mp hc
        rw [not_not.mp hj]
        exact hout j
    have hfeeds : ∀ c, (b.network depth).Fed c →
        ∃ p i, ((b.network depth).node p).src i = c := by
      intro c hfed
      obtain ⟨i, rfl⟩ := (fed_iff depth hb).mp hfed
      exact (read_iff depth hb).mpr fun j hj => nomatch hj
    obtain ⟨tr, t, hr, hin, hzero⟩ :=
      G.drained (fun s hs => lively hb hroutes hg hs) hall hfeeds hs
    exact ⟨tr, t, hr, hin, (movesAhead_eq_zero hg).mp ((hmeasure t).symm.trans hzero)⟩

end Closed

/-! ## The networks of width eight -/

section Members

variable {S : Type} {C : S → Type} {word : S → Type} {s : S}

/-- Reads and writes ahead of a package on a stream inside a network of width eight. -/
def level8 : Inner8 → ℕ := levelDouble (levelDouble fun _ => 2)

/-- Reads and writes ahead of a package that a call of a network of width eight holds. -/
def height8 : Proc8 → ℕ := heightDouble (heightDouble height2)

theorem switch2x2Frp_graded (dest : word s → RouteId) (id1 id2 mask : RouteId) :
    (switch2x2Frp dest id1 id2 mask : Block C word s 2 Inner2 Proc2).Graded 4 (fun _ => 2)
      height2 :=
  butterfly2x2_graded (fun _ _ _ => rfl) fun _ _ _ => rfl

theorem switch8x8Frp_graded (dest : word s → RouteId) :
    (switch8x8Frp dest : Block C word s 8 Inner8 Proc8).Graded 12 level8 height8 := by
  rw [switch8x8Frp, switch4x4Frp, butterfly8x8_eq_double, butterfly4x4_eq_double]
  exact ((switch2x2Frp_graded _ _ _ _).double (switch2x2Frp_graded _ _ _ _)).double
    (switch2x2Frp_graded _ _ _ _)

theorem workStealing2x2Frp_graded :
    (workStealing2x2Frp : Block C word s 2 Inner2 Proc2).Graded 4 (fun _ => 2) height2 :=
  butterfly2x2_graded (fun _ _ _ => rfl) fun _ _ _ => rfl

theorem workStealing8x8Frp_graded :
    (workStealing8x8Frp : Block C word s 8 Inner8 Proc8).Graded 12 level8 height8 := by
  rw [workStealing8x8Frp, workStealing4x4Frp, butterfly8x8_eq_double, butterfly4x4_eq_double]
  exact (workStealing2x2Frp_graded.double workStealing2x2Frp_graded).double
    workStealing2x2Frp_graded

end Members

/-- The switch and the work-stealing network of width eight do not get stuck, for packages
of any kind and streams of any capacity. -/
theorem networks_drain {w : Type} (dest : w → RouteId) (depth : Chan (Ports 8 Inner8) → ℕ)
    (hdepth : ∀ x, 1 ≤ depth ⟨(), .inner x⟩) :
    Drains (switch8x8Frp dest) depth (movesAhead level8 height8) ∧
      Drains (workStealing8x8Frp : Butterfly w 8 Inner8 Proc8) depth
        (movesAhead level8 height8) :=
  ⟨Butterfly.drains (b := switch8x8Frp dest) (switch8x8Frp_wired _) (switch8x8Frp_routes _)
      (switch8x8Frp_graded _) hdepth,
    Butterfly.drains (b := workStealing8x8Frp) workStealing8x8Frp_wired
      workStealing8x8Frp_routes workStealing8x8Frp_graded hdepth⟩

/-- The networks drain even when every stream holds a single package. -/
theorem networks_drain_tight :
    Drains (switch8x8Frp (Packet.dest : Packet 8 Unit → RouteId)) (fun _ => 1)
        (movesAhead level8 height8) ∧
      Drains (workStealing8x8Frp : Butterfly (Packet 8 Unit) 8 Inner8 Proc8) (fun _ => 1)
        (movesAhead level8 height8) :=
  networks_drain Packet.dest (fun _ => 1) fun _ => le_rfl

end RidgeWalker.Switch
