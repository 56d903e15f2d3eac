import RidgeWalker.Dataflow.Streams

/-!
# Planned streams

A plan says which words will ever be written to every stream, and relates the registers of every
kernel to the words it has still to receive and to send.  If every kernel keeps to its part of the
plan as long as its inputs do, and the surroundings do, then the whole network does.

Main results:

- Definition `Kernel.Pursues`: what one operation owes to a plan.
- Theorem `Network.Plan.holds`: a network whose kernels pursue a plan never leaves it.
- Definition `emitterKernel`: a kernel that answers every word it reads with a list of writes.
- Theorem `emitterAhead_pursues`: such a kernel pursues every plan made of its answers.
-/

namespace RidgeWalker.Dataflow

/-! ## One kernel -/

section Pursuit

variable {In Out : Type} {α : In → Type} {β : Out → Type}
variable [DecidableEq In] [DecidableEq Out]

namespace Kernel

variable (K : Kernel α β)

/-- What one operation owes to a plan `I`, when the words `X` are still to be received and the
words `Y` still to be sent. -/
def Pursues (I : K.σ → (∀ i, List (α i)) → (∀ o, List (β o)) → Prop)
    (X : ∀ i, List (α i)) (Y : ∀ o, List (β o)) : Op α β K.Ω K.σ → Prop
  | .read i k => ∀ a rest, X i = a :: rest → I (k a) (Function.update X i rest) Y
  | .readNb i k =>
      I (k none) X Y ∧ ∀ a rest, X i = a :: rest → I (k (some a)) (Function.update X i rest) Y
  | .look k => ∀ e f, I (k e f) X Y
  | .write o b k => ∃ rest, Y o = b :: rest ∧ I k X (Function.update Y o rest)
  | .writeNb o b k =>
      I (k false) X Y ∧ ∃ rest, Y o = b :: rest ∧ I (k true) X (Function.update Y o rest)
  | .choose k => ∀ w, I (k w) X Y
  | .halt => True

/-- The words ahead after an event. -/
structure Leaves (e : Event α β K.Ω) (X X' : ∀ i, List (α i)) (Y Y' : ∀ o, List (β o)) : Prop where
  received : ∀ R : ∀ i, List (α i), ∀ i, R i ++ X i = e.received R i ++ X' i
  sent : ∀ S : ∀ o, List (β o), ∀ o, S o ++ Y o = e.sent S o ++ Y' o

variable {K}

theorem append_update {ι : Type} [DecidableEq ι] {γ : ι → Type} {X : ∀ i, List (γ i)} {i : ι}
    {a : γ i} {rest : List (γ i)} (h : X i = a :: rest) (R : ∀ i, List (γ i)) (j : ι) :
    R j ++ X j = Function.update R i (R i ++ [a]) j ++ Function.update X i rest j := by
  by_cases hj : j = i
  · subst hj
    simp [h]
  · rw [Function.update_of_ne hj, Function.update_of_ne hj]

/-- An operation that keeps to a plan leaves the rest of it. -/
theorem Pursues.local {I : K.σ → (∀ i, List (α i)) → (∀ o, List (β o)) → Prop} {r r' : K.σ}
    {X : ∀ i, List (α i)} {Y : ∀ o, List (β o)} {e : Event α β K.Ω}
    (h : K.Pursues I X Y (K.op r)) (hl : K.Local r e r')
    (hread : ∀ i a, e = .read i a → ∃ rest, X i = a :: rest) :
    ∃ X' Y', K.Leaves e X X' Y Y' ∧ I r' X' Y' := by
  have hsame : ∀ e : Event α β K.Ω, (∀ R, e.received R = R) → (∀ S, e.sent S = S) →
      K.Leaves e X X Y Y := fun e hR hS => ⟨fun R i => by rw [hR], fun S o => by rw [hS]⟩
  cases hl with
  | @read i k hop a =>
      rw [hop] at h
      obtain ⟨rest, hX⟩ := hread _ _ rfl
      exact ⟨_, Y, ⟨append_update hX, fun _ _ => rfl⟩, h a rest hX⟩
  | @readNb i k hop a =>
      rw [hop] at h
      obtain ⟨rest, hX⟩ := hread _ _ rfl
      exact ⟨_, Y, ⟨append_update hX, fun _ _ => rfl⟩, h.2 a rest hX⟩
  | readNone hop =>
      rw [hop] at h
      exact ⟨X, Y, hsame _ (fun _ => rfl) fun _ => rfl, h.1⟩
  | look hop x f =>
      rw [hop] at h
      exact ⟨X, Y, hsame _ (fun _ => rfl) fun _ => rfl, h x f⟩
  | @write o b k hop =>
      rw [hop] at h
      obtain ⟨rest, hY, hI⟩ := h
      exact ⟨X, _, ⟨fun _ _ => rfl, append_update hY⟩, hI⟩
  | @writeNb o b k hop =>
      rw [hop] at h
      obtain ⟨-, rest, hY, hI⟩ := h
      exact ⟨X, _, ⟨fun _ _ => rfl, append_update hY⟩, hI⟩
  | writeFail hop =>
      rw [hop] at h
      exact ⟨X, Y, hsame _ (fun _ => rfl) fun _ => rfl, h.1⟩
  | choose hop w =>
      rw [hop] at h
      exact ⟨X, Y, hsame _ (fun _ => rfl) fun _ => rfl, h w⟩

omit [DecidableEq Out] in
/-- What was received stays received. -/
theorem received_mono {Ω : Type} (e : Event α β Ω) (R : ∀ i, List (α i)) (i : In) :
    R i <+: e.received R i := by
  cases e with
  | read j a =>
      by_cases hj : i = j
      · subst hj
        rw [Event.received, Function.update_self]
        exact List.prefix_append _ _
      · rw [Event.received, Function.update_of_ne hj]
  | _ => exact List.prefix_refl _

/-- A kernel that pursues a plan keeps to it along every path on which it receives what is
planned. -/
theorem Path.pursues {I : K.σ → (∀ i, List (α i)) → (∀ o, List (β o)) → Prop}
    (hpursues : ∀ r X Y, I r X Y → K.Pursues I X Y (K.op r)) {r₀ r : K.σ}
    {R : ∀ i, List (α i)} {S : ∀ o, List (β o)} (hp : K.Path r₀ r R S) {X₀ : ∀ i, List (α i)}
    {Y₀ : ∀ o, List (β o)} (h₀ : I r₀ X₀ Y₀) (hR : ∀ i, R i <+: X₀ i) :
    ∃ X Y, (∀ i, X₀ i = R i ++ X i) ∧ (∀ o, Y₀ o = S o ++ Y o) ∧ I r X Y := by
  induction hp with
  | refl => exact ⟨X₀, Y₀, fun _ => rfl, fun _ => rfl, h₀⟩
  | @step r R S e r' hp hl ih =>
      obtain ⟨X, Y, hX, hY, hahead⟩ := ih fun i => (received_mono e R i).trans (hR i)
      have hread : ∀ i a, e = .read i a → ∃ rest, X i = a :: rest := by
        rintro i a rfl
        have hpre := hR i
        rw [Event.received, Function.update_self, hX i] at hpre
        obtain ⟨rest, hrest⟩ := (List.prefix_append_right_inj _).mp hpre
        exact ⟨rest, hrest.symm⟩
      obtain ⟨X', Y', hleaves, hahead'⟩ := (hpursues r X Y hahead).local hl hread
      refine ⟨X', Y', fun i => ?_, fun o => ?_, hahead'⟩
      · rw [hX i, hleaves.received R i]
      · rw [hY o, hleaves.sent S o]

end Kernel

end Pursuit

/-! ## Networks -/

section Networks

variable {P S : Type} {C : S → Type} {word : S → Type}
variable [DecidableEq P] [DecidableEq S] [∀ s, DecidableEq (C s)]

/-- A plan for a network: the words of every stream, and what every kernel has still ahead. -/
structure Network.Plan (N : Network P C word) where
  words : Histories C word
  ahead : ∀ p, (N.node p).kernel.σ → (∀ i, List (word ((N.node p).src i).1)) →
    (∀ o, List (word ((N.node p).dst o).1)) → Prop
  start : ∀ p, ahead p (N.node p).kernel.start (fun i => words ((N.node p).src i))
    fun o => words ((N.node p).dst o)

namespace Network.Plan

variable {N : Network P C word} (L : N.Plan)

/-- The surroundings write what is planned. -/
def Feeds (s : N.State) : N.Label → Prop
  | .put c a => s.written c ++ [a] <+: L.words c
  | _ => True

/-- Kernel `p` has kept to the plan. -/
def On (s : N.State) (p : P) : Prop :=
  ∃ X Y, (∀ i, L.words ((N.node p).src i) = s.taken ((N.node p).src i) ++ X i) ∧
    (∀ o, L.words ((N.node p).dst o) = s.written ((N.node p).dst o) ++ Y o) ∧
      L.ahead p (s.regs p) X Y

/-- The network is on the plan. -/
structure Holds (s : N.State) : Prop where
  written : ∀ c, s.written c <+: L.words c
  on : ∀ p, L.On s p

variable {L}

omit [DecidableEq P] [DecidableEq S] [∀ s, DecidableEq (C s)] in
theorem Holds.taken {s : N.State} (h : L.Holds s) (c : Chan C) : s.taken c <+: L.words c :=
  (s.taken_isPrefix c).trans (h.written c)

/-- Every kernel pursues its part of the plan in a state. -/
def Pursued (L : N.Plan) (s : N.State) : Prop :=
  ∀ p X Y, (∀ i, L.words ((N.node p).src i) = s.taken ((N.node p).src i) ++ X i) →
    (∀ o, L.words ((N.node p).dst o) = s.written ((N.node p).dst o) ++ Y o) →
      L.ahead p (s.regs p) X Y →
        (N.node p).kernel.Pursues (L.ahead p) X Y ((N.node p).kernel.op (s.regs p))

/-- A step of kernels that pursue the plan keeps each of them on it. -/
theorem Holds.step_on (hN : N.PointToPoint) {s s' : N.State} {l : N.Label} (h : L.Holds s)
    (hs : N.Step s l s') (hpursued : L.Pursued s) (p : P) : L.On s' p := by
  obtain ⟨X, Y, hX, hY, hahead⟩ := h.on p
  rcases hs.fired_or_frame hN p with ⟨e, hl, hR, hS⟩ | ⟨hregs, hR, hS⟩
  · have hread : ∀ i a, e = .read i a → ∃ rest, X i = a :: rest := by
      rintro i a rfl
      have htaken : s'.taken ((N.node p).src i) = s.taken ((N.node p).src i) ++ [a] := by
        have hi := congrFun hR i
        rwa [Event.received, Function.update_self] at hi
      have hpre := (hs.taken_isPrefix ((N.node p).src i)).trans (h.written _)
      rw [htaken, hX i] at hpre
      obtain ⟨rest, hrest⟩ := (List.prefix_append_right_inj _).mp hpre
      exact ⟨rest, hrest.symm⟩
    obtain ⟨X', Y', hleaves, hahead'⟩ := (hpursued p X Y hX hY hahead).local hl hread
    refine ⟨X', Y', fun i => ?_, fun o => ?_, hahead'⟩
    · rw [hX i, congrFun hR i]
      exact hleaves.received (fun i => s.taken ((N.node p).src i)) i
    · rw [hY o, congrFun hS o]
      exact hleaves.sent (fun o => s.written ((N.node p).dst o)) o
  · refine ⟨X, Y, fun i => ?_, fun o => ?_, ?_⟩
    · rw [hX i, congrFun hR i]
    · rw [hY o, congrFun hS o]
    · rwa [hregs]

/-- A step of kernels that pursue the plan stays on it. -/
theorem Holds.step (hN : N.PointToPoint) {s s' : N.State} {l : N.Label} (h : L.Holds s)
    (hfeed : L.Feeds s l) (hs : N.Step s l s') (hpursued : L.Pursued s) : L.Holds s' := by
  have hon := h.step_on hN hs hpursued
  refine ⟨fun c => ?_, hon⟩
  by_cases hw : ∃ p o, (N.node p).dst o = c
  · obtain ⟨p, o, rfl⟩ := hw
    obtain ⟨X, Y, -, hY, -⟩ := hon p
    rw [hY o]
    exact List.prefix_append _ _
  · have hfed : ∀ p o, (N.node p).dst o ≠ c := fun p o hpo => hw ⟨p, o, hpo⟩
    rcases hs.written_fed hfed with heq | ⟨a, rfl, heq⟩
    · rw [heq]
      exact h.written c
    · rw [heq]
      exact hfeed

omit [DecidableEq P] [DecidableEq S] [∀ s, DecidableEq (C s)] in
/-- Nothing has happened yet. -/
theorem holds_init : L.Holds N.init :=
  ⟨fun _ => List.nil_prefix, fun p => ⟨_, _, fun _ => rfl, fun _ => rfl, L.start p⟩⟩

/-- A network whose kernels pursue a plan never leaves it. -/
theorem holds (hN : N.PointToPoint) {ok : N.State → N.Label → Prop}
    (hfeed : ∀ s l, ok s l → L.Feeds s l)
    (hpursued : ∀ tr s l, N.GuardedRun ok N.init tr s → ok s l → L.Holds s → L.Pursued s)
    {tr : List N.Label} {s : N.State} (hr : N.GuardedRun ok N.init tr s) : L.Holds s := by
  induction hr with
  | nil => exact holds_init
  | snoc hr hok hs ih => exact ih.step hN (hfeed _ _ hok) hs (hpursued _ _ _ hr hok ih)

end Network.Plan

end Networks

/-! ## Kernels that answer every word -/

section Emitters

variable {In Out : Type} {α : In → Type} {β : Out → Type} [DecidableEq In] [DecidableEq Out]

/-- A word for one of several outputs. -/
abbrev Send (β : Out → Type) : Type := Σ o, β o

/-- The words of a list of writes for one output. -/
def sentTo (o : Out) : List (Send β) → List (β o)
  | [] => []
  | ⟨o', b⟩ :: sends => if h : o' = o then (h ▸ b) :: sentTo o sends else sentTo o sends

@[simp] theorem sentTo_self (o : Out) (b : β o) (sends : List (Send β)) :
    sentTo o (⟨o, b⟩ :: sends) = b :: sentTo o sends := by
  simp [sentTo]

theorem sentTo_of_ne {o o' : Out} (h : o' ≠ o) (b : β o') (sends : List (Send β)) :
    sentTo o (⟨o', b⟩ :: sends) = sentTo o sends := by
  simp [sentTo, h]

theorem sentTo_append (o : Out) (sends sends' : List (Send β)) :
    sentTo o (sends ++ sends') = sentTo o sends ++ sentTo o sends' := by
  induction sends with
  | nil => rfl
  | cons b sends ih =>
      obtain ⟨o', b⟩ := b
      by_cases h : o' = o
      · subst h
        simp [ih]
      · rw [List.cons_append, sentTo_of_ne h, sentTo_of_ne h, ih]

/-- What a kernel keeps between two words, and what it makes of a word. -/
structure Emitter (a : Type) (β : Out → Type) where
  σ : Type
  start : σ
  answer : σ → a → σ × List (Send β)

variable {a : Type}

/-- The state after a sequence of words. -/
def Emitter.after (E : Emitter a β) (s : E.σ) : List a → E.σ
  | [] => s
  | x :: xs => E.after (E.answer s x).1 xs

/-- The writes for a sequence of words. -/
def Emitter.answers (E : Emitter a β) (s : E.σ) : List a → List (Send β)
  | [] => []
  | x :: xs => (E.answer s x).2 ++ E.answers (E.answer s x).1 xs

theorem Emitter.answers_cons (E : Emitter a β) (s : E.σ) (x : a) (xs : List a) :
    E.answers s (x :: xs) = (E.answer s x).2 ++ E.answers (E.answer s x).1 xs := rfl

/-- A kernel that polls its only input and answers every word with a list of writes. -/
def emitterKernel (E : Emitter a β) : Kernel (fun _ : Unit => a) β where
  σ := E.σ × List (Send β)
  Ω := Empty
  start := (E.start, [])
  op
    | (s, []) => .readNb () fun
        | some x => E.answer s x
        | none => (s, [])
    | (s, ⟨o, b⟩ :: sends) => .write o b (s, sends)

/-- What such a kernel has ahead: the writes it has begun, and the answers to the words still to
come. -/
def emitterAhead (E : Emitter a β) (r : E.σ × List (Send β)) (X : Unit → List a)
    (Y : ∀ o, List (β o)) : Prop :=
  ∀ o, Y o = sentTo o (r.2 ++ E.answers r.1 (X ()))

/-- Such a kernel pursues every plan made of its answers. -/
theorem emitterAhead_pursues (E : Emitter a β) (r : E.σ × List (Send β)) (X : Unit → List a)
    (Y : ∀ o, List (β o)) (h : emitterAhead E r X Y) :
    (emitterKernel E).Pursues (emitterAhead E) X Y ((emitterKernel E).op r) := by
  obtain ⟨s, _ | ⟨⟨o, b⟩, sends⟩⟩ := r
  · refine ⟨h, fun x rest hX o => ?_⟩
    rw [h o, hX, Function.update_self]
    rfl
  · refine ⟨sentTo o (sends ++ E.answers s (X ())), ?_, fun o' => ?_⟩
    · rw [h o]
      exact sentTo_self o b _
    · by_cases ho : o' = o
      · subst ho
        rw [Function.update_self]
      · rw [Function.update_of_ne ho, h o']
        exact sentTo_of_ne (Ne.symm ho) b _

/-- What such a kernel has written and is about to write are its answers. -/
theorem emitter_path (E : Emitter a β) {r : E.σ × List (Send β)} {R : Unit → List a}
    {S : ∀ o, List (β o)} (hp : (emitterKernel E).Path (emitterKernel E).start r R S) (o : Out) :
    S o ++ sentTo o r.2 = sentTo o (E.answers E.start (R ())) := by
  have hstart : emitterAhead E (emitterKernel E).start R
      fun o => sentTo o (E.answers E.start (R ())) := fun _ => rfl
  obtain ⟨X, Y, hX, hY, hahead⟩ := hp.pursues (emitterAhead_pursues E) hstart
    fun _ => List.prefix_rfl
  have hnil : X () = [] := List.append_right_eq_self.mp (hX ()).symm
  rw [hY o, hahead o, hnil, Emitter.answers, List.append_nil]

end Emitters

end RidgeWalker.Dataflow
