import RidgeWalker.Dataflow.Draining
import RidgeWalker.Dataflow.Plans

/-!
# Networks at a standstill

A network stands still when no kernel can read or write a word, however long it operates alone.
Every kernel is then polling or waiting for an empty stream, or it is waiting for room.

Main results:

- Theorems `CallStill.of_readNb` and `CallStill.of_write`: what a call at a standstill waits for.
- Theorem `emitter_still`: a kernel that answers every word has answered all of them, if there is
  room for the answers.
-/

namespace RidgeWalker.Dataflow

namespace Network

variable {P S : Type} {C : S → Type} {word : S → Type}
variable [DecidableEq S] [∀ s, DecidableEq (C s)]

/-- A call that operates alone neither reads nor writes a word. -/
def CallStill (depth : Chan C → ℕ) (k : Call C word) (r : k.kernel.σ) (f : Fifos C word) : Prop :=
  ∀ e r' f', ¬CallTurn depth k r f e r' f'

/-- Every kernel is at a standstill. -/
def Still (N : Network P C word) (s : N.State) : Prop :=
  ∀ p, CallStill N.depth (N.node p) (s.regs p) s.fifo

section

variable {depth : Chan C → ℕ} {k : Call C word} {r : k.kernel.σ} {f : Fifos C word}

/-- A poll fails and leads to further operations at a standstill. -/
theorem CallStill.of_readNb (h : CallStill depth k r f) {i : k.In} {cont}
    (hop : k.kernel.op r = .readNb i cont) :
    (f (k.src i)).queue = [] ∧ CallStill depth k (cont none) f := by
  have hempty : (f (k.src i)).queue = [] := by
    rcases hqueue : (f (k.src i)).queue with _ | ⟨a, q⟩
    · rfl
    · exact absurd (CallTurn.word (.readNb hop a) (.read hqueue) rfl) (h _ _ _)
  exact ⟨hempty, fun e r' f' ht => h e r' f' (.idle (.readNone hop) (.readNone hempty) rfl ht)⟩

/-- A read waits for a word. -/
theorem CallStill.of_read (h : CallStill depth k r f) {i : k.In} {cont}
    (hop : k.kernel.op r = .read i cont) : (f (k.src i)).queue = [] := by
  rcases hqueue : (f (k.src i)).queue with _ | ⟨a, q⟩
  · rfl
  · exact absurd (CallTurn.word (.read hop a) (.read hqueue) rfl) (h _ _ _)

/-- A look leads to further operations at a standstill. -/
theorem CallStill.of_look (h : CallStill depth k r f) {next : k.kernel.σ}
    (hop : k.kernel.op r = .look fun _ _ => next) : CallStill depth k next f :=
  fun e r' f' ht => h e r' f' (.idle (.look hop _ _) .look rfl ht)

/-- A write waits for room. -/
theorem CallStill.of_write (h : CallStill depth k r f) {o : k.Out} {b} {cont}
    (hop : k.kernel.op r = .write o b cont) : depth (k.dst o) ≤ (f (k.dst o)).queue.length := by
  by_contra hroom
  exact h _ _ _ (CallTurn.word (.write hop) (.write (not_le.mp hroom)) rfl)

end

/-- An operation that neither reads nor writes a word now, and leads to registers in `I`. -/
def Idles (depth : Chan C → ℕ) (k : Call C word) (f : Fifos C word) (I : k.kernel.σ → Prop) :
    Op (fun i => word (k.src i).1) (fun o => word (k.dst o).1) k.kernel.Ω k.kernel.σ → Prop
  | .read i _ => (f (k.src i)).queue = []
  | .readNb i next => (f (k.src i)).queue = [] ∧ I (next none)
  | .look next => I (next (fun i => (f (k.src i)).queue.isEmpty)
      fun o => decide (depth (k.dst o) ≤ (f (k.dst o)).queue.length))
  | .write o _ _ => depth (k.dst o) ≤ (f (k.dst o)).queue.length
  | .writeNb o _ next => depth (k.dst o) ≤ (f (k.dst o)).queue.length ∧ I (next false)
  | .choose next => ∀ w, I (next w)
  | .halt => True

/-- A call that idles in its registers, and whatever it does, stands still. -/
theorem CallStill.of_idles {depth : Chan C → ℕ} {k : Call C word} {r : k.kernel.σ}
    {f : Fifos C word} (I : k.kernel.σ → Prop) (hr : I r)
    (hI : ∀ r, I r → ∃ op, k.kernel.op r = op ∧ Idles depth k f I op) : CallStill depth k r f := by
  intro e r' f' ht
  -- Induction on the turn: no operation of it reads or writes a word.
  have hidle : ∀ {r e r' f'}, k.kernel.Local r e r' → Effect depth k f e f' → I r →
      e.moves = false ∧ I r' := by
    intro r e r' f' hl he hr
    obtain ⟨op, hk, hop⟩ := hI r hr
    subst hk
    cases hl with
    | read h a =>
        rw [h] at hop
        cases he with
        | read hqueue => exact absurd (hqueue.symm.trans hop) (List.cons_ne_nil _ _)
    | readNb h a =>
        rw [h] at hop
        cases he with
        | read hqueue => exact absurd (hqueue.symm.trans hop.1) (List.cons_ne_nil _ _)
    | readNone h =>
        rw [h] at hop
        exact ⟨rfl, hop.2⟩
    | look h x y =>
        rw [h] at hop
        cases he with
        | look => exact ⟨rfl, hop⟩
    | write h =>
        rw [h] at hop
        cases he with
        | write hroom => exact absurd hroom (not_lt.mpr hop)
    | writeNb h =>
        rw [h] at hop
        cases he with
        | write hroom => exact absurd hroom (not_lt.mpr hop.1)
    | writeFail h =>
        rw [h] at hop
        exact ⟨rfl, hop.2⟩
    | choose h w =>
        rw [h] at hop
        exact ⟨rfl, hop w⟩
  induction ht with
  | word hl he hm => exact absurd hm (by rw [(hidle hl he hr).1]; decide)
  | idle hl he hm ht ih => exact ih (hidle hl he hr).2 hI hidle

/-- A kernel that answers every word waits for words or for room for its answers. -/
theorem emitter_still {depth : Chan C → ℕ} {Out : Type} [Fintype Out] [DecidableEq Out]
    {src : Unit → Chan C} {dst : Out → Chan C}
    {E : Emitter (word (src ()).1) fun o => word (dst o).1} {s : E.σ}
    {sends : List (Send fun o => word (dst o).1)} {f : Fifos C word}
    (h : CallStill depth ⟨Unit, Out, src, dst, emitterKernel E⟩ (s, sends) f) :
    (sends = [] ∧ (f (src ())).queue = []) ∨
      ∃ o b rest, sends = ⟨o, b⟩ :: rest ∧ depth (dst o) ≤ (f (dst o)).queue.length := by
  rcases sends with _ | ⟨⟨o, b⟩, rest⟩
  · exact .inl ⟨rfl, (CallStill.of_readNb h rfl).1⟩
  · exact .inr ⟨o, b, rest, rfl, CallStill.of_write h rfl⟩

/-- It stands still when it has sent all answers and no word is queued. -/
theorem emitter_idle {depth : Chan C → ℕ} {Out : Type} [Fintype Out] [DecidableEq Out]
    {src : Unit → Chan C} {dst : Out → Chan C}
    {E : Emitter (word (src ()).1) fun o => word (dst o).1}
    {r : E.σ × List (Send fun o => word (dst o).1)} {f : Fifos C word} (hr : r.2 = [])
    (hqueue : (f (src ())).queue = []) :
    CallStill depth ⟨Unit, Out, src, dst, emitterKernel E⟩ r f := by
  refine CallStill.of_idles
    (fun r : E.σ × List (Send fun o => word (dst o).1) => r.2 = []) hr fun r hr => ?_
  obtain ⟨x, sends⟩ := r
  cases hr
  exact ⟨_, rfl, hqueue, rfl⟩

/-- With room for its answers it waits for words. -/
theorem emitter_rests {depth : Chan C → ℕ} {Out : Type} [Fintype Out] [DecidableEq Out]
    {src : Unit → Chan C} {dst : Out → Chan C}
    {E : Emitter (word (src ()).1) fun o => word (dst o).1} {s : E.σ}
    {sends : List (Send fun o => word (dst o).1)} {f : Fifos C word}
    (h : CallStill depth ⟨Unit, Out, src, dst, emitterKernel E⟩ (s, sends) f)
    (hroom : ∀ o, (f (dst o)).queue.length < depth (dst o)) :
    sends = [] ∧ (f (src ())).queue = [] := by
  rcases emitter_still h with hrests | ⟨o, b, rest, -, hfull⟩
  · exact hrests
  · exact absurd (hroom o) (not_lt.mpr hfull)

end Network

section Emitters

variable {Out : Type} {β : Out → Type} [DecidableEq Out] {a : Type}

/-- A kernel that answers every word with one word. -/
def mapEmitter {b : Type} (f : a → b) : Emitter a fun _ : Unit => b where
  σ := Unit
  start := ()
  answer _ x := ((), [⟨(), f x⟩])

theorem sentTo_mapEmitter {b : Type} (f : a → b) (xs : List a) :
    sentTo () ((mapEmitter f).answers () xs) = xs.map f := by
  induction xs with
  | nil => rfl
  | cons x xs ih =>
      show sentTo () (⟨(), f x⟩ :: (mapEmitter f).answers () xs) = _
      rw [sentTo_self, ih, List.map_cons]

/-- One word for every output of a list. -/
theorem sentTo_map_mk {o : Out} (f : ∀ o, β o) {l : List Out} (hl : l.Nodup) (ho : o ∈ l) :
    sentTo o (l.map fun o => (⟨o, f o⟩ : Send β)) = [f o] := by
  have hnone : ∀ m : List Out, o ∉ m → sentTo o (m.map fun o => (⟨o, f o⟩ : Send β)) = [] := by
    intro m hm
    induction m with
    | nil => rfl
    | cons o' m ih =>
        rw [List.map_cons, sentTo_of_ne (List.ne_of_not_mem_cons hm).symm]
        exact ih (List.not_mem_of_not_mem_cons hm)
  induction l with
  | nil => cases ho
  | cons o' l ih =>
      obtain ⟨hnot, hnodup⟩ := List.nodup_cons.mp hl
      rw [List.map_cons]
      by_cases h : o' = o
      · subst h
        rw [sentTo_self, hnone l hnot]
      · rw [sentTo_of_ne h]
        exact ih hnodup ((List.mem_cons.mp ho).resolve_left (Ne.symm h))

/-- What is still to be sent belongs to the answer to one word. -/
theorem emitter_pending (E : Emitter a β) {r : E.σ × List (Send β)}
    {R : Unit → List a} {S : ∀ o, List (β o)}
    (hp : (emitterKernel E).Path (emitterKernel E).start r R S) :
    r.2 = [] ∨ ∃ s x, r.2 <:+ (E.answer s x).2 := by
  refine hp.induct (I := fun (r : E.σ × List (Send β)) _ _ =>
    r.2 = [] ∨ ∃ s x, r.2 <:+ (E.answer s x).2) (.inl rfl) ?_
  rintro ⟨s, sends⟩ R S h
  rcases sends with _ | ⟨⟨o, b⟩, rest⟩
  · exact ⟨.inl rfl, fun x => .inr ⟨s, x, List.suffix_rfl⟩⟩
  · rcases h with hnil | ⟨s', x, hsuffix⟩
    · cases hnil
    · exact .inr ⟨s', x, (List.suffix_cons _ _).trans hsuffix⟩

end Emitters

end RidgeWalker.Dataflow
