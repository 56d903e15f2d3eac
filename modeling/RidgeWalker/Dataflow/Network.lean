import RidgeWalker.Dataflow.Kernel

/-!
# Networks of kernels over bounded streams

A network binds the ports of finitely many kernels to streams.  Every stream is a
bounded first-in first-out queue that also remembers the words already read from
it, so that its whole history can be named in a state.  Kernels run in any
interleaving, one stream operation at a time; streams without a writer are fed by
the surroundings and streams without a reader are drained by them.

Main results:

- Theorem `Network.Run.path`: in a network where no stream has two readers or two
  writers, every run moves each kernel along one of its own paths, and the words
  that path receives and sends are exactly what the run added to the histories of
  the streams bound to its ports.
- Theorem `Network.Reachable.path`: the same from the initial state.
-/

namespace RidgeWalker.Dataflow

/-! ## Bounded streams -/

/-- A stream: the words already read from it and the words still queued. -/
structure Fifo (α : Type) where
  taken : List α
  queue : List α

namespace Fifo

variable {α : Type}

/-- Every word ever written, oldest first. -/
def written (f : Fifo α) : List α := f.taken ++ f.queue

/-- A stream nothing was written to. -/
def empty : Fifo α := ⟨[], []⟩

/-- Append one word. -/
def push (f : Fifo α) (a : α) : Fifo α := { f with queue := f.queue ++ [a] }

/-- Hand the oldest queued word to the reader. -/
def pop (f : Fifo α) : Fifo α := ⟨f.taken ++ f.queue.take 1, f.queue.tail⟩

@[simp] theorem push_taken (f : Fifo α) (a : α) : (f.push a).taken = f.taken := rfl

@[simp] theorem push_queue (f : Fifo α) (a : α) : (f.push a).queue = f.queue ++ [a] := rfl

@[simp] theorem push_written (f : Fifo α) (a : α) : (f.push a).written = f.written ++ [a] := by
  simp [written, push]

/-- Reading does not change the history of writes. -/
@[simp] theorem pop_written (f : Fifo α) : f.pop.written = f.written := by
  cases h : f.queue <;> simp [written, pop, h]

theorem pop_taken {f : Fifo α} {a : α} {q : List α} (h : f.queue = a :: q) :
    f.pop.taken = f.taken ++ [a] := by
  simp [pop, h]

theorem pop_queue {f : Fifo α} {a : α} {q : List α} (h : f.queue = a :: q) :
    f.pop.queue = q := by
  simp [pop, h]

/-- What has been read is a prefix of what was written. -/
theorem taken_isPrefix (f : Fifo α) : f.taken <+: f.written := List.prefix_append _ _

end Fifo

/-! ## Kernel calls and networks -/

/-- The streams of a system whose streams of sort `s` are named by `C s`. -/
abbrev Chan {S : Type} (C : S → Type) : Type := Σ s, C s

/-- A kernel together with the streams bound to its ports. -/
structure Call {S : Type} (C : S → Type) (word : S → Type) where
  In : Type
  Out : Type
  [finIn : Fintype In]
  [finOut : Fintype Out]
  [decIn : DecidableEq In]
  [decOut : DecidableEq Out]
  src : In → Chan C
  dst : Out → Chan C
  kernel : Kernel (fun i => word (src i).1) (fun o => word (dst o).1)

attribute [instance] Call.finIn Call.finOut Call.decIn Call.decOut

/-- One list of words for every stream. -/
abbrev Histories {S : Type} (C : S → Type) (word : S → Type) : Type :=
  ∀ c : Chan C, List (word c.1)

namespace Call

variable {S : Type} {C : S → Type} {word : S → Type}

/-- The call can have read `T` and written `W` since it was started. -/
def Ran (k : Call C word) (T W : Histories C word) : Prop :=
  ∃ r, k.kernel.Path k.kernel.start r (fun i => T (k.src i)) (fun o => W (k.dst o))

/-- The streams the call reads. -/
def inputs (k : Call C word) : Multiset (Chan C) := Finset.univ.val.map k.src

/-- The streams the call writes. -/
def outputs (k : Call C word) : Multiset (Chan C) := Finset.univ.val.map k.dst

end Call

/-- A dataflow region: calls indexed by `P` and a capacity for every stream. -/
structure Network (P : Type) {S : Type} (C : S → Type) (word : S → Type) where
  node : P → Call C word
  depth : Chan C → ℕ

namespace Network

variable {P S : Type} {C : S → Type} {word : S → Type}

/-- The contents of all streams. -/
abbrev Fifos (C : S → Type) (word : S → Type) : Type := ∀ c : Chan C, Fifo (word c.1)

/-- Registers of all kernels and contents of all streams. -/
structure State (N : Network P C word) where
  regs : ∀ p, (N.node p).kernel.σ
  fifo : Fifos C word

/-- Every kernel freshly started, every stream empty. -/
def init (N : Network P C word) : N.State where
  regs p := (N.node p).kernel.start
  fifo _ := Fifo.empty

/-- What a step of the network did: a kernel fired from some registers, or the
surroundings wrote or read a stream. -/
inductive Label (N : Network P C word) where
  | fire (p : P) (r : (N.node p).kernel.σ)
      (e : Event (fun i => word ((N.node p).src i).1) (fun o => word ((N.node p).dst o).1)
        (N.node p).kernel.Ω)
  | put (c : Chan C) (a : word c.1)
  | take (c : Chan C) (a : word c.1)

section Steps

variable [DecidableEq P] [DecidableEq S] [∀ s, DecidableEq (C s)]

/-- The effect of one event of a call on the streams: reads need a queued word, and
blocking writes need room. -/
inductive Effect (depth : Chan C → ℕ) (k : Call C word) (f : Fifos C word) :
    Event (fun i => word (k.src i).1) (fun o => word (k.dst o).1) k.kernel.Ω →
      Fifos C word → Prop where
  | read {i a q} (h : (f (k.src i)).queue = a :: q) :
      Effect depth k f (.read i a) (Function.update f (k.src i) (f (k.src i)).pop)
  | readNone {i} (h : (f (k.src i)).queue = []) : Effect depth k f (.readNone i) f
  | look : Effect depth k f
      (.look (fun i => (f (k.src i)).queue.isEmpty)
        (fun o => decide (depth (k.dst o) ≤ (f (k.dst o)).queue.length))) f
  | write {o b} (h : (f (k.dst o)).queue.length < depth (k.dst o)) :
      Effect depth k f (.write o b) (Function.update f (k.dst o) ((f (k.dst o)).push b))
  | writeFail {o} (h : depth (k.dst o) ≤ (f (k.dst o)).queue.length) :
      Effect depth k f (.writeFail o) f
  | choose {w} : Effect depth k f (.choose w) f

/-- One step of the network. -/
inductive Step (N : Network P C word) (s : N.State) : N.Label → N.State → Prop where
  | fire {p e r f} (hl : (N.node p).kernel.Local (s.regs p) e r)
      (he : Effect N.depth (N.node p) s.fifo e f) :
      Step N s (.fire p (s.regs p) e) ⟨Function.update s.regs p r, f⟩
  | put {c a} (hw : ∀ p o, (N.node p).dst o ≠ c)
      (h : (s.fifo c).queue.length < N.depth c) :
      Step N s (.put c a) { s with fifo := Function.update s.fifo c ((s.fifo c).push a) }
  | take {c a q} (hr : ∀ p i, (N.node p).src i ≠ c) (h : (s.fifo c).queue = a :: q) :
      Step N s (.take c a) { s with fifo := Function.update s.fifo c (s.fifo c).pop }

/-- A firing replaces the registers of its kernel and no others. -/
theorem Step.fire_regs {N : Network P C word} {s s' : N.State} {p r e}
    (hs : N.Step s (.fire p r e) s') :
    r = s.regs p ∧ ∃ r', (N.node p).kernel.Local r e r' ∧ s'.regs = Function.update s.regs p r' := by
  cases hs with
  | fire hl _ => exact ⟨rfl, _, hl, rfl⟩

/-- A firing is an operation of its kernel with its effect on the streams. -/
theorem Step.fire_effect {N : Network P C word} {s s' : N.State} {p r e}
    (hs : N.Step s (.fire p r e) s') :
    r = s.regs p ∧ (N.node p).kernel.Local r e (s'.regs p) ∧
      Effect N.depth (N.node p) s.fifo e s'.fifo := by
  cases hs with
  | fire hl he => exact ⟨rfl, by simpa using hl, he⟩

/-- The surroundings do not touch registers. -/
theorem Step.put_regs {N : Network P C word} {s s' : N.State} {c a}
    (hs : N.Step s (.put c a) s') : s'.regs = s.regs := by
  cases hs with
  | put _ _ => rfl

theorem Step.take_regs {N : Network P C word} {s s' : N.State} {c a}
    (hs : N.Step s (.take c a) s') : s'.regs = s.regs := by
  cases hs with
  | take _ _ => rfl

/-- A run and the list of what its steps did. -/
inductive Run (N : Network P C word) (s₀ : N.State) : List N.Label → N.State → Prop where
  | nil : Run N s₀ [] s₀
  | snoc {tr s l s'} (hr : Run N s₀ tr s) (hs : N.Step s l s') : Run N s₀ (tr ++ [l]) s'

/-- A run whose steps all meet a condition on the state before the step and on what the
step does. -/
inductive GuardedRun (N : Network P C word) (ok : N.State → N.Label → Prop) (s₀ : N.State) :
    List N.Label → N.State → Prop where
  | nil : GuardedRun N ok s₀ [] s₀
  | snoc {tr s l s'} (hr : GuardedRun N ok s₀ tr s) (hok : ok s l) (hs : N.Step s l s') :
      GuardedRun N ok s₀ (tr ++ [l]) s'

/-- A run without its condition. -/
theorem GuardedRun.run {N : Network P C word} {ok : N.State → N.Label → Prop}
    {s₀ s : N.State} {tr : List N.Label} (hr : N.GuardedRun ok s₀ tr s) : N.Run s₀ tr s := by
  induction hr with
  | nil => exact .nil
  | snoc _ _ hs ih => exact ih.snoc hs

/-- Reachable from the initial state. -/
def Reachable (N : Network P C word) (s : N.State) : Prop := ∃ tr, N.Run N.init tr s

end Steps

/-! ## One reader and one writer per stream -/

/-- No stream is bound to two input ports and none to two output ports. -/
structure PointToPoint (N : Network P C word) : Prop where
  src_inj : Function.Injective fun x : Σ p, (N.node p).In => (N.node x.1).src x.2
  dst_inj : Function.Injective fun x : Σ p, (N.node p).Out => (N.node x.1).dst x.2

namespace PointToPoint

variable {N : Network P C word}

theorem src_ne (h : N.PointToPoint) {p q : P} (hpq : p ≠ q)
    (i : (N.node p).In) (j : (N.node q).In) : (N.node p).src i ≠ (N.node q).src j :=
  fun he => hpq (congrArg Sigma.fst (@h.src_inj ⟨p, i⟩ ⟨q, j⟩ he))

theorem dst_ne (h : N.PointToPoint) {p q : P} (hpq : p ≠ q)
    (i : (N.node p).Out) (j : (N.node q).Out) : (N.node p).dst i ≠ (N.node q).dst j :=
  fun he => hpq (congrArg Sigma.fst (@h.dst_inj ⟨p, i⟩ ⟨q, j⟩ he))

theorem src_port (h : N.PointToPoint) (p : P) : Function.Injective (N.node p).src :=
  fun _ _ he => eq_of_heq (Sigma.mk.inj (@h.src_inj ⟨p, _⟩ ⟨p, _⟩ he)).2

theorem dst_port (h : N.PointToPoint) (p : P) : Function.Injective (N.node p).dst :=
  fun _ _ he => eq_of_heq (Sigma.mk.inj (@h.dst_inj ⟨p, _⟩ ⟨p, _⟩ he)).2

end PointToPoint

/-- A family of multisets whose union has no repetition binds every stream once. -/
theorem injective_of_nodup_bind {ι A : Type} [Fintype ι] {κ : ι → Type} [∀ i, Fintype (κ i)]
    (g : ∀ i, κ i → A)
    (h : (Finset.univ.val.bind fun i => (Finset.univ : Finset (κ i)).val.map (g i)).Nodup) :
    Function.Injective fun x : Σ i, κ i => g x.1 x.2 := by
  rw [Multiset.nodup_bind] at h
  rintro ⟨i, x⟩ ⟨j, y⟩ (he : g i x = g j y)
  by_cases hij : i = j
  · subst hij
    have hinj := Multiset.inj_on_of_nodup_map (h.1 i (Finset.mem_univ_val i))
    have hxy := hinj x (Finset.mem_univ_val x) y (Finset.mem_univ_val y) he
    rw [hxy]
  · have hne := h.2.forall (Finset.mem_univ_val i) (Finset.mem_univ_val j) hij
    have hx : g i x ∈ (Finset.univ : Finset (κ i)).val.map (g i) :=
      Multiset.mem_map_of_mem _ (Finset.mem_univ_val x)
    have hy : g i x ∈ (Finset.univ : Finset (κ j)).val.map (g j) :=
      he ▸ Multiset.mem_map_of_mem _ (Finset.mem_univ_val y)
    exact absurd hy (Multiset.disjoint_left.mp hne hx)

/-- Point-to-point wiring from the lists of streams that the calls read and write. -/
theorem PointToPoint.of_nodup [Fintype P] {N : Network P C word}
    (hr : (∑ p, (N.node p).inputs).Nodup) (hw : (∑ p, (N.node p).outputs).Nodup) :
    N.PointToPoint :=
  ⟨injective_of_nodup_bind (fun p => (N.node p).src) hr,
    injective_of_nodup_bind (fun p => (N.node p).dst) hw⟩

/-! ## Runs move kernels along their own paths -/

section Runs

variable [DecidableEq P] [DecidableEq S] [∀ s, DecidableEq (C s)]

/-- An event only reads streams bound to the input ports of its call. -/
theorem Effect.taken_of_not_src {depth : Chan C → ℕ} {k : Call C word} {f f' : Fifos C word} {e}
    (he : Effect depth k f e f') {c : Chan C} (hc : ∀ i, k.src i ≠ c) :
    (f' c).taken = (f c).taken := by
  cases he with
  | read h => rw [Function.update_of_ne (hc _).symm]
  | @write o b h =>
      by_cases ho : c = k.dst o
      · subst ho
        simp
      · rw [Function.update_of_ne ho]
  | _ => rfl

/-- An event only writes streams bound to the output ports of its call. -/
theorem Effect.written_of_not_dst {depth : Chan C → ℕ} {k : Call C word} {f f' : Fifos C word} {e}
    (he : Effect depth k f e f') {c : Chan C} (hc : ∀ o, k.dst o ≠ c) :
    (f' c).written = (f c).written := by
  cases he with
  | @read i a q h =>
      by_cases hi : c = k.src i
      · subst hi
        simp
      · rw [Function.update_of_ne hi]
  | write h => rw [Function.update_of_ne (hc _).symm]
  | _ => rfl

/-- The read histories of the input ports grow by what the event received. -/
theorem Effect.taken_src {depth : Chan C → ℕ} {k : Call C word} (hk : Function.Injective k.src)
    {f f' : Fifos C word} {e} (he : Effect depth k f e f') (i : k.In)
    {R : ∀ i, List (word (k.src i).1)} {t : List (word (k.src i).1)}
    (h : (f (k.src i)).taken = t ++ R i) :
    (f' (k.src i)).taken = t ++ e.received R i := by
  cases he with
  | @read j a q hq =>
      by_cases hij : i = j
      · subst hij
        simp [Event.received, Fifo.pop_taken hq, h]
      · have hne : k.src i ≠ k.src j := fun he => hij (hk he)
        simp [Event.received, Function.update_of_ne hij, Function.update_of_ne hne, h]
  | @write o b hw =>
      by_cases ho : k.src i = k.dst o
      · simp only [Event.received]
        rw [← h, ho]
        simp
      · simp [Event.received, Function.update_of_ne ho, h]
  | _ => exact h

/-- The write histories of the output ports grow by what the event sent. -/
theorem Effect.written_dst {depth : Chan C → ℕ} {k : Call C word} (hk : Function.Injective k.dst)
    {f f' : Fifos C word} {e} (he : Effect depth k f e f') (o : k.Out)
    {S : ∀ o, List (word (k.dst o).1)} {w : List (word (k.dst o).1)}
    (h : (f (k.dst o)).written = w ++ S o) :
    (f' (k.dst o)).written = w ++ e.sent S o := by
  cases he with
  | @read i a q hq =>
      by_cases hi : k.dst o = k.src i
      · simp only [Event.sent]
        rw [← h, hi]
        simp
      · simp [Event.sent, Function.update_of_ne hi, h]
  | @write o' b hw =>
      by_cases hoo : o = o'
      · subst hoo
        simp [Event.sent, h]
      · have hne : k.dst o ≠ k.dst o' := fun he => hoo (hk he)
        simp [Event.sent, Function.update_of_ne hoo, Function.update_of_ne hne, h]
  | _ => exact h

/-- Kernel `p` got from `s₀` to `s` along one of its own paths, which received and
sent exactly what was added to the histories of its streams in between. -/
def Follows {N : Network P C word} (s₀ s : N.State) (p : P) : Prop :=
  ∃ R S, (N.node p).kernel.Path (s₀.regs p) (s.regs p) R S ∧
    (∀ i, (s.fifo ((N.node p).src i)).taken = (s₀.fifo ((N.node p).src i)).taken ++ R i) ∧
    ∀ o, (s.fifo ((N.node p).dst o)).written = (s₀.fifo ((N.node p).dst o)).written ++ S o

/-- One step of the network extends the path of the kernel that fired and leaves
the registers and histories of every other kernel alone. -/
theorem Step.follows {N : Network P C word} (hN : N.PointToPoint) {s₀ s s' : N.State}
    {l : N.Label} (hs : N.Step s l s') (p : P) (hp : Follows s₀ s p) : Follows s₀ s' p := by
  obtain ⟨R, S, hpath, hR, hS⟩ := hp
  cases hs with
  | @fire q e r f hl he =>
      by_cases hpq : p = q
      · subst hpq
        refine ⟨e.received R, e.sent S, ?_, ?_, ?_⟩
        · simpa using hpath.step hl
        · exact fun i => he.taken_src (hN.src_port p) i (hR i)
        · exact fun o => he.written_dst (hN.dst_port p) o (hS o)
      · refine ⟨R, S, ?_, ?_, ?_⟩
        · simpa [Function.update_of_ne hpq] using hpath
        · intro i
          rw [← hR i]
          exact he.taken_of_not_src fun j => hN.src_ne (Ne.symm hpq) j i
        · intro o
          rw [← hS o]
          exact he.written_of_not_dst fun j => hN.dst_ne (Ne.symm hpq) j o
  | @put c a hw _ =>
      refine ⟨R, S, hpath, ?_, ?_⟩
      · intro i
        by_cases hc : (N.node p).src i = c
        · subst hc
          simpa using hR i
        · simpa [Function.update_of_ne hc] using hR i
      · exact fun o => by simpa [Function.update_of_ne (hw p o)] using hS o
  | @take c a q hr _ =>
      refine ⟨R, S, hpath, ?_, ?_⟩
      · exact fun i => by simpa [Function.update_of_ne (hr p i)] using hR i
      · intro o
        by_cases hc : (N.node p).dst o = c
        · subst hc
          simpa using hS o
        · simpa [Function.update_of_ne hc] using hS o

/-- Every run moves every kernel along one of its own paths. -/
theorem Run.follows {N : Network P C word} (hN : N.PointToPoint) {s₀ s : N.State}
    {tr : List N.Label} (hr : N.Run s₀ tr s) (p : P) : Follows s₀ s p := by
  induction hr with
  | nil => exact ⟨_, _, .refl, by simp, by simp⟩
  | snoc _ hs ih => exact hs.follows hN p ih

/-- Every word read so far, stream by stream. -/
def State.taken {N : Network P C word} (s : N.State) : Histories C word :=
  fun c => (s.fifo c).taken

/-- Every word written so far, stream by stream. -/
def State.written {N : Network P C word} (s : N.State) : Histories C word :=
  fun c => (s.fifo c).written

/-- In a reachable state every kernel has followed a path from its start registers on
which it received all words read from its inputs and sent all words written to its
outputs. -/
theorem Reachable.path {N : Network P C word} (hN : N.PointToPoint) {s : N.State}
    (hs : N.Reachable s) (p : P) :
    (N.node p).kernel.Path (N.node p).kernel.start (s.regs p)
      (fun i => s.taken ((N.node p).src i)) (fun o => s.written ((N.node p).dst o)) := by
  obtain ⟨tr, hr⟩ := hs
  obtain ⟨R, S, hp, hR, hS⟩ := hr.follows hN p
  have hR' : (fun i => s.taken ((N.node p).src i)) = R := funext fun i => hR i
  have hS' : (fun o => s.written ((N.node p).dst o)) = S := funext fun o => hS o
  rw [hR', hS']
  exact hp

theorem Reachable.ran {N : Network P C word} (hN : N.PointToPoint) {s : N.State}
    (hs : N.Reachable s) (p : P) : (N.node p).Ran s.taken s.written :=
  ⟨s.regs p, hs.path hN p⟩

end Runs

end Network

end RidgeWalker.Dataflow
