import RidgeWalker.Dataflow.Network

/-!
# Conservation of what the streams carry

Every word on a stream carries some amount, for example the multiset of packets
inside it, and every kernel holds some amount in its registers.  When every single
operation of every kernel balances, the amount inside the network changes only by
what the surroundings put in or take out.

Main results:

- Theorem `Kernel.Balanced.path`: along a path a balanced kernel holds and has sent what
  it has received.
- Theorem `Network.Reachable.balance`: the same for all kernels of a network together.
- Theorem `Network.Step.fire_balance`: the amount inside changes in a firing by what
  the firing itself creates or destroys.
- Theorem `Network.Run.total`: in a network of balanced kernels the amount inside,
  plus what left, is the initial amount plus what entered.
-/

namespace RidgeWalker.Dataflow

variable {M : Type} [AddCancelCommMonoid M]

/-! ## Balanced kernels -/

section Kernels

variable {In Out : Type} {α : In → Type} {β : Out → Type}

/-- The amount that an event brings into a kernel. -/
def Event.amountIn {Ω : Type} (tin : ∀ i, α i → M) : Event α β Ω → M
  | .read i a => tin i a
  | _ => 0

/-- The amount that an event sends out of a kernel. -/
def Event.amountOut {Ω : Type} (tout : ∀ o, β o → M) : Event α β Ω → M
  | .write o b => tout o b
  | _ => 0

/-- Whether an operation started with amount `h` in the registers balances. -/
def Op.Balanced {Ω σ : Type} (tin : ∀ i, α i → M) (tout : ∀ o, β o → M) (held : σ → M) (h : M) :
    Op α β Ω σ → Prop
  | .read i k => ∀ a, held (k a) = h + tin i a
  | .readNb i k => held (k none) = h ∧ ∀ a, held (k (some a)) = h + tin i a
  | .look k => ∀ e f, held (k e f) = h
  | .write o b k => held k + tout o b = h
  | .writeNb o b k => held (k false) = h ∧ held (k true) + tout o b = h
  | .choose k => ∀ w, held (k w) = h
  | .halt => True

/-- Every operation of the kernel balances. -/
def Kernel.Balanced (K : Kernel α β) (tin : ∀ i, α i → M) (tout : ∀ o, β o → M)
    (held : K.σ → M) : Prop :=
  ∀ r, (K.op r).Balanced tin tout held (held r)

/-- A balanced kernel holds after an event what it held before, plus what came in,
minus what went out. -/
theorem Kernel.Balanced.local {K : Kernel α β} {tin : ∀ i, α i → M} {tout : ∀ o, β o → M}
    {held : K.σ → M} (hK : K.Balanced tin tout held) {r r' e} (hl : K.Local r e r') :
    held r' + e.amountOut tout = held r + e.amountIn tin := by
  have hop := hK r
  cases hl with
  | read h a => rw [h] at hop; simpa [Event.amountIn, Event.amountOut] using hop a
  | readNb h a => rw [h] at hop; simpa [Event.amountIn, Event.amountOut] using hop.2 a
  | readNone h => rw [h] at hop; simpa [Event.amountIn, Event.amountOut] using hop.1
  | look h e f => rw [h] at hop; simpa [Event.amountIn, Event.amountOut] using hop e f
  | write h =>
      rw [h] at hop
      have hop : held r' + tout _ _ = held r := hop
      simpa [Event.amountIn, Event.amountOut] using hop
  | writeNb h => rw [h] at hop; simpa [Event.amountIn, Event.amountOut] using hop.2
  | writeFail h => rw [h] at hop; simpa [Event.amountIn, Event.amountOut] using hop.1
  | choose h w => rw [h] at hop; simpa [Event.amountIn, Event.amountOut] using hop w

/-- The amount carried by a list of words. -/
def amount {A : Type} (tok : A → M) (l : List A) : M := (l.map tok).sum

@[simp] theorem amount_nil {A : Type} (tok : A → M) : amount tok [] = 0 := rfl

@[simp] theorem amount_append {A : Type} (tok : A → M) (l l' : List A) :
    amount tok (l ++ l') = amount tok l + amount tok l' := by
  simp [amount]

@[simp] theorem amount_singleton {A : Type} (tok : A → M) (a : A) : amount tok [a] = tok a := by
  simp [amount]

theorem sum_amount_snoc {ι : Type} [Fintype ι] [DecidableEq ι] {A : ι → Type}
    (tok : ∀ i, A i → M) (L : ∀ i, List (A i)) (i : ι) (a : A i) :
    ∑ x, amount (tok x) (Function.update L i (L i ++ [a]) x) =
      (∑ x, amount (tok x) (L x)) + tok i a := by
  rw [← Finset.add_sum_erase _ _ (Finset.mem_univ i),
    ← Finset.add_sum_erase Finset.univ (fun x => amount (tok x) (L x)) (Finset.mem_univ i)]
  have hrest : ∑ x ∈ Finset.univ.erase i, amount (tok x) (Function.update L i (L i ++ [a]) x) =
      ∑ x ∈ Finset.univ.erase i, amount (tok x) (L x) :=
    Finset.sum_congr rfl fun x hx => by rw [Function.update_of_ne (Finset.ne_of_mem_erase hx)]
  rw [hrest, Function.update_self, amount_append, amount_singleton]
  abel

/-- Along a path a balanced kernel holds and has sent what it held and has received. -/
theorem Kernel.Balanced.path [Fintype In] [Fintype Out] [DecidableEq In] [DecidableEq Out]
    {K : Kernel α β} {tin : ∀ i, α i → M} {tout : ∀ o, β o → M} {held : K.σ → M}
    (hK : K.Balanced tin tout held) {r₀ r R S} (hp : K.Path r₀ r R S) :
    held r + ∑ o, amount (tout o) (S o) = held r₀ + ∑ i, amount (tin i) (R i) := by
  induction hp with
  | refl => simp
  | @step r R S e r' _ hl ih =>
      have hbal := hK.local hl
      have hR : ∑ i, amount (tin i) (e.received R i) =
          (∑ i, amount (tin i) (R i)) + e.amountIn tin := by
        cases e <;> simp [Event.received, Event.amountIn, sum_amount_snoc]
      have hS : ∑ o, amount (tout o) (e.sent S o) =
          (∑ o, amount (tout o) (S o)) + e.amountOut tout := by
        cases e <;> simp [Event.sent, Event.amountOut, sum_amount_snoc]
      rw [hR, hS]
      calc held r' + ((∑ o, amount (tout o) (S o)) + e.amountOut tout)
          = (held r' + e.amountOut tout) + ∑ o, amount (tout o) (S o) := by abel
        _ = (held r + ∑ o, amount (tout o) (S o)) + e.amountIn tin := by rw [hbal]; abel
        _ = held r₀ + ((∑ i, amount (tin i) (R i)) + e.amountIn tin) := by rw [ih]; abel

end Kernels

namespace Network

variable {P S : Type} {C : S → Type} {word : S → Type} [Fintype P]

/-- All balanced kernels of a network together hold and have sent what they have
received. -/
theorem Reachable.balance [DecidableEq P] [DecidableEq S] [∀ s, DecidableEq (C s)]
    {N : Network P C word} (hN : N.PointToPoint) (tok : ∀ c : Chan C, word c.1 → M)
    {held : ∀ p, (N.node p).kernel.σ → M}
    (hbal : ∀ p, (N.node p).kernel.Balanced (fun i => tok ((N.node p).src i))
      (fun o => tok ((N.node p).dst o)) (held p))
    (hstart : ∀ p, held p (N.node p).kernel.start = 0)
    {s : N.State} (hs : N.Reachable s) :
    (∑ p, held p (s.regs p)) +
        ((∑ p, (N.node p).outputs).map fun c => amount (tok c) (s.written c)).sum =
      ((∑ p, (N.node p).inputs).map fun c => amount (tok c) (s.taken c)).sum := by
  have hnode : ∀ p, held p (s.regs p) +
      ((N.node p).outputs.map fun c => amount (tok c) (s.written c)).sum =
        ((N.node p).inputs.map fun c => amount (tok c) (s.taken c)).sum := by
    intro p
    have hpath := (hbal p).path (hs.path hN p)
    rw [hstart, zero_add] at hpath
    rw [Call.outputs, Call.inputs, Multiset.map_map, Multiset.map_map]
    exact hpath
  have hmap : ∀ (g : P → Multiset (Chan C)) (h : Chan C → M),
      ((∑ p, g p).map h).sum = ∑ p, ((g p).map h).sum := by
    intro g h
    exact map_sum ((Multiset.sumAddMonoidHom).comp (Multiset.mapAddMonoidHom h)) g Finset.univ
  rw [hmap, hmap, ← Finset.sum_add_distrib]
  exact Finset.sum_congr rfl fun p _ => hnode p

/-! ## The amount inside a network -/

variable [Fintype (Chan C)]

/-- The amount carried by the words queued in all streams. -/
def queued (tok : ∀ c : Chan C, word c.1 → M) (f : Fifos C word) : M :=
  ∑ c, ((f c).queue.map (tok c)).sum

/-- The amount in the streams and in the registers. -/
def total {N : Network P C word} (tok : ∀ c : Chan C, word c.1 → M)
    (held : ∀ p, (N.node p).kernel.σ → M) (s : N.State) : M :=
  queued tok s.fifo + ∑ p, held p (s.regs p)

/-- The amount in one stream or in the registers of one kernel. -/
def inside {N : Network P C word} (tok : ∀ c : Chan C, word c.1 → M)
    (held : ∀ p, (N.node p).kernel.σ → M) (s : N.State) : Chan C ⊕ P → M
  | .inl c => amount (tok c) (s.fifo c).queue
  | .inr p => held p (s.regs p)

theorem sum_inside {N : Network P C word} (tok : ∀ c : Chan C, word c.1 → M)
    (held : ∀ p, (N.node p).kernel.σ → M) (s : N.State) :
    ∑ pl, inside tok held s pl = total tok held s :=
  Fintype.sum_sum_type _

/-- A network whose kernels start with empty registers starts empty. -/
theorem total_init {N : Network P C word} (tok : ∀ c : Chan C, word c.1 → M)
    {held : ∀ p, (N.node p).kernel.σ → M} (h : ∀ p, held p (N.node p).kernel.start = 0) :
    total tok held N.init = 0 := by
  simp [total, queued, init, Fifo.empty, h]

/-- What a step put into the network from the surroundings. -/
def Label.entered {N : Network P C word} (tok : ∀ c : Chan C, word c.1 → M) : N.Label → M
  | .put c a => tok c a
  | _ => 0

/-- What a step took out of the network. -/
def Label.left {N : Network P C word} (tok : ∀ c : Chan C, word c.1 → M) : N.Label → M
  | .take c a => tok c a
  | _ => 0

section

variable [DecidableEq P] [DecidableEq S] [∀ s, DecidableEq (C s)]

theorem queued_update (tok : ∀ c : Chan C, word c.1 → M) (f : Fifos C word) (c : Chan C)
    (g : Fifo (word c.1)) :
    queued tok (Function.update f c g) + ((f c).queue.map (tok c)).sum =
      queued tok f + (g.queue.map (tok c)).sum := by
  have hsplit : ∀ h : Fifos C word, queued tok h =
      ((h c).queue.map (tok c)).sum +
        ∑ x ∈ Finset.univ.erase c, ((h x).queue.map (tok x)).sum :=
    fun h => (Finset.add_sum_erase _ _ (Finset.mem_univ c)).symm
  have hrest : ∑ x ∈ Finset.univ.erase c, ((Function.update f c g x).queue.map (tok x)).sum =
      ∑ x ∈ Finset.univ.erase c, ((f x).queue.map (tok x)).sum :=
    Finset.sum_congr rfl fun x hx => by rw [Function.update_of_ne (Finset.ne_of_mem_erase hx)]
  rw [hsplit (Function.update f c g), hsplit f, hrest, Function.update_self]
  abel

theorem queued_push (tok : ∀ c : Chan C, word c.1 → M) (f : Fifos C word) (c : Chan C)
    (a : word c.1) :
    queued tok (Function.update f c ((f c).push a)) = queued tok f + tok c a := by
  have h := queued_update tok f c ((f c).push a)
  simp only [Fifo.push_queue, List.map_append, List.sum_append, List.map_cons, List.map_nil,
    List.sum_singleton] at h
  rw [add_comm ((f c).queue.map (tok c)).sum, ← add_assoc] at h
  exact add_right_cancel h

theorem queued_pop (tok : ∀ c : Chan C, word c.1 → M) {f : Fifos C word} {c : Chan C}
    {a : word c.1} {q : List (word c.1)} (hq : (f c).queue = a :: q) :
    queued tok (Function.update f c (f c).pop) + tok c a = queued tok f := by
  have h := queued_update tok f c (f c).pop
  rw [Fifo.pop_queue hq, hq, List.map_cons, List.sum_cons, ← add_assoc] at h
  exact add_right_cancel h

/-- The streams lose what an event brings into its kernel and gain what it sends. -/
theorem Effect.queued {depth : Chan C → ℕ} {k : Call C word} {f f' : Fifos C word} {e}
    (he : Effect depth k f e f') (tok : ∀ c : Chan C, word c.1 → M) :
    Network.queued tok f' + e.amountIn (fun i => tok (k.src i)) =
      Network.queued tok f + e.amountOut (fun o => tok (k.dst o)) := by
  cases he with
  | read h => simpa [Event.amountIn, Event.amountOut] using queued_pop tok h
  | write h => simpa [Event.amountIn, Event.amountOut] using queued_push tok f _ _
  | _ => rfl

/-- A firing changes the amount inside by the difference between what its kernel held
before and after, corrected by what it received and sent. -/
theorem Step.fire_balance {N : Network P C word} (tok : ∀ c : Chan C, word c.1 → M)
    (held : ∀ p, (N.node p).kernel.σ → M) {s s' : N.State} {p r e}
    (hs : N.Step s (.fire p r e) s') :
    r = s.regs p ∧ (N.node p).kernel.Local r e (s'.regs p) ∧
      total tok held s' + (held p r + e.amountIn (fun i => tok ((N.node p).src i))) =
        total tok held s +
          (held p (s'.regs p) + e.amountOut (fun o => tok ((N.node p).dst o))) := by
  cases hs with
  | @fire _ _ r' f' hl he =>
      refine ⟨rfl, by simpa using hl, ?_⟩
      have hq := he.queued tok
      have hregs : (∑ x, held x (Function.update s.regs p r' x)) + held p (s.regs p) =
          (∑ x, held x (s.regs x)) + held p r' := by
        rw [← Finset.add_sum_erase _ _ (Finset.mem_univ p),
          ← Finset.add_sum_erase Finset.univ (fun x => held x (s.regs x)) (Finset.mem_univ p),
          Function.update_self]
        have hrest : ∑ x ∈ Finset.univ.erase p, held x (Function.update s.regs p r' x) =
            ∑ x ∈ Finset.univ.erase p, held x (s.regs x) :=
          Finset.sum_congr rfl fun x hx => by
            rw [Function.update_of_ne (Finset.ne_of_mem_erase hx)]
        rw [hrest]
        abel
      simp only [total, Function.update_self]
      calc Network.queued tok f' + ∑ x, held x (Function.update s.regs p r' x) +
            (held p (s.regs p) + e.amountIn fun i => tok ((N.node p).src i))
          = (Network.queued tok f' + e.amountIn fun i => tok ((N.node p).src i)) +
              ((∑ x, held x (Function.update s.regs p r' x)) + held p (s.regs p)) := by abel
        _ = (Network.queued tok s.fifo + e.amountOut fun o => tok ((N.node p).dst o)) +
              ((∑ x, held x (s.regs x)) + held p r') := by rw [hq, hregs]
        _ = _ := by abel

/-- When a kernel balances with the amounts `gain` for its inputs, a firing takes the words
read out of the network and puts what they gain into it. -/
theorem Step.exchange {N : Network P C word} {tok : ∀ c : Chan C, word c.1 → M}
    {held : ∀ p, (N.node p).kernel.σ → M} {p : P} {gain : ∀ i, word ((N.node p).src i).1 → M}
    (hp : (N.node p).kernel.Balanced gain (fun o => tok ((N.node p).dst o)) (held p))
    {s s' : N.State} {r e} (hs : N.Step s (.fire p r e) s') :
    Network.total tok held s' + e.amountIn (fun i => tok ((N.node p).src i)) =
      Network.total tok held s + e.amountIn gain := by
  obtain ⟨-, hl, hb⟩ := hs.fire_balance tok held
  rw [hp.local hl, add_left_comm, add_left_comm (Network.total tok held s)] at hb
  exact add_left_cancel hb

/-- One step of a network of balanced kernels. -/
theorem Step.total {N : Network P C word} {tok : ∀ c : Chan C, word c.1 → M}
    {held : ∀ p, (N.node p).kernel.σ → M}
    (hN : ∀ p, (N.node p).kernel.Balanced (fun i => tok ((N.node p).src i))
      (fun o => tok ((N.node p).dst o)) (held p))
    {s s' : N.State} {l : N.Label} (hs : N.Step s l s') :
    Network.total tok held s' + l.left tok = Network.total tok held s + l.entered tok := by
  cases l with
  | fire p r e =>
      have hx := hs.exchange (hN p)
      simpa [Label.left, Label.entered] using add_right_cancel hx
  | put c a =>
      cases hs with
      | put hw hd =>
          simp only [Network.total, Label.left, Label.entered, queued_push]
          abel
  | take c a =>
      cases hs with
      | take hr hq =>
          simp only [Network.total, Label.left, Label.entered]
          rw [← queued_pop tok hq]
          abel

/-- In a network of balanced kernels the amount inside, plus what left, is the initial
amount plus what entered. -/
theorem Run.total {N : Network P C word} {tok : ∀ c : Chan C, word c.1 → M}
    {held : ∀ p, (N.node p).kernel.σ → M}
    (hN : ∀ p, (N.node p).kernel.Balanced (fun i => tok ((N.node p).src i))
      (fun o => tok ((N.node p).dst o)) (held p))
    {s₀ s : N.State} {tr : List N.Label} (hr : N.Run s₀ tr s) :
    Network.total tok held s + (tr.map (Label.left tok)).sum =
      Network.total tok held s₀ + (tr.map (Label.entered tok)).sum := by
  induction hr with
  | nil => rfl
  | @snoc tr s l s' _ hs ih =>
      have hstep := hs.total hN
      simp only [List.map_append, List.map_cons, List.map_nil, List.sum_append,
        List.sum_singleton]
      calc Network.total tok held s' + ((tr.map (Label.left tok)).sum + l.left tok)
          = (Network.total tok held s' + l.left tok) + (tr.map (Label.left tok)).sum := by abel
        _ = (Network.total tok held s + l.entered tok) + (tr.map (Label.left tok)).sum := by
            rw [hstep]
        _ = (Network.total tok held s + (tr.map (Label.left tok)).sum) + l.entered tok := by abel
        _ = (Network.total tok held s₀ + (tr.map (Label.entered tok)).sum) + l.entered tok := by
            rw [ih]
        _ = _ := by abel

end

end Network

end RidgeWalker.Dataflow
