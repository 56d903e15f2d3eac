import RidgeWalker.Switch.Switches

/-!
# Delivery by the butterfly switches

The switches of width 4, 8 and 16 as closed systems: their package kernels run in any
interleaving over streams of any capacity, the surroundings feed the inputs and drain the
outputs.

Main results:

- Theorem `Block.Wired.conserved`: what the switch has read from its inputs is inside it
  or was written to its outputs.
- Theorem `butterfly_delivery`: every accepted packet is in exactly one place, leaves
  unchanged on the output of its destination, and no packet overtakes another one of the
  same input and output.
-/

namespace RidgeWalker.Switch

open Dataflow

/-! ## A switch as a closed system -/

/-- The streams of a switch. -/
inductive Port (n : ℕ) (Inner : Type) where
  | input (i : Fin n)
  | output (j : Fin n)
  | inner (x : Inner)
deriving DecidableEq

/-- Where a package can be: on a stream inside, in the registers of a call, or on an
output. -/
abbrev Place (n : ℕ) (Inner Proc : Type) : Type := Inner ⊕ Proc ⊕ Fin n

section Closed

variable {w : Type} {n : ℕ} {Inner Proc : Type}

/-- The streams of a switch, all of one sort. -/
abbrev Ports (n : ℕ) (Inner : Type) : Unit → Type := fun _ => Port n Inner

/-- A block of package calls that carries items of type `w`. -/
abbrev Butterfly (w : Type) (n : ℕ) (Inner Proc : Type) : Type :=
  Block (Ports n Inner) (fun _ => w) () n Inner Proc

/-- The package calls of a switch on its own streams. -/
def Butterfly.calls (b : Butterfly w n Inner Proc) : Proc → PackageCall (Ports n Inner) (fun _ => w) () :=
  b .input .output .inner

/-- The network of all package calls of a switch. -/
def Butterfly.network (b : Butterfly w n Inner Proc) (depth : Chan (Ports n Inner) → ℕ) :
    Network Proc (Ports n Inner) (fun _ => w) where
  node p := (b.calls p).call
  depth := depth

variable {b : Butterfly w n Inner Proc} {depth : Chan (Ports n Inner) → ℕ}

/-- The packages at a place; an output keeps everything that was written to it. -/
def contents (s : (b.network depth).State) : Place n Inner Proc → Multiset w
  | .inl x => (s.fifo ⟨(), .inner x⟩).queue
  | .inr (.inl p) => (b.calls p).held (fun x : w => ({x} : Multiset w)) (s.regs p)
  | .inr (.inr j) => s.written ⟨(), .output j⟩

/-- The packages that the switch has read from its inputs. -/
def accepted (s : (b.network depth).State) : Multiset w :=
  ∑ i, (s.taken ⟨(), .input i⟩ : Multiset w)

/-! ## Wiring of the closed system -/

theorem map_sum_mk {A S : Type} [Fintype A] {C : S → Type} {s : S} (f : A → Multiset (C s)) :
    (∑ a, (f a).map (Sigma.mk s) : Multiset (Chan C)) = (∑ a, f a).map (Sigma.mk s) :=
  (map_sum (Multiset.mapAddMonoidHom (Sigma.mk s)) f Finset.univ).symm

/-- A sum of singletons lists a family. -/
theorem sum_singleton {A D : Type} [Fintype A] (f : A → D) :
    (∑ a, {f a} : Multiset D) = Finset.univ.val.map f := by
  rw [← Multiset.sum_map_singleton (Finset.univ.val.map f), Multiset.map_map]
  rfl

/-- Streams of two kinds, each named once. -/
theorem nodup_sum_singleton {A B D : Type} [Fintype A] [Fintype B] {f : A → D} {g : B → D}
    (hf : Function.Injective f) (hg : Function.Injective g) (hfg : ∀ a b, f a ≠ g b) :
    ((∑ a, {f a}) + ∑ b, {g b} : Multiset D).Nodup := by
  rw [sum_singleton, sum_singleton, Multiset.nodup_add]
  refine ⟨Finset.univ.nodup.map hf, Finset.univ.nodup.map hg, ?_⟩
  rw [Multiset.disjoint_left]
  intro d hd hd'
  obtain ⟨a, -, rfl⟩ := Multiset.mem_map.mp hd
  obtain ⟨c, -, hc⟩ := Multiset.mem_map.mp hd'
  exact hfg a c hc.symm

theorem amount_singletons (l : List w) : amount (fun x => ({x} : Multiset w)) l = l := by
  induction l with
  | nil => rfl
  | cons x l ih =>
      calc amount (fun x => ({x} : Multiset w)) (x :: l)
          = {x} + amount (fun x => ({x} : Multiset w)) l := by simp [amount]
        _ = {x} + (l : Multiset w) := by rw [ih]

/-- The packages on a family of streams. -/
theorem sum_amount {A : Type} [Fintype A] (f : A → Port n Inner)
    (L : Histories (Ports n Inner) fun _ => w) :
    (((∑ a, {f a} : Multiset (Port n Inner)).map (Sigma.mk ())).map
      fun c => amount (fun x => ({x} : Multiset w)) (L c)).sum =
      ∑ a, (L ⟨(), f a⟩ : Multiset w) := by
  simp only [sum_singleton, Multiset.map_map, amount_singletons, Function.comp_def]
  rfl

variable [Fintype Inner] [Fintype Proc]

theorem network_inputs (hb : b.Wired) :
    ∑ p, ((b.network depth).node p).inputs =
      ((∑ i, {.input i}) + ∑ x, {.inner x} : Multiset (Port n Inner)).map (Sigma.mk ()) := by
  simp only [Butterfly.network, PackageCall.call_inputs]
  rw [map_sum_mk, ← hb.reads]
  rfl

theorem network_outputs (hb : b.Wired) :
    ∑ p, ((b.network depth).node p).outputs =
      ((∑ j, {.output j}) + ∑ x, {.inner x} : Multiset (Port n Inner)).map (Sigma.mk ()) := by
  simp only [Butterfly.network, PackageCall.call_outputs]
  rw [map_sum_mk, ← hb.writes]
  rfl

/-- Every stream of a switch has one writer and one reader. -/
theorem network_pointToPoint (hb : b.Wired) : (b.network depth).PointToPoint := by
  have hmk : Function.Injective fun c : Port n Inner => (⟨(), c⟩ : Chan (Ports n Inner)) :=
    fun _ _ h => eq_of_heq (Sigma.mk.inj h).2
  refine .of_nodup ?_ ?_
  · rw [network_inputs hb]
    refine (nodup_sum_singleton ?_ ?_ ?_).map hmk
    · exact fun _ _ h => Port.input.inj h
    · exact fun _ _ h => Port.inner.inj h
    · exact fun _ _ h => nomatch h
  · rw [network_outputs hb]
    refine (nodup_sum_singleton ?_ ?_ ?_).map hmk
    · exact fun _ _ h => Port.output.inj h
    · exact fun _ _ h => Port.inner.inj h
    · exact fun _ _ h => nomatch h

/-! ## Conservation -/

/-- What the switch has read from its inputs is inside it or was written to its outputs. -/
theorem conserved [DecidableEq Inner] [DecidableEq Proc] (hb : b.Wired) (hroutes : b.Routes)
    {s : (b.network depth).State} (hs : (b.network depth).Reachable s) :
    ∑ pl, contents s pl = accepted s := by
  have hkernel : ∀ p, ((b.network depth).node p).kernel.Balanced
      (fun _ (x : w) => ({x} : Multiset w)) (fun _ (x : w) => ({x} : Multiset w))
      ((b.calls p).held fun x : w => ({x} : Multiset w)) := by
    intro p
    have hp := (b.calls p).balanced (fun _ (x : w) => ({x} : Multiset w)) (fun _ _ => rfl)
      (fun _ _ => rfl) (hroutes _ _ _ p)
    exact hp
  have hbal := hs.balance (network_pointToPoint hb) (fun _ (x : w) => ({x} : Multiset w))
    hkernel (fun p => (b.calls p).held_start _)
  rw [network_inputs hb, network_outputs hb] at hbal
  simp only [Multiset.map_add, Multiset.sum_add, sum_amount] at hbal
  -- A stream inside was written what it was read, and what it still queues.
  have hinner : ∀ x, (s.written ⟨(), .inner x⟩ : Multiset w) =
      (s.taken ⟨(), .inner x⟩ : Multiset w) + contents s (.inl x) := fun x => rfl
  simp only [hinner, Finset.sum_add_distrib] at hbal
  refine add_right_cancel (b := ∑ x, (s.taken ⟨(), .inner x⟩ : Multiset w)) ?_
  rw [accepted, ← hbal, Fintype.sum_sum_type, Fintype.sum_sum_type]
  simp only [contents]
  abel

end Closed

/-! ## Delivery -/

/-- A package of a run: the input it was offered on, its position there, and the item. -/
structure Packet (n : ℕ) (α : Type) where
  input : Fin n
  seq : ℕ
  item : Frp (Routed α)

/-- The destination that the switches read. -/
def Packet.dest {n : ℕ} {α : Type} (x : Packet n α) : RouteId := x.item.data.dest

section Delivery

variable {α : Type} {n : ℕ} {Inner Proc : Type} {b : Butterfly (Packet n α) n Inner Proc}
  {depth : Chan (Ports n Inner) → ℕ}

/-- What the surroundings have put on the inputs, in order, are packages of `offered`. -/
def Offers (offered : Fin n → ℕ → Frp (Routed α)) (s : (b.network depth).State) : Prop :=
  ∀ i, ∃ k, s.written ⟨(), .input i⟩ = (List.range k).map fun m => ⟨i, m, offered i m⟩

/-- What a butterfly owes for the packages offered to it. -/
structure Delivered (offered : Fin n → ℕ → Frp (Routed α)) (s : (b.network depth).State) :
    Prop where
  /-- No call ever meets a package that matches neither of its outputs. -/
  routed : ∀ p, (b.calls p).Routes
  /-- Every accepted package is in exactly one place. -/
  once : ∀ x ∈ accepted s, ∃! pl, x ∈ contents s pl
  /-- No place holds a package twice. -/
  single : ∀ pl, (contents s pl).Nodup
  /-- No place holds anything but accepted packages. -/
  genuine : ∀ pl, ∀ x ∈ contents s pl, x ∈ accepted s
  /-- What left did so unchanged and on the output of its destination. -/
  unchanged : ∀ j, ∀ x ∈ s.written ⟨(), .output j⟩,
    x.item = offered x.input x.seq ∧ x.dest.toNat % n = j
  /-- Packages of one input leave an output in the order they were offered. -/
  order : ∀ i j, ((s.written ⟨(), .output j⟩).filter fun x => decide (x.input = i)).Pairwise
    fun x y => x.seq < y.seq

/-- Multisets whose members name the multiset they are in have no member in common. -/
theorem nodup_sum_of_tag {ι A : Type} [Fintype ι] [DecidableEq ι] {f : ι → Multiset A}
    (tag : A → ι) (htag : ∀ i, ∀ x ∈ f i, tag x = i) (hf : ∀ i, (f i).Nodup) :
    (∑ i, f i).Nodup := by
  classical
  rw [Multiset.nodup_iff_count_le_one]
  intro x
  rw [Multiset.count_sum', Finset.sum_eq_single (tag x)]
  · exact Multiset.nodup_iff_count_le_one.mp (hf _) x
  · intro i _ hi
    exact Multiset.count_eq_zero.mpr fun hx => hi (htag i x hx).symm
  · exact fun h => absurd (Finset.mem_univ _) h

/-- A member of a repetition-free sum is in exactly one of its parts. -/
theorem existsUnique_of_nodup_sum {ι A : Type} [Fintype ι] {f : ι → Multiset A}
    (h : (∑ i, f i).Nodup) {x : A} (hx : x ∈ ∑ i, f i) : ∃! i, x ∈ f i := by
  classical
  obtain ⟨i, -, hi⟩ := Multiset.mem_sum.mp hx
  refine ⟨i, hi, fun j hj => ?_⟩
  by_contra hne
  have hpair : f i + f j ≤ ∑ i, f i := by
    rw [← Finset.sum_pair (Ne.symm hne)]
    exact Finset.sum_le_univ_sum_of_nonneg fun _ => Multiset.zero_le _
  have hdis := (Multiset.nodup_add.mp (Multiset.nodup_of_le hpair h)).2.2
  exact Multiset.disjoint_left.mp hdis hi hj

variable [Fintype Inner] [Fintype Proc] [DecidableEq Inner] [DecidableEq Proc] [NeZero n]

/-- A wired block that routes every package and selects by the destination modulo its
width delivers. -/
theorem delivered (hb : b.Wired) (hroutes : b.Routes) (hsel : b.Switches (destOut n Packet.dest))
    {offered : Fin n → ℕ → Frp (Routed α)} {s : (b.network depth).State}
    (hs : (b.network depth).Reachable s) (hoff : Offers offered s) : Delivered offered s := by
  have htaken : ∀ i, ∃ k, s.taken ⟨(), .input i⟩ <+:
      (List.range k).map fun m => (⟨i, m, offered i m⟩ : Packet n α) := by
    intro i
    obtain ⟨k, hk⟩ := hoff i
    exact ⟨k, hk ▸ (s.fifo _).taken_isPrefix⟩
  have hmem : ∀ i, ∀ x ∈ s.taken ⟨(), .input i⟩, x.input = i ∧ x.item = offered i x.seq := by
    intro i x hx
    obtain ⟨k, hk⟩ := htaken i
    obtain ⟨m, -, rfl⟩ := List.mem_map.mp (hk.subset hx)
    exact ⟨rfl, rfl⟩
  have hsorted : ∀ i, (s.taken ⟨(), .input i⟩).Pairwise fun x y => x.seq < y.seq := by
    intro i
    obtain ⟨k, hk⟩ := htaken i
    refine List.Pairwise.sublist hk.sublist ?_
    rw [List.pairwise_map]
    exact List.pairwise_lt_range
  have hacc : (accepted s).Nodup := by
    refine nodup_sum_of_tag Packet.input (fun i x hx => (hmem i x hx).1) fun i => ?_
    exact (hsorted i).imp fun hlt heq => absurd (congrArg Packet.seq heq) hlt.ne
  have hcons := conserved hb hroutes hs
  have hdeliver := hsel _ _ _ s.taken s.written (fun c => (s.fifo c).taken_isPrefix)
    (hs.ran (network_pointToPoint hb))
  refine ⟨hroutes _ _ _, fun x hx => ?_, fun pl => ?_, fun pl x hx => ?_, fun j x hx => ?_,
    fun i j => ?_⟩
  · rw [← hcons] at hx hacc
    exact existsUnique_of_nodup_sum hacc hx
  · rw [← hcons] at hacc
    exact Multiset.nodup_of_le
      (Finset.single_le_sum (fun _ _ => Multiset.zero_le _) (Finset.mem_univ pl)) hacc
  · rw [← hcons]
    exact Multiset.mem_sum.mpr ⟨pl, Finset.mem_univ pl, hx⟩
  · obtain ⟨hj, i, hi⟩ := hdeliver.content j x hx
    obtain ⟨rfl, hitem⟩ := hmem i x hi
    exact ⟨hitem, congrArg Fin.val hj⟩
  · have hclass := hdeliver.order i j (fun x => decide (x.input = i)) fun i' hi' => by
      rw [List.filter_eq_nil_iff]
      intro x hx hq
      exact hi' ((hmem i' x hx).1.symm.trans (of_decide_eq_true hq))
    exact ((hsorted i).sublist List.filter_sublist).sublist hclass.sublist

/-- The butterfly switches of width 4, 8 and 16 deliver, whatever the capacities of their
streams and however their kernels are interleaved. -/
theorem butterfly_delivery {α : Type} :
    (∀ depth (offered : Fin 4 → ℕ → Frp (Routed α))
      (s : (Butterfly.network (switch4x4Frp Packet.dest) depth).State),
      (Butterfly.network (switch4x4Frp Packet.dest) depth).Reachable s → Offers offered s →
        Delivered offered s) ∧
    (∀ depth (offered : Fin 8 → ℕ → Frp (Routed α))
      (s : (Butterfly.network (switch8x8Frp Packet.dest) depth).State),
      (Butterfly.network (switch8x8Frp Packet.dest) depth).Reachable s → Offers offered s →
        Delivered offered s) ∧
    (∀ depth (offered : Fin 16 → ℕ → Frp (Routed α))
      (s : (Butterfly.network (switch16x16Frp Packet.dest) depth).State),
      (Butterfly.network (switch16x16Frp Packet.dest) depth).Reachable s → Offers offered s →
        Delivered offered s) := by
  refine ⟨fun depth offered s hs hoff => ?_, fun depth offered s hs hoff => ?_,
    fun depth offered s hs hoff => ?_⟩
  · exact delivered (switch4x4Frp_wired _) (switch4x4Frp_routes _) (switch4x4Frp_switches _) hs hoff
  · exact delivered (switch8x8Frp_wired _) (switch8x8Frp_routes _) (switch8x8Frp_switches _) hs hoff
  · exact delivered (switch16x16Frp_wired _) (switch16x16Frp_routes _) (switch16x16Frp_switches _)
      hs hoff

end Delivery

/-- The switch of width four on streams of capacity one. -/
abbrev tight4x4 : Network Proc4 (Ports 4 Inner4) (fun _ => Packet 4 Unit) :=
  Butterfly.network (switch4x4Frp Packet.dest) fun _ => 1

/-- The first package on input 0, for output 3. -/
def lone : Packet 4 Unit := ⟨0, 0, ⟨⟨3, ()⟩, true⟩⟩

/-- The delivery of a package that a distributor has just read. -/
theorem butterfly_delivery_lone :
    ∃ s : tight4x4.State, accepted s = {lone} ∧ Delivered (fun _ _ => lone.item) s := by
  have hput := Network.Step.put (N := tight4x4) (s := tight4x4.init) (c := ⟨(), .input 0⟩)
    (a := lone) (by decide) (by decide)
  have hread : tight4x4.Reachable _ := ⟨_, (Network.Run.nil.snoc hput).snoc
    (.fire (p := .inl (0, .inl 0)) (.readNb rfl lone) (.read (i := ()) rfl))⟩
  refine ⟨_, rfl, butterfly_delivery.1 _ _ _ hread ?_⟩
  intro i
  fin_cases i
  · exact ⟨1, rfl⟩
  · exact ⟨0, rfl⟩
  · exact ⟨0, rfl⟩
  · exact ⟨0, rfl⟩

end RidgeWalker.Switch
