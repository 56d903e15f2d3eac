import RidgeWalker.Switch.Packages
import RidgeWalker.Switch.Routing

/-!
# Butterfly wiring

The wiring of the butterfly networks, once as the source spells it out and once as the
recursion behind it: two networks of half the width whose outputs are paired by networks
of width two.

Main results:

- Theorems `butterfly4x4_eq_double`, `butterfly8x8_eq_double` and
  `butterfly16x16_eq_double`: the wiring of the source is the recursion.
- Theorem `Block.Wired.double`: every stream inside has one writer and one reader.
- Theorem `Block.Switches.double`: doubling a switch adds one bit to the selected field.
-/

namespace RidgeWalker.Switch

open Dataflow

/-! ## Blocks of package calls -/

section Blocks

variable {S : Type} {C : S → Type} {word : S → Type} {s : S}

/-- A network of package calls from `n` inputs to `n` outputs: `Inner` names its streams
inside and `Proc` its calls. -/
abbrev Block (C : S → Type) (word : S → Type) (s : S) (n : ℕ) (Inner Proc : Type) : Type :=
  (ins outs : Fin n → C s) → (inner : Inner → C s) → Proc → PackageCall C word s

/-- Streams inside a network of width two: `inner_connection_g1` and `inner_connection_g2`. -/
abbrev Inner2 : Type := Fin 2 × Fin 2

/-- Calls of a network of width two: the first stage and the mergers. -/
abbrev Proc2 : Type := Fin 2 ⊕ Fin 2

/-- Streams inside a doubled network: those between its stages, then those inside its
parts. -/
abbrev InnerDouble (m : ℕ) (Inner : Type) : Type :=
  Fin (2 * m) ⊕ Fin 2 × Inner ⊕ Fin m × Inner2

/-- Calls of a doubled network. -/
abbrev ProcDouble (m : ℕ) (Proc : Type) : Type := Fin 2 × Proc ⊕ Fin m × Proc2

instance {m : ℕ} {Inner : Type} [DecidableEq Inner] : DecidableEq (InnerDouble m Inner) :=
  inferInstance

instance {m : ℕ} {Proc : Type} [DecidableEq Proc] : DecidableEq (ProcDouble m Proc) :=
  inferInstance

instance {m : ℕ} {Inner : Type} [Fintype Inner] : Fintype (InnerDouble m Inner) := inferInstance

instance {m : ℕ} {Proc : Type} [Fintype Proc] : Fintype (ProcDouble m Proc) := inferInstance

abbrev Inner4 : Type := InnerDouble 2 Inner2

abbrev Proc4 : Type := ProcDouble 2 Proc2

abbrev Inner8 : Type := InnerDouble 4 Inner4

abbrev Proc8 : Type := ProcDouble 4 Proc4

abbrev Inner16 : Type := InnerDouble 8 Inner8

abbrev Proc16 : Type := ProcDouble 8 Proc8

/-- The calls of `switch_2x2_frp` and `work_stealing_2x2_frp`, which differ in the kernel
that reads the inputs. -/
def butterfly2x2 (first : (in_ out1 out2 : C s) → PackageCall C word s) :
    Block C word s 2 Inner2 Proc2 :=
  fun ins outs inner =>
    let g1 : Fin 2 → C s := fun k => inner (0, k)
    let g2 : Fin 2 → C s := fun k => inner (1, k)
    fun
    | .inl 0 => first (ins 0) (g1 0) (g1 1)
    | .inl 1 => first (ins 1) (g2 0) (g2 1)
    | .inr 0 => .merge (g1 0) (g2 0) (outs 0)
    | .inr 1 => .merge (g1 1) (g2 1) (outs 1)

/-- The calls of `switch_4x4_frp` and `work_stealing_4x4_frp`. -/
def butterfly4x4 (level1 level2 : Block C word s 2 Inner2 Proc2) :
    Block C word s 4 Inner4 Proc4 :=
  fun ins outs inner =>
    let g1 : Fin 4 → C s := fun k => inner (.inl k)
    fun
    | .inl (0, p) =>
        level1 ![ins 0, ins 1] ![g1 0, g1 1] (fun x => inner (.inr (.inl (0, x)))) p
    | .inl (1, p) =>
        level1 ![ins 2, ins 3] ![g1 2, g1 3] (fun x => inner (.inr (.inl (1, x)))) p
    | .inr (0, p) =>
        level2 ![g1 0, g1 2] ![outs 0, outs 2] (fun x => inner (.inr (.inr (0, x)))) p
    | .inr (1, p) =>
        level2 ![g1 1, g1 3] ![outs 1, outs 3] (fun x => inner (.inr (.inr (1, x)))) p

/-- The calls of `switch_8x8_frp` and `work_stealing_8x8_frp`. -/
def butterfly8x8 (four : Block C word s 4 Inner4 Proc4)
    (level3 : Block C word s 2 Inner2 Proc2) : Block C word s 8 Inner8 Proc8 :=
  fun ins outs inner =>
    let g1 : Fin 8 → C s := fun k => inner (.inl k)
    fun
    | .inl (0, p) =>
        four ![ins 0, ins 1, ins 2, ins 3] ![g1 0, g1 1, g1 2, g1 3]
          (fun x => inner (.inr (.inl (0, x)))) p
    | .inl (1, p) =>
        four ![ins 4, ins 5, ins 6, ins 7] ![g1 4, g1 5, g1 6, g1 7]
          (fun x => inner (.inr (.inl (1, x)))) p
    | .inr (0, p) =>
        level3 ![g1 0, g1 4] ![outs 0, outs 4] (fun x => inner (.inr (.inr (0, x)))) p
    | .inr (1, p) =>
        level3 ![g1 1, g1 5] ![outs 1, outs 5] (fun x => inner (.inr (.inr (1, x)))) p
    | .inr (2, p) =>
        level3 ![g1 2, g1 6] ![outs 2, outs 6] (fun x => inner (.inr (.inr (2, x)))) p
    | .inr (3, p) =>
        level3 ![g1 3, g1 7] ![outs 3, outs 7] (fun x => inner (.inr (.inr (3, x)))) p

/-- The calls of `switch_16x16_frp` and `work_stealing_16x16_frp`; `in01` to `in08` and
`in11` to `in18` are numbered 0 to 15, and so are the outputs. -/
def butterfly16x16 (eight : Block C word s 8 Inner8 Proc8)
    (level4 : Block C word s 2 Inner2 Proc2) : Block C word s 16 Inner16 Proc16 :=
  fun ins outs inner =>
    let g1 : Fin 8 → C s := fun k => inner (.inl (k.castAdd 8))
    let g2 : Fin 8 → C s := fun k => inner (.inl (k.natAdd 8))
    fun
    | .inl (0, p) =>
        eight ![ins 0, ins 1, ins 2, ins 3, ins 4, ins 5, ins 6, ins 7]
          ![g1 0, g1 1, g1 2, g1 3, g1 4, g1 5, g1 6, g1 7]
          (fun x => inner (.inr (.inl (0, x)))) p
    | .inl (1, p) =>
        eight ![ins 8, ins 9, ins 10, ins 11, ins 12, ins 13, ins 14, ins 15]
          ![g2 0, g2 1, g2 2, g2 3, g2 4, g2 5, g2 6, g2 7]
          (fun x => inner (.inr (.inl (1, x)))) p
    | .inr (0, p) =>
        level4 ![g1 0, g2 0] ![outs 0, outs 8] (fun x => inner (.inr (.inr (0, x)))) p
    | .inr (1, p) =>
        level4 ![g1 1, g2 1] ![outs 1, outs 9] (fun x => inner (.inr (.inr (1, x)))) p
    | .inr (2, p) =>
        level4 ![g1 2, g2 2] ![outs 2, outs 10] (fun x => inner (.inr (.inr (2, x)))) p
    | .inr (3, p) =>
        level4 ![g1 3, g2 3] ![outs 3, outs 11] (fun x => inner (.inr (.inr (3, x)))) p
    | .inr (4, p) =>
        level4 ![g1 4, g2 4] ![outs 4, outs 12] (fun x => inner (.inr (.inr (4, x)))) p
    | .inr (5, p) =>
        level4 ![g1 5, g2 5] ![outs 5, outs 13] (fun x => inner (.inr (.inr (5, x)))) p
    | .inr (6, p) =>
        level4 ![g1 6, g2 6] ![outs 6, outs 14] (fun x => inner (.inr (.inr (6, x)))) p
    | .inr (7, p) =>
        level4 ![g1 7, g2 7] ![outs 7, outs 15] (fun x => inner (.inr (.inr (7, x)))) p

/-! ## The recursion behind the wiring -/

/-- Two blocks of width `m` whose outputs are paired by blocks of width two. -/
def Block.double {m : ℕ} {Inner Proc : Type} (half : Block C word s m Inner Proc)
    (last : Block C word s 2 Inner2 Proc2) :
    Block C word s (2 * m) (InnerDouble m Inner) (ProcDouble m Proc) :=
  fun ins outs inner =>
    fun
    | .inl (h, p) =>
        half (fun i => ins (finProdFinEquiv (h, i))) (fun k => inner (.inl (finProdFinEquiv (h, k))))
          (fun x => inner (.inr (.inl (h, x)))) p
    | .inr (k, p) =>
        last (fun h => inner (.inl (finProdFinEquiv (h, k))))
          (fun b => outs (finProdFinEquiv (b, k))) (fun x => inner (.inr (.inr (k, x)))) p

theorem butterfly4x4_eq_double (level1 : Block C word s 2 Inner2 Proc2)
    (level2 : Block C word s 2 Inner2 Proc2) : butterfly4x4 level1 level2 = level1.double level2 := by
  funext ins outs inner p
  rcases p with ⟨h, p⟩ | ⟨k, p⟩
  · fin_cases h <;>
      exact congrArg₂ (fun x y => level1 x y _ p) (funext fun i => by fin_cases i <;> rfl)
        (funext fun i => by fin_cases i <;> rfl)
  · fin_cases k <;>
      exact congrArg₂ (fun x y => level2 x y _ p) (funext fun i => by fin_cases i <;> rfl)
        (funext fun i => by fin_cases i <;> rfl)

theorem butterfly8x8_eq_double (four : Block C word s 4 Inner4 Proc4)
    (level3 : Block C word s 2 Inner2 Proc2) : butterfly8x8 four level3 = four.double level3 := by
  funext ins outs inner p
  rcases p with ⟨h, p⟩ | ⟨k, p⟩
  · fin_cases h <;>
      exact congrArg₂ (fun x y => four x y _ p) (funext fun i => by fin_cases i <;> rfl)
        (funext fun i => by fin_cases i <;> rfl)
  · fin_cases k <;>
      exact congrArg₂ (fun x y => level3 x y _ p) (funext fun i => by fin_cases i <;> rfl)
        (funext fun i => by fin_cases i <;> rfl)

theorem butterfly16x16_eq_double (eight : Block C word s 8 Inner8 Proc8)
    (level4 : Block C word s 2 Inner2 Proc2) : butterfly16x16 eight level4 = eight.double level4 := by
  funext ins outs inner p
  rcases p with ⟨h, p⟩ | ⟨k, p⟩
  · fin_cases h <;>
      exact congrArg₂ (fun x y => eight x y _ p) (funext fun i => by fin_cases i <;> rfl)
        (funext fun i => by fin_cases i <;> rfl)
  · fin_cases k <;>
      exact congrArg₂ (fun x y => level4 x y _ p) (funext fun i => by fin_cases i <;> rfl)
        (funext fun i => by fin_cases i <;> rfl)

/-! ## Every stream inside has one writer and one reader -/

section Wiring

variable {m n : ℕ} {Inner Proc : Type} [Fintype Inner] [Fintype Proc]

/-- The calls of a block read its inputs and its streams inside, and write its outputs and
its streams inside, each from one port. -/
structure Block.Wired (b : Block C word s n Inner Proc) : Prop where
  reads : ∀ ins outs inner,
    ∑ p, (b ins outs inner p).ins = (∑ i, {ins i}) + ∑ x, {inner x}
  writes : ∀ ins outs inner,
    ∑ p, (b ins outs inner p).outs = (∑ j, {outs j}) + ∑ x, {inner x}

namespace Block.Wired

variable {b : Block C word s n Inner Proc} {ins outs : Fin n → C s} {inner : Inner → C s}

theorem mem_reads (hb : b.Wired) {c : C s} :
    (∃ p, c ∈ (b ins outs inner p).ins) ↔ (∃ i, ins i = c) ∨ ∃ x, inner x = c := by
  have hmem := congrArg (c ∈ ·) (hb.reads ins outs inner)
  simpa [Multiset.mem_sum, eq_comm] using hmem

theorem mem_writes (hb : b.Wired) {c : C s} :
    (∃ p, c ∈ (b ins outs inner p).outs) ↔ (∃ j, outs j = c) ∨ ∃ x, inner x = c := by
  have hmem := congrArg (c ∈ ·) (hb.writes ins outs inner)
  simpa [Multiset.mem_sum, eq_comm] using hmem

end Block.Wired

theorem butterfly2x2_wired {first : (in_ out1 out2 : C s) → PackageCall C word s}
    (hin : ∀ a b c, (first a b c).ins = {a}) (hout : ∀ a b c, (first a b c).outs = {b} + {c}) :
    (butterfly2x2 first).Wired := by
  constructor
  · intro ins outs inner
    simp only [Fintype.sum_sum_type, Fintype.sum_prod_type, Fin.sum_univ_two, butterfly2x2, hin,
      PackageCall.merge_ins]
    abel
  · intro ins outs inner
    simp only [Fintype.sum_sum_type, Fintype.sum_prod_type, Fin.sum_univ_two, butterfly2x2, hout,
      PackageCall.merge_outs]
    abel

/-- A sum over the outputs of two blocks, numbered through. -/
theorem sum_finProd {A : Type} [AddCommMonoid A] (f : Fin (2 * m) → A) :
    ∑ h : Fin 2, ∑ k : Fin m, f (finProdFinEquiv (h, k)) = ∑ i, f i := by
  rw [← Fintype.sum_prod_type' fun h k => f (finProdFinEquiv (h, k))]
  exact finProdFinEquiv.sum_comp f

/-- Doubling keeps the wiring point to point. -/
theorem Block.Wired.double {half : Block C word s m Inner Proc}
    {last : Block C word s 2 Inner2 Proc2} (hhalf : half.Wired) (hlast : last.Wired) :
    (half.double last).Wired := by
  constructor
  · intro ins outs inner
    simp only [Fintype.sum_sum_type, Fintype.sum_prod_type, Block.double, hhalf.reads,
      hlast.reads, Finset.sum_add_distrib]
    rw [sum_finProd fun i => ({ins i} : Multiset (C s)), Finset.sum_comm (γ := Fin m),
      sum_finProd fun i => ({inner (.inl i)} : Multiset (C s))]
    abel
  · intro ins outs inner
    simp only [Fintype.sum_sum_type, Fintype.sum_prod_type, Block.double, hhalf.writes,
      hlast.writes, Finset.sum_add_distrib]
    rw [sum_finProd fun i => ({inner (.inl i)} : Multiset (C s)), Finset.sum_comm (γ := Fin m),
      sum_finProd fun i => ({outs i} : Multiset (C s))]
    abel

end Wiring

/-! ## Doubling adds one selected bit -/

section Selection

variable {m n : ℕ} {Inner Proc : Type}

/-- Every call of the block has a way out for every package. -/
def Block.Routes (b : Block C word s n Inner Proc) : Prop :=
  ∀ ins outs inner p, (b ins outs inner p).Routes

/-- The block is a switch that sends a package to output `sel`. -/
def Block.Switches (b : Block C word s n Inner Proc) (sel : word s → Fin n) : Prop :=
  ∀ ins outs inner (T W : Histories C word), (∀ c, T c <+: W c) →
    (∀ p, (b ins outs inner p).call.Ran T W) →
      Delivers (fun c => T ⟨s, c⟩) (fun c => W ⟨s, c⟩) ins outs sel

theorem Block.Routes.double {half : Block C word s m Inner Proc}
    {last : Block C word s 2 Inner2 Proc2} (hhalf : half.Routes) (hlast : last.Routes) :
    (half.double last).Routes := by
  rintro ins outs inner (⟨h, p⟩ | ⟨k, p⟩)
  · exact hhalf _ _ _ p
  · exact hlast _ _ _ p

/-- If the parts select by `sel` and the pairing blocks by `bit`, the doubled block selects
by `bit` above `sel`. -/
theorem Block.Switches.double {half : Block C word s m Inner Proc}
    {last : Block C word s 2 Inner2 Proc2} {sel : word s → Fin m} {bit : word s → Fin 2}
    (hhalf : half.Switches sel) (hlast : last.Switches bit) :
    (half.double last).Switches fun x => finProdFinEquiv (bit x, sel x) := by
  intro ins outs inner T W hTW hran
  have hfirst : ∀ h, Delivers (fun c => T ⟨s, c⟩) (fun c => W ⟨s, c⟩)
      (fun i => ins (finProdFinEquiv (h, i))) (fun k => inner (.inl (finProdFinEquiv (h, k)))) sel :=
    fun h => hhalf _ _ _ T W hTW fun p => hran (.inl (h, p))
  have hpair : ∀ k, Delivers (fun c => T ⟨s, c⟩) (fun c => W ⟨s, c⟩)
      (fun h => inner (.inl (finProdFinEquiv (h, k)))) (fun b => outs (finProdFinEquiv (b, k))) bit :=
    fun k => hlast _ _ _ T W hTW fun p => hran (.inr (k, p))
  have hboth := Delivers.double (fun c => hTW ⟨s, c⟩) hfirst hpair
  exact hboth.reindex finProdFinEquiv.symm finProdFinEquiv.symm
    (fun i => congrArg ins (finProdFinEquiv.apply_symm_apply i).symm)
    (fun j => congrArg outs (finProdFinEquiv.apply_symm_apply j).symm)
    fun x => finProdFinEquiv.symm_apply_apply _

end Selection

end Blocks

end RidgeWalker.Switch
