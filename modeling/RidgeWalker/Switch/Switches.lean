import RidgeWalker.Switch.Butterfly

/-!
# The switches of the library

The members of the two families: `switch_*_frp`, which select the output by the low bits
of the destination, and `work_stealing_*_frp`, which do not look at the package at all.

Main results:

- Theorem `switch2x2Frp_switches`: the switch of width two selects by one bit of the
  destination.
- Theorems `switch4x4Frp_switches`, `switch8x8Frp_switches` and
  `switch16x16Frp_switches`: the wider switches select by the destination modulo their
  width.
-/

namespace RidgeWalker.Switch

open Dataflow

section Members

variable {S : Type} {C : S → Type} {word : S → Type} {s : S}

/-! ## The two families -/

/-- `switch_2x2_frp`. -/
def switch2x2Frp (dest : word s → RouteId) (id1 id2 mask : RouteId) :
    Block C word s 2 Inner2 Proc2 :=
  butterfly2x2 fun in_ out1 out2 => .distribute dest in_ out1 out2 id1 id2 mask

/-- `switch_4x4_frp`. -/
def switch4x4Frp (dest : word s → RouteId) : Block C word s 4 Inner4 Proc4 :=
  butterfly4x4 (switch2x2Frp dest 0 1 0x1) (switch2x2Frp dest 0 2 0x2)

/-- `switch_8x8_frp`. -/
def switch8x8Frp (dest : word s → RouteId) : Block C word s 8 Inner8 Proc8 :=
  butterfly8x8 (switch4x4Frp dest) (switch2x2Frp dest 0 4 0x4)

/-- `switch_16x16_frp`. -/
def switch16x16Frp (dest : word s → RouteId) : Block C word s 16 Inner16 Proc16 :=
  butterfly16x16 (switch8x8Frp dest) (switch2x2Frp dest 0 8 0x8)

/-- `work_stealing_2x2_frp`. -/
def workStealing2x2Frp : Block C word s 2 Inner2 Proc2 := butterfly2x2 .wsDistribute

/-- `work_stealing_4x4_frp`. -/
def workStealing4x4Frp : Block C word s 4 Inner4 Proc4 :=
  butterfly4x4 workStealing2x2Frp workStealing2x2Frp

/-- `work_stealing_8x8_frp`. -/
def workStealing8x8Frp : Block C word s 8 Inner8 Proc8 :=
  butterfly8x8 workStealing4x4Frp workStealing2x2Frp

/-- `work_stealing_16x16_frp`. -/
def workStealing16x16Frp : Block C word s 16 Inner16 Proc16 :=
  butterfly16x16 workStealing8x8Frp workStealing2x2Frp

/-- Streams inside `rpa_ws_scheduler`: `in_stream`, `out_stream` and those inside its
network. -/
abbrev SchedulerInner : Type := Fin 8 ⊕ Fin 8 ⊕ Inner8

/-- Calls of `rpa_ws_scheduler`. -/
abbrev SchedulerProc : Type := Fin 8 ⊕ Proc8 ⊕ Fin 8

instance : DecidableEq SchedulerInner := inferInstance

instance : DecidableEq SchedulerProc := inferInstance

/-- `rpa_ws_scheduler`. -/
def rpaWsScheduler : Block C word s 8 SchedulerInner SchedulerProc := fun ins outs inner =>
  let in_stream : Fin 8 → C s := fun k => inner (.inl k)
  let out_stream : Fin 8 → C s := fun k => inner (.inr (.inl k))
  fun
  | .inl k => .forward (ins k) (in_stream k)
  | .inr (.inl p) => workStealing8x8Frp in_stream out_stream (fun x => inner (.inr (.inr x))) p
  | .inr (.inr k) => .forward (out_stream k) (outs k)

/-! ## Wiring -/

theorem switch2x2Frp_wired (dest : word s → RouteId) (id1 id2 mask : RouteId) :
    (switch2x2Frp dest id1 id2 mask : Block C word s 2 Inner2 Proc2).Wired :=
  butterfly2x2_wired (fun _ _ _ => rfl) fun _ _ _ => rfl

theorem switch4x4Frp_wired (dest : word s → RouteId) :
    (switch4x4Frp dest : Block C word s 4 Inner4 Proc4).Wired := by
  rw [switch4x4Frp, butterfly4x4_eq_double]
  exact (switch2x2Frp_wired _ _ _ _).double (switch2x2Frp_wired _ _ _ _)

theorem switch8x8Frp_wired (dest : word s → RouteId) :
    (switch8x8Frp dest : Block C word s 8 Inner8 Proc8).Wired := by
  rw [switch8x8Frp, butterfly8x8_eq_double]
  exact (switch4x4Frp_wired _).double (switch2x2Frp_wired _ _ _ _)

theorem switch16x16Frp_wired (dest : word s → RouteId) :
    (switch16x16Frp dest : Block C word s 16 Inner16 Proc16).Wired := by
  rw [switch16x16Frp, butterfly16x16_eq_double]
  exact (switch8x8Frp_wired _).double (switch2x2Frp_wired _ _ _ _)

theorem workStealing2x2Frp_wired : (workStealing2x2Frp : Block C word s 2 Inner2 Proc2).Wired :=
  butterfly2x2_wired (fun _ _ _ => rfl) fun _ _ _ => rfl

theorem workStealing8x8Frp_wired : (workStealing8x8Frp : Block C word s 8 Inner8 Proc8).Wired := by
  rw [workStealing8x8Frp, workStealing4x4Frp, butterfly8x8_eq_double, butterfly4x4_eq_double]
  exact (workStealing2x2Frp_wired.double workStealing2x2Frp_wired).double workStealing2x2Frp_wired

theorem rpaWsScheduler_wired :
    (rpaWsScheduler : Block C word s 8 SchedulerInner SchedulerProc).Wired := by
  constructor
  · intro ins outs inner
    simp only [Fintype.sum_sum_type, rpaWsScheduler, PackageCall.forward_ins,
      workStealing8x8Frp_wired.reads]
    abel
  · intro ins outs inner
    simp only [Fintype.sum_sum_type, rpaWsScheduler, PackageCall.forward_outs,
      workStealing8x8Frp_wired.writes]
    abel

/-! ## Routes -/

/-- Bit `l` of the destination, as an output number. -/
def destBit {w : Type} (dest : w → RouteId) (l : ℕ) (x : w) : Fin 2 :=
  Fin.ofNat 2 ((dest x).toNat / 2 ^ l)

/-- With one mask bit and the two values it can leave, one of the outputs always matches:
the one that the bit names. -/
theorem distributeRoute_twoPow {w : Type} (dest : w → RouteId) {l : ℕ} (hl : l < 8) (x : w) :
    distributeRoute dest 0 (BitVec.twoPow 8 l) (BitVec.twoPow 8 l) x =
      some (destBit dest l x) := by
  have hpow : BitVec.twoPow 8 l ≠ 0#8 := by
    intro h
    have hget := congrArg (BitVec.getLsbD · l) h
    simp [hl] at hget
  have hdiv : (dest x).getLsbD l = decide ((dest x).toNat / 2 ^ l % 2 = 1) :=
    Nat.testBit_eq_decide_div_mod_eq
  unfold distributeRoute destBit
  rw [BitVec.and_twoPow, hdiv]
  by_cases hbit : (dest x).toNat / 2 ^ l % 2 = 1
  · simp [hbit, hpow, Fin.ofNat]
  · have hzero : (dest x).toNat / 2 ^ l % 2 = 0 := by omega
    simp [hzero, Fin.ofNat]

/-- A one-bit switch never drops a package. -/
theorem switch2x2Frp_routes (dest : word s → RouteId) {l : ℕ} (hl : l < 8) :
    (switch2x2Frp dest 0 (BitVec.twoPow 8 l) (BitVec.twoPow 8 l) :
      Block C word s 2 Inner2 Proc2).Routes := by
  intro ins outs inner p
  have hsome : ∀ x, (distributeRoute dest 0 (BitVec.twoPow 8 l) (BitVec.twoPow 8 l) x).isSome :=
    fun x => by rw [distributeRoute_twoPow dest hl]; rfl
  rcases p with k | k
  · fin_cases k
    · exact hsome
    · exact hsome
  · fin_cases k <;> trivial

theorem switch4x4Frp_routes (dest : word s → RouteId) :
    (switch4x4Frp dest : Block C word s 4 Inner4 Proc4).Routes := by
  rw [switch4x4Frp, butterfly4x4_eq_double]
  exact Block.Routes.double (switch2x2Frp_routes (l := 0) dest (by decide))
    (switch2x2Frp_routes (l := 1) dest (by decide))

theorem switch8x8Frp_routes (dest : word s → RouteId) :
    (switch8x8Frp dest : Block C word s 8 Inner8 Proc8).Routes := by
  rw [switch8x8Frp, butterfly8x8_eq_double]
  exact (switch4x4Frp_routes dest).double (switch2x2Frp_routes (l := 2) dest (by decide))

theorem switch16x16Frp_routes (dest : word s → RouteId) :
    (switch16x16Frp dest : Block C word s 16 Inner16 Proc16).Routes := by
  rw [switch16x16Frp, butterfly16x16_eq_double]
  exact (switch8x8Frp_routes dest).double (switch2x2Frp_routes (l := 3) dest (by decide))

theorem workStealing2x2Frp_routes :
    (workStealing2x2Frp : Block C word s 2 Inner2 Proc2).Routes := by
  rintro ins outs inner (k | k) <;> fin_cases k <;> trivial

theorem workStealing8x8Frp_routes :
    (workStealing8x8Frp : Block C word s 8 Inner8 Proc8).Routes := by
  rw [workStealing8x8Frp, workStealing4x4Frp, butterfly8x8_eq_double, butterfly4x4_eq_double]
  exact (Block.Routes.double workStealing2x2Frp_routes workStealing2x2Frp_routes).double
    workStealing2x2Frp_routes

/-- A scheduler never drops a package. -/
theorem rpaWsScheduler_routes :
    (rpaWsScheduler : Block C word s 8 SchedulerInner SchedulerProc).Routes := by
  rintro ins outs inner (k | p | k)
  · trivial
  · exact workStealing8x8Frp_routes _ _ _ p
  · trivial

/-! ## Selection -/

/-- The switch of width two selects by one bit of the destination. -/
theorem switch2x2Frp_switches (dest : word s → RouteId) {l : ℕ} (hl : l < 8) :
    (switch2x2Frp dest 0 (BitVec.twoPow 8 l) (BitVec.twoPow 8 l) :
      Block C word s 2 Inner2 Proc2).Switches (destBit dest l) := by
  intro ins outs inner T W hTW hran
  -- What either distributor sent on an output is what it read for that output.
  have hfirst : ∀ h o : Fin 2, W ⟨s, inner (h, o)⟩ <+:
      (T ⟨s, ins h⟩).filter fun x => decide (destBit dest l x = o) := by
    intro h o
    have hpath : ∃ pend, W ⟨s, inner (h, o)⟩ ++ pend =
        (T ⟨s, ins h⟩).filter fun x => decide (some (destBit dest l x) = some o) := by
      have hroute := fun x => distributeRoute_twoPow dest hl x
      obtain ⟨r, hr⟩ := hran (.inl h)
      fin_cases h
      · have hp := distributePackageKernel_path hr o
        simp only [hroute] at hp
        fin_cases o <;> exact ⟨_, hp⟩
      · have hp := distributePackageKernel_path hr o
        simp only [hroute] at hp
        fin_cases o <;> exact ⟨_, hp⟩
    obtain ⟨pend, hpend⟩ := hpath
    simp only [Option.some.injEq] at hpend
    exact ⟨pend, hpend⟩
  -- What a merger sent is a merge of its two streams.
  have hmerge : ∀ h o : Fin 2, ∃ pend, Interleave (T ⟨s, inner (h, o)⟩) (T ⟨s, inner (h + 1, o)⟩)
      (W ⟨s, outs o⟩ ++ pend) := by
    intro h o
    obtain ⟨r, hr⟩ := hran (.inr o)
    fin_cases o
    · have hp := mergePackageKernel_path hr
      fin_cases h
      · exact ⟨_, hp⟩
      · exact ⟨_, hp.comm⟩
    · have hp := mergePackageKernel_path hr
      fin_cases h
      · exact ⟨_, hp⟩
      · exact ⟨_, hp.comm⟩
  refine ⟨fun o x hx => ?_, fun h o q hq => ?_⟩
  · obtain ⟨pend, hp⟩ := hmerge 0 o
    have hfrom : ∃ h, x ∈ T ⟨s, inner (h, o)⟩ :=
      (hp.mem_iff.mp (List.mem_append_left _ hx)).elim (⟨0, ·⟩) (⟨1, ·⟩)
    obtain ⟨h, hh⟩ := hfrom
    have hmem := (hfirst h o).subset ((hTW _).subset hh)
    rw [List.mem_filter, decide_eq_true_eq] at hmem
    exact ⟨hmem.2, h, hmem.1⟩
  · obtain ⟨pend, hp⟩ := hmerge h o
    have hother : (T ⟨s, inner (h + 1, o)⟩).filter q = [] := by
      have hne : h + 1 ≠ h := by fin_cases h <;> decide
      have hpre := ((hTW ⟨s, inner (h + 1, o)⟩).trans (hfirst (h + 1) o)).filter q
      rw [List.filter_filter] at hpre
      refine List.prefix_nil.mp (hpre.trans ?_)
      rw [← List.filter_filter, List.filter_comm, hq (h + 1) hne]
      exact List.prefix_rfl
    have hsame := hp.filter q
    rw [hother] at hsame
    have heq := hsame.eq_left
    rw [List.filter_append] at heq
    have hout : (W ⟨s, outs o⟩).filter q <+: (T ⟨s, inner (h, o)⟩).filter q := ⟨_, heq⟩
    have hin := ((hTW ⟨s, inner (h, o)⟩).trans (hfirst h o)).filter q
    rw [List.filter_filter] at hin
    exact hout.trans hin

/-- The destination modulo the number of outputs. -/
def destOut {w : Type} (n : ℕ) [NeZero n] (dest : w → RouteId) (x : w) : Fin n :=
  Fin.ofNat n (dest x).toNat

theorem destOut_double {w : Type} (dest : w → RouteId) (l : ℕ) (x : w) :
    finProdFinEquiv (destBit dest l x, destOut (2 ^ l) dest x) = destOut (2 * 2 ^ l) dest x := by
  apply Fin.ext
  have hmod := Nat.mod_mul (x := (dest x).toNat) (a := 2 ^ l) (b := 2)
  rw [mul_comm (2 ^ l) 2] at hmod
  exact hmod.symm

theorem switch4x4Frp_switches (dest : word s → RouteId) :
    (switch4x4Frp dest : Block C word s 4 Inner4 Proc4).Switches (destOut 4 dest) := by
  have hfirst := switch2x2Frp_switches (C := C) (l := 0) dest (by decide)
  have hbit : destBit dest 0 = destOut (2 ^ 0 * 2) dest := by
    funext x
    simp [destBit, destOut]
  rw [hbit] at hfirst
  rw [switch4x4Frp, butterfly4x4_eq_double,
    ← show _ = destOut 4 dest from funext (destOut_double dest 1)]
  exact hfirst.double (switch2x2Frp_switches (l := 1) dest (by decide))

theorem switch8x8Frp_switches (dest : word s → RouteId) :
    (switch8x8Frp dest : Block C word s 8 Inner8 Proc8).Switches (destOut 8 dest) := by
  rw [switch8x8Frp, butterfly8x8_eq_double,
    ← show _ = destOut 8 dest from funext (destOut_double dest 2)]
  exact (switch4x4Frp_switches dest).double (switch2x2Frp_switches (l := 2) dest (by decide))

theorem switch16x16Frp_switches (dest : word s → RouteId) :
    (switch16x16Frp dest : Block C word s 16 Inner16 Proc16).Switches (destOut 16 dest) := by
  rw [switch16x16Frp, butterfly16x16_eq_double,
    ← show _ = destOut 16 dest from funext (destOut_double dest 3)]
  exact (switch8x8Frp_switches dest).double (switch2x2Frp_switches (l := 3) dest (by decide))

end Members

end RidgeWalker.Switch
