import RidgeWalker.Bits.Cycles
import RidgeWalker.Dataflow.Execution
import RidgeWalker.Rng.Leapfrog

/-!
# The periods of the generators

The lanes of `rng_instance` mix two generators: the linear congruential one of `irsgu`, which all of
them share, and a xorshift generator of their own.  The seeds of the xorshift generators are terms of
one orbit, far apart from each other.

Main results:

- Theorem `irsgu_never_repeats`: `irsgu` sends no state twice within `2^64` states.
- Theorem `xorshiftjump_disjoint`: the orbit of a xorshift generator runs through all words but
  zero, and when two lanes draw the same word.
-/

namespace RidgeWalker.Rng

open Bits Dataflow Function

/-! ## The xorshift generators -/

/-- `xorshiftjump`. -/
def xorshiftjump (s : BitVec 32) : BitVec 32 :=
  let y := s
  let y := y ^^^ (y <<< 13)
  let y := y ^^^ (y >>> 17)
  y ^^^ (y <<< 5)

/-- The seeds of `tmp_xor32_s` that the sixteen lanes take, and the one before them. -/
def tmpXor32s : Fin 17 → BitVec 32 := ![
  0xa0f16c6d, 0xe4f4bd4c, 0x56539039, 0x263ac600, 0x00726cdd, 0x38dad260,
  0xb2552483, 0xa389e885, 0xe11450c8, 0x942031e2, 0xdc1a44d6, 0x8a9545dd,
  0xc4edb11a, 0x8acb85f0, 0x66c07a3c, 0x6e3bea66, 0x6070b9a2]

/-- Steps between two seeds. -/
def seedSteps : ℕ := 1048573

theorem xorshiftjump_linear : XorLinear xorshiftjump :=
  (shiftLeft_linear 5).comp ((ushiftRight_linear 17).comp (shiftLeft_linear 13))

/-- Many steps of the generator, by doubling. -/
theorem iterate_xorshiftjump {n : ℕ} (hn : n < 2 ^ 32) (x : BitVec 32) :
    xorshiftjump^[n] x = BitVec.ofNat 32 (advance 32 (columns xorshiftjump 0 32) n x.toNat) := by
  rw [advance_eq (represents_columns xorshiftjump_linear) 32 n hn, BitVec.ofNat_toNat,
    BitVec.setWidth_eq]

/-- The prime factors of the number of words but zero. -/
theorem prime_dvd_words {p : ℕ} (hp : p.Prime) (hdvd : p ∣ 2 ^ 32 - 1) :
    p ∈ [3, 5, 17, 257, 65537] := by
  rw [show 2 ^ 32 - 1 = 3 * (5 * (17 * (257 * 65537))) by norm_num, hp.dvd_mul, hp.dvd_mul,
    hp.dvd_mul, hp.dvd_mul, Nat.prime_dvd_prime_iff_eq hp (by norm_num),
    Nat.prime_dvd_prime_iff_eq hp (by norm_num), Nat.prime_dvd_prime_iff_eq hp (by norm_num),
    Nat.prime_dvd_prime_iff_eq hp (by norm_num), Nat.prime_dvd_prime_iff_eq hp (by norm_num)] at hdvd
  simp only [List.mem_cons, List.not_mem_nil, or_false]
  exact hdvd

/-- The first seed has the longest period possible. -/
theorem minimalPeriod_first : minimalPeriod xorshiftjump (tmpXor32s 0) = 2 ^ 32 - 1 := by
  have horbit : advance 32 (columns xorshiftjump 0 32) (2 ^ 32 - 1) (tmpXor32s 0).toNat =
      (tmpXor32s 0).toNat ∧ ∀ p ∈ [3, 5, 17, 257, 65537],
        advance 32 (columns xorshiftjump 0 32) ((2 ^ 32 - 1) / p) (tmpXor32s 0).toNat ≠
          (tmpXor32s 0).toNat := by
    decide +kernel
  have hrep := represents_columns xorshiftjump_linear
  refine minimalPeriod_eq_of_primes ?_ fun p hp hdvd heq => ?_
  · apply BitVec.eq_of_toNat_eq
    rw [← advance_eq hrep 32 _ (by norm_num)]
    exact horbit.1
  · refine horbit.2 p (prime_dvd_words hp hdvd) ?_
    rw [advance_eq hrep 32 _ ((Nat.div_le_self _ _).trans_lt (by norm_num)), heq]

theorem first_mem_periodicPts : tmpXor32s 0 ∈ periodicPts xorshiftjump :=
  minimalPeriod_pos_iff_mem_periodicPts.mp (by rw [minimalPeriod_first]; decide)

/-- Every term of the orbit of the first seed has its period. -/
theorem minimalPeriod_iterate (k : ℕ) :
    minimalPeriod xorshiftjump (xorshiftjump^[k] (tmpXor32s 0)) = 2 ^ 32 - 1 := by
  rw [minimalPeriod_apply_iterate first_mem_periodicPts, minimalPeriod_first]

/-- The orbit of the first seed runs through all words but zero. -/
theorem exists_iterate {x : BitVec 32} (hx : x ≠ 0#32) :
    ∃ k < 2 ^ 32 - 1, xorshiftjump^[k] (tmpXor32s 0) = x := by
  refine orbit_covers (S := Finset.univ.erase 0#32) minimalPeriod_first (fun k => ?_) ?_
    (by simpa using hx)
  · rw [Finset.mem_erase]
    refine ⟨fun hk => ?_, Finset.mem_univ _⟩
    -- The orbit would stay at zero.
    have hperiod := minimalPeriod_iterate k
    rw [hk, minimalPeriod_eq_one_iff_isFixedPt.mpr xorshiftjump_linear.map_zero] at hperiod
    cases hperiod
  · rw [Finset.card_erase_of_mem (Finset.mem_univ _), Finset.card_univ,
      ← FinEnum.card_eq_fintypeCard, FinEnum.card_bitVec]

/-- The seeds are terms of one orbit. -/
theorem tmpXor32s_succ (i : ℕ) (hi : i < 16) :
    tmpXor32s ⟨i + 1, by omega⟩ = xorshiftjump^[seedSteps] (tmpXor32s ⟨i, by omega⟩) := by
  have horbit : ∀ i : Fin 16, advance 20 (columns xorshiftjump 0 32) seedSteps
      (tmpXor32s i.castSucc).toNat = (tmpXor32s i.succ).toNat := by
    decide +kernel
  apply BitVec.eq_of_toNat_eq
  rw [← advance_eq (represents_columns xorshiftjump_linear) 20 _ (by decide)]
  exact (horbit ⟨i, hi⟩).symm

theorem tmpXor32s_eq (i : ℕ) (hi : i < 17) :
    tmpXor32s ⟨i, hi⟩ = xorshiftjump^[seedSteps * i] (tmpXor32s 0) := by
  induction i with
  | zero => rfl
  | succ i ih =>
      rw [tmpXor32s_succ i (by omega), ih (by omega), ← iterate_add_apply, Nat.mul_succ,
        Nat.add_comm]

/-- The xorshift generator started from any word but zero draws each word but zero once in `2^32 - 1`
steps.  The generators of two lanes draw the same word exactly if they are at the same place of that
cycle: the seeds are `1048573` steps apart from each other. -/
theorem xorshiftjump_disjoint :
    (∀ x y : BitVec 32, x ≠ 0 → y ≠ 0 → ∃! k, k < 2 ^ 32 - 1 ∧ xorshiftjump^[k] x = y) ∧
      ∀ (i j : Fin 17) (k l : ℕ),
        xorshiftjump^[k] (tmpXor32s i) = xorshiftjump^[l] (tmpXor32s j) ↔
          (seedSteps * i + k) % (2 ^ 32 - 1) = (seedSteps * j + l) % (2 ^ 32 - 1) := by
  refine ⟨fun x y hx hy => ?_, fun i j k l => ?_⟩
  · obtain ⟨a, ha, rfl⟩ := exists_iterate hx
    obtain ⟨b, hb, rfl⟩ := exists_iterate hy
    have hmeet : ∀ k, xorshiftjump^[k] (xorshiftjump^[a] (tmpXor32s 0)) =
        xorshiftjump^[b] (tmpXor32s 0) ↔ (k + a) % (2 ^ 32 - 1) = b % (2 ^ 32 - 1) := fun k => by
      rw [← iterate_add_apply, iterate_eq_iff_mod minimalPeriod_first (by decide)]
    refine ⟨(b + (2 ^ 32 - 1 - a)) % (2 ^ 32 - 1), ⟨Nat.mod_lt _ (by decide), (hmeet _).mpr ?_⟩, ?_⟩
    · omega
    · rintro k ⟨hk, hkb⟩
      have hmod := (hmeet k).mp hkb
      omega
  · rw [tmpXor32s_eq i.val i.isLt, tmpXor32s_eq j.val j.isLt, ← iterate_add_apply,
      ← iterate_add_apply, iterate_eq_iff_mod minimalPeriod_first (by decide), Nat.add_comm k,
      Nat.add_comm l]

/-! ## The congruential generator -/

/-- The states of the congruential generator come back after `2^64` steps and no sooner. -/
theorem minimalPeriod_affine (x : BitVec 64) : minimalPeriod (affine rngA rngInc) x = 2 ^ 64 := by
  have hall : doubled^[64] (rngA, rngInc) = (1, 0) := by decide +kernel
  have hhalf : doubled^[63] (rngA, rngInc) = (1, 0x8000000000000000#64) := by decide +kernel
  refine minimalPeriod_eq_of_primes ?_ fun p hp hdvd => ?_
  · rw [iterate_affine, skip_two_pow, hall]
    simp [affine]
  · obtain rfl : p = 2 := (Nat.prime_dvd_prime_iff_eq hp Nat.prime_two).mp
      (hp.dvd_of_dvd_pow hdvd)
    rw [show (2 : ℕ) ^ 64 / 2 = 2 ^ 63 by norm_num, iterate_affine, skip_two_pow, hhalf]
    intro heq
    simp [affine] at heq

/-- For all depths of the streams and every interleaving: two states that leave `irsgu` are equal
exactly if a multiple of `2^64` states is between them. -/
theorem irsgu_never_repeats (depth : Stream → ℕ) {s : (irsgu depth).State}
    (hs : (irsgu depth).Reachable s) {i j : ℕ} {x y : BitVec 64}
    (hi : (s.written (chan .out))[i]? = some x) (hj : (s.written (chan .out))[j]? = some y) :
    x = y ↔ i % 2 ^ 64 = j % 2 ^ 64 := by
  have hterm : ∀ {n : ℕ} {z : BitVec 64}, (s.written (chan .out))[n]? = some z →
      z = (affine rngA rngInc)^[n] (initStateArray 0) := by
    intro n z hz
    obtain ⟨hn, -⟩ := List.getElem?_eq_some_iff.mp hz
    rw [written_out hs, List.getElem?_map, List.getElem?_range hn] at hz
    rw [← baseSequence_eq]
    exact (Option.some.inj hz).symm
  rw [hterm hi, hterm hj]
  exact iterate_eq_iff_mod (minimalPeriod_affine _) (by decide) i j

instance : Fintype Proc where
  elems := insert .merge ((Finset.univ : Finset (Fin breakNum)).image .update)
  complete p := by
    cases p with
    | update id => simp
    | merge => simp

/-- The first two states leave `irsgu`. -/
def drawTwo : List (irsgu fun _ => 2).Action :=
  (List.finRange breakNum).map (fun id => .fire (.update id) none) ++
    List.replicate 11 (.fire .merge none)

theorem irsgu_never_repeats_second : ∃ (s : (irsgu fun _ => 2).State) (x y : BitVec 64),
    s.written (chan .out) = [x, y] ∧ x ≠ y := by
  obtain ⟨tr, s, hs⟩ : ∃ tr s, Network.execute (fun _ _ => True) drawTwo []
      (irsgu fun _ => 2).init = some (tr, s) := ⟨_, _, rfl⟩
  have hwords : s.written (chan .out) = [0x185706b82c2e03f8#64, 0x2b47fed88766bb05#64] := by
    cases hs
    decide +kernel
  refine ⟨s, _, _, hwords, fun heq => ?_⟩
  have hmod := (irsgu_never_repeats (fun _ => 2) ⟨tr, (Network.execute_run .nil hs).run⟩
    (i := 0) (j := 1) (by rw [hwords]; rfl) (by rw [hwords]; rfl)).mp heq
  omega

end RidgeWalker.Rng
