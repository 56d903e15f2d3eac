import RidgeWalker.Bits.Ranges
import RidgeWalker.Memory.Engine

/-!
# Loading the queries

`query_loader` reads the queries of a run in groups of eight and emits the task of each on a lane
of its own.  A task packs the vertex, the number of the query and the walk length into fields of
40, 14 and 10 bits.

Main results:

- Theorem `queryLoader_decodes`: what the fields of every task decode to, and when the numbers of
  a run are different and its lengths are right.
- Theorem `queryLoader_repeats`: a run of 2049 groups repeats a number.
-/

namespace RidgeWalker.Urw

open Bits Memory

/-! ## The fields of a task -/

/-- `ap_rpa_vid`. -/
def rpaVid (data : BitVec 104) : BitVec 40 := range data 0 40

/-- `ap_rpa_qs`. -/
def rpaQs (data : BitVec 104) : BitVec 64 := range data 40 64

/-- `ap_qs_qid`. -/
def qsQid (qs : BitVec 64) : BitVec 14 := range qs 40 14

/-- `ap_qs_len`. -/
def qsLen (qs : BitVec 64) : BitVec 10 := range qs 54 10

/-! ## The loader -/

/-- `RPA_OUT`: the task of lane `i` in the group `qIndex`, whose eight vertices are `raw`. -/
def rpaOut (raw : BitVec 512) (qIndex len i : BitVec 32) : AxiPkg (BitVec 104) :=
  let vid : BitVec 64 := range raw (64 * i.toNat) 64
  let vertex : BitVec 40 := range vid 0 40
  let qs : BitVec 64 := setRange (0 : BitVec 64) 54 (len.setWidth 10)
  let qs := setRange qs 40 ((i + qIndex <<< 3).setWidth 14)
  ⟨setRange (setRange (0 : BitVec 104) 0 vertex) 40 qs, false⟩

/-- The groups that `query_loader` reads: none if their number is negative. -/
def groups (numQueryX8 : BitVec 32) : ℕ := numQueryX8.toInt.toNat

/-- What `query_loader` emits on lane `i`. -/
def queryLoader (mem : ℕ → BitVec 512) (numQueryX8 len : BitVec 32) (i : Fin 8) :
    List (AxiPkg (BitVec 104)) :=
  (List.range (groups numQueryX8)).map fun qIndex =>
    rpaOut (mem qIndex) (.ofNat 32 qIndex) len (.ofNat 32 i)

/-- The task of a query, which is given by its group and its lane. -/
def queryTask (mem : ℕ → BitVec 512) (len : BitVec 32) (q : ℕ × Fin 8) : BitVec 104 :=
  (rpaOut (mem q.1) (.ofNat 32 q.1) len (.ofNat 32 q.2)).data

theorem queryLoader_getElem? (mem : ℕ → BitVec 512) (numQueryX8 len : BitVec 32) (i : Fin 8)
    {qIndex : ℕ} (h : qIndex < groups numQueryX8) :
    (queryLoader mem numQueryX8 len i)[qIndex]? = some ⟨queryTask mem len (qIndex, i), false⟩ := by
  simp [queryLoader, h, queryTask, rpaOut]

/-! ## Decoding -/

section Decoding

variable (mem : ℕ → BitVec 512) (len : BitVec 32)

/-- The vertex of a task. -/
theorem rpaVid_queryTask (q : ℕ × Fin 8) :
    (rpaVid (queryTask mem len q)).toNat = (range (mem q.1) (64 * q.2) 64).toNat % 2 ^ 40 := by
  have hlane : (BitVec.ofNat 32 q.2).toNat = q.2 := by
    rw [BitVec.toNat_ofNat]
    omega
  rw [rpaVid, queryTask, rpaOut, range_setRange_of_disjoint _ _ (by omega) (by omega),
    range_setRange_self _ _ (by omega), toNat_range, hlane, pow_zero, Nat.div_one]

/-- The number in a task: only 14 bits of the number of the query are kept. -/
theorem qsQid_queryTask (q : ℕ × Fin 8) :
    (qsQid (rpaQs (queryTask mem len q))).toNat = (8 * q.1 + q.2) % 2 ^ 14 := by
  rw [qsQid, rpaQs, queryTask, rpaOut, range_setRange_self _ _ (by omega),
    range_setRange_self _ _ (by omega), BitVec.toNat_setWidth, BitVec.toNat_add,
    BitVec.toNat_shiftLeft, BitVec.toNat_ofNat, BitVec.toNat_ofNat, Nat.shiftLeft_eq]
  omega

/-- The length in a task: only 10 bits of it are kept. -/
theorem qsLen_queryTask (q : ℕ × Fin 8) :
    (qsLen (rpaQs (queryTask mem len q))).toNat = len.toNat % 2 ^ 10 := by
  rw [qsLen, rpaQs, queryTask, rpaOut, range_setRange_self _ _ (by omega),
    range_setRange_of_disjoint _ _ (by omega) (by omega), range_setRange_self _ _ (by omega),
    BitVec.toNat_setWidth]

end Decoding

/-! ## A run -/

/-- All queries of a run have different numbers. -/
def DifferentIds (mem : ℕ → BitVec 512) (numQueryX8 len : BitVec 32) : Prop :=
  ∀ p q : ℕ × Fin 8, p.1 < groups numQueryX8 → q.1 < groups numQueryX8 →
    qsQid (rpaQs (queryTask mem len p)) = qsQid (rpaQs (queryTask mem len q)) → p = q

/-- All queries of a run have the length that was asked for. -/
def RightLengths (mem : ℕ → BitVec 512) (numQueryX8 len : BitVec 32) : Prop :=
  ∀ q : ℕ × Fin 8, q.1 < groups numQueryX8 → (qsLen (rpaQs (queryTask mem len q))).toNat = len.toNat

/-- The vertex of every task that is emitted is that of the query, as far as 40 bits go. -/
def DecodesVertices (mem : ℕ → BitVec 512) (numQueryX8 len : BitVec 32) : Prop :=
  ∀ (i : Fin 8), (queryLoader mem numQueryX8 len i).length = groups numQueryX8 ∧
    ∀ qIndex < groups numQueryX8,
      (queryLoader mem numQueryX8 len i)[qIndex]? = some ⟨queryTask mem len (qIndex, i), false⟩ ∧
        (rpaVid (queryTask mem len (qIndex, i))).toNat =
          (range (mem qIndex) (64 * i) 64).toNat % 2 ^ 40

section Run

variable (mem : ℕ → BitVec 512) (numQueryX8 len : BitVec 32)

theorem decodesVertices : DecodesVertices mem numQueryX8 len := by
  intro i
  refine ⟨by simp [queryLoader], fun qIndex h => ⟨?_, rpaVid_queryTask mem len (qIndex, i)⟩⟩
  exact queryLoader_getElem? mem numQueryX8 len i h

/-- Numbers repeat as soon as there are more than `2 ^ 14` queries. -/
theorem differentIds_iff : DifferentIds mem numQueryX8 len ↔ groups numQueryX8 ≤ 2 ^ 11 := by
  constructor
  · intro hdifferent
    by_contra hmany
    have hsame : qsQid (rpaQs (queryTask mem len (0, 0))) = qsQid (rpaQs (queryTask mem len (2 ^ 11, 0))) := by
      apply BitVec.eq_of_toNat_eq
      rw [qsQid_queryTask, qsQid_queryTask]
      rfl
    have heq := hdifferent (0, 0) (2 ^ 11, 0) (by omega) (by omega) hsame
    exact absurd (congrArg Prod.fst heq) (by decide)
  · rintro hfew ⟨p, i⟩ ⟨q, j⟩ hp hq hsame
    have hid := congrArg BitVec.toNat hsame
    rw [qsQid_queryTask, qsQid_queryTask] at hid
    simp only at hp hq hid
    have hgroup : p = q := by omega
    have hlane : i = j := by omega
    rw [hgroup, hlane]

/-- Lengths are cut off from `2 ^ 10` on. -/
theorem rightLengths_iff :
    RightLengths mem numQueryX8 len ↔ groups numQueryX8 = 0 ∨ len.toNat < 2 ^ 10 := by
  constructor
  · intro hright
    rcases Nat.eq_zero_or_pos (groups numQueryX8) with hnone | hsome
    · exact .inl hnone
    · have hlen := hright (0, 0) hsome
      rw [qsLen_queryTask] at hlen
      omega
  · rintro (hnone | hlt) q hq
    · omega
    · rw [qsLen_queryTask]
      omega

/-- For every memory, every number of groups and every length: a task decodes to the vertex of
its query up to 40 bits, its number up to 14 bits and the length up to 10 bits.  So the numbers of
a run are different exactly up to `2 ^ 14` queries, and the lengths right exactly below
`2 ^ 10`. -/
theorem queryLoader_decodes :
    DecodesVertices mem numQueryX8 len ∧
      (∀ q : ℕ × Fin 8, (qsQid (rpaQs (queryTask mem len q))).toNat = (8 * q.1 + q.2) % 2 ^ 14 ∧
        (qsLen (rpaQs (queryTask mem len q))).toNat = len.toNat % 2 ^ 10) ∧
      (DifferentIds mem numQueryX8 len ↔ groups numQueryX8 ≤ 2 ^ 11) ∧
      (RightLengths mem numQueryX8 len ↔ groups numQueryX8 = 0 ∨ len.toNat < 2 ^ 10) :=
  ⟨decodesVertices mem numQueryX8 len, fun q => ⟨qsQid_queryTask mem len q, qsLen_queryTask mem len q⟩,
    differentIds_iff mem numQueryX8 len, rightLengths_iff mem numQueryX8 len⟩

end Run

/-- In a run of 2049 groups two queries have the same number. -/
theorem queryLoader_repeats :
    ¬ ∀ (mem : ℕ → BitVec 512) (numQueryX8 len : BitVec 32), 0 ≤ numQueryX8.toInt →
      0 ≤ len.toInt → DecodesVertices mem numQueryX8 len ∧ DifferentIds mem numQueryX8 len ∧
        RightLengths mem numQueryX8 len := by
  intro hall
  have hdifferent := (hall (fun _ => 0) 2049 79 (by decide) (by decide)).2.1
  exact absurd ((differentIds_iff _ _ _).mp hdifferent) (by decide)

end RidgeWalker.Urw
