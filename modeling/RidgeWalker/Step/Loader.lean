import RidgeWalker.Ring.Manager

/-!
# Loading the queries of a step

`step_loader` reads the queries of a run in blocks of thirty-two and emits every word of a block.
The test for the last query compares with the size of the run, but a block is never cut short.

Main results:

- Theorem `stepLoader_run`: what is read and what is emitted for any size, block by block.
- Theorem `stepLoader_loads_iff`: a run is loaded as intended exactly if its size is a multiple
  of the size of a block.
-/

namespace RidgeWalker.Step

open Ring

/-- `query_metadata_t`. -/
structure QueryMetadata where
  currVertex : BitVec 32
  remainStep : BitVec 32
deriving DecidableEq

/-- `step_metadata_pkg_t` together with its field `assert`. -/
structure LoadedPkg where
  pkg : StepMetadataPkg
  assert : BitVec 32
deriving DecidableEq

/-- `BURST_BUFFER_SIZE`. -/
abbrev burstBufferSize : ℕ := 32

/-! ## The loop -/

/-- The package for the word `a` at index `i + j`. -/
def newQuery (size prop : BitVec 32) (a : QueryMetadata) (index : BitVec 32) : LoadedPkg where
  pkg :=
    { data :=
        { currVertex := a.currVertex
          remainStep := a.remainStep
          state := 0
          ringState := 0
          innerState := index }
      last := decide (index = size - 1) }
  assert := prop

/-- The indices of the memory words that are read, and the packages that are written. -/
structure Loaded where
  reads : List (BitVec 32)
  queries : List LoadedPkg

/-- One iteration of the outer loop: the loop that fills `buffer`, then the loop that emits it. -/
def loadBlock (mem : BitVec 32 → QueryMetadata) (size prop i : BitVec 32) : Loaded :=
  let buffer := fun j : Fin burstBufferSize => mem (i + .ofNat 32 j)
  { reads := List.ofFn fun j : Fin burstBufferSize => i + .ofNat 32 j
    queries := List.ofFn fun j => newQuery size prop (buffer j) (i + .ofNat 32 j) }

/-- The outer loop from `i` on, if it stops within `fuel` iterations. -/
def loadBlocks (mem : BitVec 32 → QueryMetadata) (size prop : BitVec 32) :
    ℕ → BitVec 32 → Option Loaded
  | fuel, i =>
      if i.slt size then
        match fuel with
        | 0 => none
        | fuel + 1 =>
            let block := loadBlock mem size prop i
            (loadBlocks mem size prop fuel (i + .ofNat 32 burstBufferSize)).map fun rest =>
              ⟨block.reads ++ rest.reads, block.queries ++ rest.queries⟩
      else some ⟨[], []⟩

/-- `step_loader`, if its loop stops within `fuel` iterations. -/
def stepLoader (fuel : ℕ) (mem : BitVec 32 → QueryMetadata) (size prop : BitVec 32) :
    Option Loaded :=
  loadBlocks mem size prop fuel 0

section Runs

variable (mem : BitVec 32 → QueryMetadata) (size prop : BitVec 32)

/-- The package of word `i`. -/
def queryAt (i : ℕ) : LoadedPkg := newQuery size prop (mem (.ofNat 32 i)) (.ofNat 32 i)

/-! ## Runs -/

/-- A block reads and emits its thirty-two words. -/
theorem loadBlock_eq (lo : ℕ) :
    loadBlock mem size prop (.ofNat 32 lo) =
      ⟨(List.range' lo burstBufferSize).map (.ofNat 32 ·),
        (List.range' lo burstBufferSize).map (queryAt mem size prop)⟩ := by
  have hword : ∀ j : Fin burstBufferSize,
      BitVec.ofNat 32 lo + BitVec.ofNat 32 j = BitVec.ofNat 32 (lo + j) := by
    intro j
    rw [BitVec.ofNat_add]
  rw [loadBlock, List.range'_eq_map_range, ← List.map_coe_finRange_eq_range, List.map_map,
    List.map_map, List.map_map, List.ofFn_eq_map, List.ofFn_eq_map]
  simp only [hword]
  rfl

theorem slt_ofNat {i : ℕ} (hi : i < 2 ^ 31) :
    (BitVec.ofNat 32 i).slt size = true ↔ (i : ℤ) < size.toInt := by
  have hnat : (BitVec.ofNat 32 i).toNat = i := by
    rw [BitVec.toNat_ofNat]
    omega
  have hint : (BitVec.ofNat 32 i).toInt = i := by
    rw [BitVec.toInt_eq_toNat_of_lt (by omega), hnat]
  rw [BitVec.slt_iff_toInt_lt, hint]

/-- The loop at block `k`, when `n` blocks are left. -/
theorem loadBlocks_run {blocks : ℕ} (hblocks : burstBufferSize * blocks < 2 ^ 31)
    (henough : size.toInt ≤ burstBufferSize * blocks)
    (hneeded : ∀ k < blocks, (burstBufferSize * k : ℤ) < size.toInt) (n k : ℕ)
    (hk : k + n = blocks) :
    loadBlocks mem size prop n (.ofNat 32 (burstBufferSize * k)) =
      some ⟨(List.range' (burstBufferSize * k) (burstBufferSize * n)).map (.ofNat 32 ·),
        (List.range' (burstBufferSize * k) (burstBufferSize * n)).map
          (queryAt mem size prop)⟩ := by
  induction n generalizing k with
  | zero =>
      obtain rfl : k = blocks := hk
      have hstop : ¬(BitVec.ofNat 32 (burstBufferSize * k)).slt size = true := by
        rw [slt_ofNat size hblocks]
        push_cast
        exact not_lt.mpr henough
      rw [loadBlocks, if_neg hstop]
      rfl
  | succ n ih =>
      have hgo : (BitVec.ofNat 32 (burstBufferSize * k)).slt size = true := by
        rw [slt_ofNat size ((Nat.mul_le_mul_left _ (by omega)).trans_lt hblocks)]
        push_cast
        exact hneeded k (by omega)
      have hnext : BitVec.ofNat 32 (burstBufferSize * k) + .ofNat 32 burstBufferSize =
          .ofNat 32 (burstBufferSize * (k + 1)) := by
        rw [← BitVec.ofNat_add, Nat.mul_add_one]
      have hrange : List.range' (burstBufferSize * k) (burstBufferSize * (n + 1)) =
          List.range' (burstBufferSize * k) burstBufferSize ++
            List.range' (burstBufferSize * (k + 1)) (burstBufferSize * n) := by
        rw [Nat.mul_add_one burstBufferSize k, List.range'_append_1, Nat.mul_add_one,
          Nat.add_comm burstBufferSize]
      rw [loadBlocks, if_pos hgo]
      simp only [hnext, ih (k + 1) (by omega), Option.map_some, loadBlock_eq, hrange,
        List.map_append]

/-- What is read and what is emitted: all words of the blocks that hold a query. -/
theorem stepLoader_run {blocks : ℕ} (hblocks : burstBufferSize * blocks < 2 ^ 31)
    (henough : size.toInt ≤ burstBufferSize * blocks)
    (hneeded : ∀ k < blocks, (burstBufferSize * k : ℤ) < size.toInt) :
    stepLoader blocks mem size prop =
      some ⟨(List.range (burstBufferSize * blocks)).map (.ofNat 32 ·),
        (List.range (burstBufferSize * blocks)).map (queryAt mem size prop)⟩ := by
  have hrun := loadBlocks_run mem size prop hblocks henough hneeded blocks 0 (Nat.zero_add _)
  rw [stepLoader, List.range_eq_range']
  exact hrun

/-- However far the loop runs, it emits whole blocks. -/
theorem loadBlocks_dvd {fuel : ℕ} {i : BitVec 32} {out : Loaded}
    (h : loadBlocks mem size prop fuel i = some out) : burstBufferSize ∣ out.queries.length := by
  induction fuel generalizing i out with
  | zero =>
      rw [loadBlocks] at h
      split at h
      · cases h
      · cases h
        exact dvd_zero _
  | succ fuel ih =>
      rw [loadBlocks] at h
      split at h
      · obtain ⟨rest, hrest, rfl⟩ := Option.map_eq_some_iff.mp h
        rw [List.length_append, loadBlock, List.length_ofFn]
        exact Nat.dvd_add (dvd_refl _) (ih hrest)
      · cases h
        exact dvd_zero _

/-! ## Loading as intended -/

/-- `step_loader` stops; it has emitted one query for each of the first `size` words, in order and
with its own index, the last flag is on the final one only, and no word from `size` on has been
read. -/
def Loads : Prop :=
  ∃ fuel out, stepLoader fuel mem size prop = some out ∧
    out.queries.length = size.toNat ∧
    (∀ i < size.toNat, out.queries[i]? = some
      { pkg :=
          { data :=
              { currVertex := (mem (.ofNat 32 i)).currVertex
                remainStep := (mem (.ofNat 32 i)).remainStep
                state := 0
                ringState := 0
                innerState := .ofNat 32 i }
            last := decide (i + 1 = size.toNat) }
        assert := prop }) ∧
    ∀ a ∈ out.reads, a.toInt < size.toInt

theorem dvd_of_loads (h : Loads mem size prop) : burstBufferSize ∣ size.toNat := by
  obtain ⟨fuel, out, hout, hlength, -⟩ := h
  rw [← hlength]
  exact loadBlocks_dvd mem size prop hout

theorem loads_of_dvd (hsize : 1 ≤ size.toInt) (h : burstBufferSize ∣ size.toNat) :
    Loads mem size prop := by
  obtain ⟨blocks, hblocks⟩ := h
  have hlt := BitVec.two_mul_toInt_lt (x := size)
  have hnat : size.toInt = size.toNat := by
    rw [BitVec.toInt_eq_toNat_cond] at hsize hlt ⊢
    split_ifs at hsize ⊢ <;> omega
  have hrun : stepLoader blocks mem size prop = _ :=
    stepLoader_run mem size prop (by omega) (by omega) fun k hk => by
      have hbelow := Nat.mul_lt_mul_of_pos_left hk (by decide : 0 < burstBufferSize)
      omega
  refine ⟨blocks, _, hrun, by simp [← hblocks], fun i hi => ?_, fun a ha => ?_⟩
  · have hlast : BitVec.ofNat 32 i = size - 1 ↔ i + 1 = size.toNat := by
      have hone : (1 : BitVec 32).toNat = 1 := rfl
      rw [← BitVec.toNat_inj, BitVec.toNat_ofNat, BitVec.toNat_sub, hone]
      omega
    rw [← hblocks, List.getElem?_map, List.getElem?_range hi, Option.map_some, queryAt, newQuery]
    simp only [hlast]
  · obtain ⟨i, hi, rfl⟩ := List.mem_map.mp ha
    rw [List.mem_range, ← hblocks] at hi
    have hword : (BitVec.ofNat 32 i).toNat = i := by
      rw [BitVec.toNat_ofNat]
      omega
    rw [BitVec.toInt_eq_toNat_of_lt (by omega), hword, hnat]
    exact_mod_cast hi

end Runs

/-- A run is loaded as intended exactly if its size is a multiple of the size of a block. -/
theorem stepLoader_loads_iff (mem : BitVec 32 → QueryMetadata) (size prop : BitVec 32)
    (hsize : 1 ≤ size.toInt) : Loads mem size prop ↔ burstBufferSize ∣ size.toNat :=
  ⟨dvd_of_loads mem size prop, loads_of_dvd mem size prop hsize⟩

/-- Two blocks are loaded as intended. -/
theorem stepLoader_loads_two_blocks : Loads (fun _ => ⟨0, 5⟩) 64 10 :=
  (stepLoader_loads_iff (fun _ => ⟨0, 5⟩) 64 10 (by decide)).mpr (by decide)

/-- A run of 513 queries, which the host may ask for, is not loaded as intended. -/
theorem stepLoader_misloads :
    ¬∀ (mem : BitVec 32 → QueryMetadata) (size prop : BitVec 32), 1 ≤ size.toInt →
      Loads mem size prop := by
  intro h
  have hdvd := dvd_of_loads _ _ _ (h (fun _ => ⟨0, 5⟩) 513 10 (by decide))
  exact absurd hdvd (by decide)

end RidgeWalker.Step
