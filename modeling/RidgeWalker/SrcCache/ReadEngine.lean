import RidgeWalker.Bits.Ranges
import RidgeWalker.Memory.Engine

/-!
# The lines of the source property cache

`read_with_request` answers every command with a burst of lines and the end of the commands with
two padding lines.  The processing elements keep the end of the highest line they have written.

Main results:

- Theorem `readWithRequest_lines`: the lines for commands in ascending order.
- Theorem `Lines.written`: a vertex below the highest end has its line among the written ones.
-/

namespace RidgeWalker.SrcCache

open Bits Memory

/-! ## `read_with_request` -/

/-- `cache_line_t`. -/
structure CacheLine where
  addr : BitVec 32
  data : Fin 16 → BitVec 32
deriving DecidableEq

/-- `cache_line_pkg_t`, and `cache_line_frp_item_t`. -/
abbrev CacheLinePkg := AxiPkg CacheLine

/-- `LOG2_SIZE_BY_INT`. -/
abbrev log2SizeByInt : ℕ := 4

/-- The index with which `command_convert` sets the flag of a command. -/
def endIdx (logCacheUpdateBurst : ℕ) : BitVec 32 :=
  0xffffffff#32 >>> (logCacheUpdateBurst + log2SizeByInt)

/-- The line `inner_idx` of a burst; `input` gives the property word of a vertex. -/
def burstLine (logCacheUpdateBurst : ℕ) (input : ℕ → BitVec 32) (idx : BitVec 32)
    (innerIdx : ℕ) : CacheLine :=
  let outerIdx := idx.toNat % (2 ^ 31 / 2 ^ logCacheUpdateBurst)
  let address := BitVec.ofNat 32 (outerIdx * 2 ^ (logCacheUpdateBurst + log2SizeByInt))
  { addr := address + BitVec.ofNat 32 (innerIdx * 16)
    data := fun k => input ((outerIdx * 2 ^ logCacheUpdateBurst + innerIdx) * 16 + k) }

/-- A line without data behind the last burst. -/
def paddingLine (addr : BitVec 32) : CacheLine := { addr := addr, data := fun _ => 0 }

/-- The lines that `read_with_request` writes for the indices that `command_convert` has read. -/
def readWithRequest (logCacheUpdateBurst : ℕ) (input : ℕ → BitVec 32) (lastAddr : BitVec 32) :
    List (BitVec 32) → List CacheLinePkg
  | [] => []
  | idx :: cmds =>
      if idx = endIdx logCacheUpdateBurst then
        [⟨paddingLine (lastAddr + 16), false⟩, ⟨paddingLine (lastAddr + 32), true⟩]
      else
        (List.range (2 ^ logCacheUpdateBurst)).map
            (fun innerIdx => ⟨burstLine logCacheUpdateBurst input idx innerIdx, false⟩) ++
          readWithRequest logCacheUpdateBurst input
            (burstLine logCacheUpdateBurst input idx (2 ^ logCacheUpdateBurst - 1)).addr cmds

/-! ## Lines by number -/

/-- Line `n` of the property words. -/
def lineRec (input : ℕ → BitVec 32) (n : ℕ) : CacheLine where
  addr := BitVec.ofNat 32 (n * 16)
  data k := input (n * 16 + k)

/-- A line stream: lines of property words in ascending order and some padding.  Two lines fit
in behind the last of them. -/
structure Lines (input : ℕ → BitVec 32) (nums : List ℕ) (l : List CacheLine) : Prop where
  ascending : nums.Pairwise (· < ·)
  bound : ∀ n ∈ nums, n + 2 ≤ 2 ^ 28
  padded : nums.map (lineRec input) <+: l

theorem burstLine_eq {log : ℕ} {input : ℕ → BitVec 32} {idx : BitVec 32} {inner : ℕ}
    (hlog : log ≤ 28) (hidx : idx.toNat < 2 ^ (28 - log)) :
    burstLine log input idx inner = lineRec input (idx.toNat * 2 ^ log + inner) := by
  have hpow : 2 ^ 31 / 2 ^ log = 2 ^ (31 - log) := Nat.pow_div (by omega) (by decide)
  have hle : (2 : ℕ) ^ (28 - log) ≤ 2 ^ (31 - log) := Nat.pow_le_pow_right (by decide) (by omega)
  have houter : idx.toNat % (2 ^ 31 / 2 ^ log) = idx.toNat :=
    Nat.mod_eq_of_lt (hpow ▸ hidx.trans_le hle)
  unfold burstLine lineRec
  simp only [houter, CacheLine.mk.injEq, and_true]
  rw [← BitVec.ofNat_add, pow_add]
  congr 1
  ring

/-- The numbers of the lines of some bursts. -/
def burstNums (log : ℕ) (cmds : List (BitVec 32)) : List ℕ :=
  cmds.flatMap fun idx => (List.range (2 ^ log)).map fun inner => idx.toNat * 2 ^ log + inner

theorem mem_burstNums {log : ℕ} {cmds : List (BitVec 32)} {n : ℕ} :
    n ∈ burstNums log cmds ↔ ∃ idx ∈ cmds, n / 2 ^ log = idx.toNat := by
  have hpos : 0 < 2 ^ log := Nat.two_pow_pos log
  simp only [burstNums, List.mem_flatMap, List.mem_map, List.mem_range]
  constructor
  · rintro ⟨idx, hidx, inner, hinner, rfl⟩
    refine ⟨idx, hidx, ?_⟩
    rw [Nat.add_comm, Nat.add_mul_div_right _ _ hpos, Nat.div_eq_of_lt hinner, Nat.zero_add]
  · rintro ⟨idx, hidx, hn⟩
    refine ⟨idx, hidx, n % 2 ^ log, Nat.mod_lt _ hpos, ?_⟩
    rw [← hn]
    exact Nat.div_add_mod' n (2 ^ log)

theorem endIdx_toNat {log : ℕ} (hlog : log ≤ 28) :
    (endIdx log).toNat + 1 = 2 ^ (28 - log) := by
  have hpow : (0xffffffff#32).toNat + 1 = 2 ^ (28 - log) * 2 ^ (log + 4) := by
    rw [← pow_add]
    have hsum : 28 - log + (log + 4) = 32 := by omega
    rw [hsum]
    rfl
  rw [endIdx, BitVec.toNat_ushiftRight, Nat.shiftRight_eq_div_pow]
  have hpos : 0 < 2 ^ (log + 4) := Nat.two_pow_pos _
  have hone : 0 < 2 ^ (28 - log) := Nat.two_pow_pos _
  have hquot : (0xffffffff#32).toNat / 2 ^ (log + 4) = 2 ^ (28 - log) - 1 := by
    refine Nat.div_eq_of_lt_le ?_ ?_
    · rw [Nat.sub_mul]
      omega
    · rw [Nat.sub_add_cancel hone]
      omega
  rw [hquot]
  omega

/-- The numbers of the lines of bursts in ascending order are in ascending order. -/
theorem burstNums_pairwise {log : ℕ} {cmds : List (BitVec 32)} (h : cmds.Pairwise (· < ·)) :
    (burstNums log cmds).Pairwise (· < ·) := by
  refine List.pairwise_flatMap.mpr ⟨fun idx _ => ?_, h.imp fun {a b} hab x hx y hy => ?_⟩
  · exact List.pairwise_map.mpr (List.pairwise_lt_range.imp fun h => by omega)
  · obtain ⟨i, hi, rfl⟩ := List.mem_map.mp hx
    obtain ⟨j, -, rfl⟩ := List.mem_map.mp hy
    rw [List.mem_range] at hi
    have hlt : a.toNat + 1 ≤ b.toNat := hab
    have hmul := Nat.mul_le_mul_right (2 ^ log) hlt
    rw [Nat.add_mul] at hmul
    omega

/-- The lines that answer ascending commands. -/
theorem readWithRequest_lines {log : ℕ} (hlog : log ≤ 28) (input : ℕ → BitVec 32)
    {cmds : List (BitVec 32)} (hasc : cmds.Pairwise (· < ·)) (hend : ∀ idx ∈ cmds, idx < endIdx log) :
    Lines input (burstNums log cmds)
      ((readWithRequest log input 0 (cmds ++ [endIdx log])).map AxiPkg.data) := by
  have htop := endIdx_toNat hlog
  have hbound : ∀ idx ∈ cmds, idx.toNat + 1 < 2 ^ (28 - log) := fun idx hidx => by
    have hlt : idx.toNat < (endIdx log).toNat := hend idx hidx
    omega
  refine ⟨burstNums_pairwise hasc, fun n hn => ?_, ?_⟩
  · obtain ⟨idx, hidx, hquot⟩ := mem_burstNums.mp hn
    have hpow : 2 ^ (28 - log) * 2 ^ log = 2 ^ 28 := by
      rw [← pow_add, Nat.sub_add_cancel hlog]
    have hmul := Nat.mul_le_mul_right (2 ^ log) (hbound idx hidx)
    have hmod := Nat.mod_lt n (Nat.two_pow_pos log)
    have hdiv := Nat.div_add_mod' n (2 ^ log)
    rw [hquot] at hdiv
    have hone := Nat.two_pow_pos log
    rw [Nat.succ_mul, Nat.succ_mul, hpow] at hmul
    omega
  · generalize (0 : BitVec 32) = lastAddr
    induction cmds generalizing lastAddr with
    | nil => exact List.nil_prefix
    | cons idx cmds ih =>
        have hne : idx ≠ endIdx log := BitVec.ne_of_lt (hend idx List.mem_cons_self)
        have hidx := hbound idx List.mem_cons_self
        rw [List.cons_append, readWithRequest, if_neg hne, List.map_append, burstNums,
          List.flatMap_cons, List.map_append]
        have hburst : ((List.range (2 ^ log)).map fun inner => idx.toNat * 2 ^ log + inner).map
            (lineRec input) = ((List.range (2 ^ log)).map fun innerIdx =>
              (⟨burstLine log input idx innerIdx, false⟩ : CacheLinePkg)).map AxiPkg.data := by
          rw [List.map_map, List.map_map]
          refine List.map_congr_left fun inner _ => ?_
          exact (burstLine_eq hlog (by omega)).symm
        rw [hburst]
        refine (List.prefix_append_right_inj _).mpr (ih hasc.of_cons
          (fun i hi => hend i (.tail _ hi)) (fun i hi => hbound i (.tail _ hi)) _)

/-! ## The end of the written lines -/

/-- The first vertex behind a line. -/
def CacheLine.lineEnd (l : CacheLine) : BitVec 32 := (l.addr &&& 0xfffffff0#32) + 16

/-- `max_vertex_index` after a line has been written. -/
def raise (maxVertexIndex : BitVec 32) (l : CacheLine) : BitVec 32 :=
  if maxVertexIndex < l.lineEnd then l.lineEnd else maxVertexIndex

/-- `max_vertex_index` after some lines have been written. -/
def maxIndex (l : List CacheLine) : BitVec 32 := l.foldl raise 0

theorem maxIndex_append (l : List CacheLine) (x : CacheLine) :
    maxIndex (l ++ [x]) = raise (maxIndex l) x := by
  rw [maxIndex, List.foldl_append]
  rfl

/-- A vertex is below the highest end exactly if it is below the end of some line. -/
theorem lt_maxIndex {l : List CacheLine} {u : BitVec 32} :
    u < maxIndex l ↔ ∃ x ∈ l, u < x.lineEnd := by
  induction l using List.reverseRecOn with
  | nil => simp [maxIndex]
  | append_singleton l x ih =>
      have hraise : u < raise (maxIndex l) x ↔ u < maxIndex l ∨ u < x.lineEnd := by
        unfold raise
        simp only [BitVec.lt_def]
        split <;> omega
      rw [maxIndex_append, hraise, ih]
      constructor
      · rintro (⟨y, hy, hu⟩ | hu)
        · exact ⟨y, List.mem_append_left _ hy, hu⟩
        · exact ⟨x, by simp, hu⟩
      · rintro ⟨y, hy, hu⟩
        rcases List.mem_append.mp hy with hy | hy
        · exact .inl ⟨y, hy, hu⟩
        · exact .inr (List.mem_singleton.mp hy ▸ hu)

section Written

variable {input : ℕ → BitVec 32} {nums : List ℕ} {l : List CacheLine} (h : Lines input nums l)

include h

/-- The lines of property words end behind their last vertex. -/
theorem Lines.toNat_lineEnd {n : ℕ} (hn : n ∈ nums) :
    (lineRec input n).lineEnd.toNat = n * 16 + 16 := by
  have hbound := h.bound n hn
  have haddr : (BitVec.ofNat 32 (n * 16)).toNat = n * 16 := by
    rw [BitVec.toNat_ofNat, Nat.mod_eq_of_lt (by omega)]
  rw [CacheLine.lineEnd, lineRec, BitVec.toNat_add, toNat_and_fffffff0, haddr,
    Nat.mul_div_cancel _ (by decide)]
  have hsixteen : (16 : BitVec 32).toNat = 16 := rfl
  rw [hsixteen]
  exact Nat.mod_eq_of_lt (by omega)

/-- A vertex below the highest end of the first lines has its line among them. -/
theorem Lines.written {w : List CacheLine} (hw : w <+: l) {u : BitVec 32}
    (hu : u.toNat / 16 ∈ nums) (hlt : u < maxIndex w) : lineRec input (u.toNat / 16) ∈ w := by
  rcases List.prefix_or_prefix_of_prefix h.padded hw with hall | hsome
  · exact hall.subset (List.mem_map_of_mem hu)
  -- The lines written are the first of the lines of property words.
  obtain ⟨x, hx, hend⟩ := lt_maxIndex.mp hlt
  have htake := List.prefix_iff_eq_take.mp hsome
  rw [← List.map_take] at htake
  rw [htake] at hx ⊢
  obtain ⟨n, hn, rfl⟩ := List.mem_map.mp hx
  have hle : u.toNat / 16 ≤ n := by
    have hlt : u.toNat < _ := hend
    rw [h.toNat_lineEnd (List.mem_of_mem_take hn)] at hlt
    omega
  refine List.mem_map_of_mem ?_
  have hsplit := List.take_append_drop w.length nums
  rw [← hsplit] at hu
  rcases List.mem_append.mp hu with hu | hu
  · exact hu
  · have hasc := h.ascending
    rw [← hsplit] at hasc
    exact absurd ((List.pairwise_append.mp hasc).2.2 n hn _ hu) (by omega)

/-- A vertex that is below the highest end only since the last line belongs to that line. -/
theorem Lines.written_last {w : List CacheLine} {x : CacheLine} (hw : w ++ [x] <+: l)
    {u : BitVec 32} (hu : u.toNat / 16 ∈ nums) (hlt : u < maxIndex (w ++ [x]))
    (hge : ¬ u < maxIndex w) : x = lineRec input (u.toNat / 16) := by
  rcases List.mem_append.mp (h.written hw hu hlt) with hmem | hmem
  · refine absurd (lt_maxIndex.mpr ⟨_, hmem, ?_⟩) hge
    rw [BitVec.lt_def, h.toNat_lineEnd hu]
    omega
  · exact (List.mem_singleton.mp hmem).symm

end Written

end RidgeWalker.SrcCache
