import RidgeWalker.Dataflow.Plans
import RidgeWalker.SrcCache.ReadEngine

/-!
# Looking up source properties

`src_cache_pe_frp` fills a table of lines, a line number modulo its size selecting the position,
and answers the sources it reads from the table.  A line is written when the end of the lines
before it is less than a table size beyond the line of the source read last.

Main results:

- Definition `Spared`: no line is let in that displaces the line of a source still to be read.
- Theorem `Serving.hit`: a source that is looked up finds its own property word.
- Theorem `peAhead_pursues`: `src_cache_pe_frp` answers every source with its property word.
-/

namespace RidgeWalker.SrcCache

open Bits Dataflow Memory

/-! ## `src_cache_pe_frp` -/

/-- `CACHE_SIZE`. -/
def cacheSize : BitVec 32 := 65536#32

/-- The position of a vertex or a line in every memory. -/
def cacheAddress (x : BitVec 32) : BitVec 32 := (x &&& 0xffff#32) >>> 4

/-- The memory of a vertex. -/
def cacheBit (x : BitVec 32) : Fin 8 :=
  ⟨((x &&& 0xffff#32) >>> 1).toNat % 8, Nat.mod_lt _ (by decide)⟩

/-- The line of a vertex. -/
def lineOf (x : BitVec 32) : BitVec 32 := x &&& 0xfffffff0#32

/-- A word of a memory: bits 31 to 0 and bits 63 to 32. -/
abbrev Uram := BitVec 32 × BitVec 32

/-- Bits 64 k to 64 k + 63 of the data of a line. -/
def CacheLine.uram (l : CacheLine) (k : Fin 8) : Uram :=
  (l.data ⟨2 * k, by omega⟩, l.data ⟨2 * k + 1, by omega⟩)

/-- Variables of `src_cache_pe_frp`. -/
structure PeVars where
  prop : Fin 8 → BitVec 32 → Uram
  tempBuffer : Fin 8 → Uram
  sv : BitVec 32
  frpFlag : Bool
  svReady : Bool
  readyToSend : Bool
  propValue : BitVec 32
  tbValid : Bool
  tbIndex : BitVec 32
  endOfSv : Bool
  endOfCa : Bool
  caUpdated : Bool
  caNeedUpdate : Bool
  minVertexIndex : BitVec 32
  maxVertexIndex : BitVec 32
  maxVertexIndexCp : BitVec 32
  maxVertexIndexBufferSv : BitVec 32
  maxVertexIndexBufferCu : BitVec 32
  requiredMinVertexIndex : BitVec 32

namespace PeVars

/-- The variables at the start of `free_run`; `prop`, `temp_buffer` and `sv` are kept. -/
def fresh (v : PeVars) : PeVars where
  prop := v.prop
  tempBuffer := v.tempBuffer
  sv := v.sv
  frpFlag := false
  svReady := false
  readyToSend := false
  propValue := 0
  tbValid := false
  tbIndex := 0
  endOfSv := false
  endOfCa := false
  caUpdated := false
  caNeedUpdate := false
  minVertexIndex := 0
  maxVertexIndex := 0
  maxVertexIndexCp := 0
  maxVertexIndexBufferSv := 0
  maxVertexIndexBufferCu := 0
  requiredMinVertexIndex := 0

/-- The source is in the table. -/
def hit (v : PeVars) : Bool := v.minVertexIndex ≤ v.sv && v.sv < v.maxVertexIndexBufferSv

/-- `CACHE_ACCESS_FRP`. -/
def cacheAccess (v : PeVars) : PeVars :=
  let tmp := v.prop (cacheBit v.sv) (cacheAddress v.sv)
  { v with
    propValue := if v.sv &&& 1 ≠ 0 then tmp.2 else tmp.1
    readyToSend := true }

/-- After a source has been read. -/
def received (v : PeVars) (srcFrp : AxiPkg (BitVec 32)) : PeVars :=
  let v := { v with
    sv := srcFrp.data
    frpFlag := srcFrp.last
    requiredMinVertexIndex := lineOf srcFrp.data }
  if v.hit then v.cacheAccess else { v with svReady := true }

/-- The source that was not in the table is looked up again. -/
def retried (v : PeVars) : PeVars := if v.hit then v.cacheAccess else v

/-- After a line has been read. -/
def loaded (v : PeVars) (clPkg : CacheLinePkg) : PeVars :=
  { v with
    tbIndex := clPkg.data.addr
    endOfCa := v.endOfCa || clPkg.last
    tbValid := true
    tempBuffer := clPkg.data.uram }

/-- The line read before is written to the table, if there is room. -/
def filled (v : PeVars) : PeVars :=
  if v.caNeedUpdate then
    { v with
      prop := fun k => Function.update (v.prop k) (cacheAddress v.tbIndex) (v.tempBuffer k)
      caUpdated := true
      tbValid := false
      caNeedUpdate := false }
  else v

/-- `CACHE_SEND_OUT`, after the write. -/
def sent (v : PeVars) : PeVars :=
  { v with
    endOfSv := v.endOfSv || v.frpFlag
    svReady := false
    readyToSend := false }

/-- The bounds of the table after a line has been written. -/
def updated (v : PeVars) : PeVars :=
  if v.caUpdated then
    let lineEnd := (v.tbIndex &&& 0xfffffff0#32) + 16
    { v with
      maxVertexIndex := if v.maxVertexIndex < lineEnd then lineEnd else v.maxVertexIndex
      maxVertexIndexCp := if v.maxVertexIndex < lineEnd then lineEnd else v.maxVertexIndexCp
      minVertexIndex :=
        if v.tbIndex = v.requiredMinVertexIndex then v.tbIndex else v.minVertexIndex
      caUpdated := false }
  else v

/-- The copies of the bounds and the guard of the next write. -/
def guarded (v : PeVars) : PeVars :=
  { v with
    maxVertexIndexBufferSv := v.maxVertexIndex
    maxVertexIndexBufferCu := v.maxVertexIndexCp
    caNeedUpdate :=
      v.caNeedUpdate || decide (v.maxVertexIndexCp < v.requiredMinVertexIndex + cacheSize) }

/-- The end of an iteration. -/
def closed (v : PeVars) : PeVars :=
  let v := v.updated.guarded
  if v.endOfCa && v.endOfSv then v.fresh else v

end PeVars

/-- The kinds of streams of `src_cache_access`: vectors of sources, single sources, lines. -/
inductive SrcSort where
  | vector
  | single
  | line
deriving DecidableEq

/-- The words of a stream. -/
abbrev SrcWord : SrcSort → Type
  | .vector => AxiPkg (Fin 16 → BitVec 32)
  | .single => AxiPkg (BitVec 32)
  | .line => CacheLinePkg

/-- The input streams of `src_cache_pe_frp`. -/
inductive PeIn where
  | in_
  | cacheIn
deriving DecidableEq

instance : Fintype PeIn := ⟨{.in_, .cacheIn}, fun x => by cases x <;> decide⟩

/-- The kind of an input of `src_cache_pe_frp`. -/
abbrev PeIn.sort : PeIn → SrcSort
  | in_ => .single
  | cacheIn => .line

/-- The output streams of `src_cache_pe_frp`. -/
inductive PeOut where
  | out
  | cacheOut
deriving DecidableEq

instance : Fintype PeOut := ⟨{.out, .cacheOut}, fun x => by cases x <;> decide⟩

/-- The kind of an output of `src_cache_pe_frp`. -/
abbrev PeOut.sort : PeOut → SrcSort
  | out => .single
  | cacheOut => .line

/-- Registers of `src_cache_pe_frp`: its variables and the part of an iteration it is in. -/
inductive PeRegs where
  | source (v : PeVars)
  | line (v : PeVars)
  | forward (clPkg : CacheLinePkg) (v : PeVars)
  | send (v : PeVars)

/-- The loops of `src_cache_pe_frp`; parts of an iteration without a stream operation only let
time pass, and the arrays hold anything at first. -/
def peKernel (v₀ : PeVars) :
    Kernel (fun i : PeIn => SrcWord i.sort) (fun o : PeOut => SrcWord o.sort) where
  σ := PeRegs
  Ω := Empty
  start := .source v₀.fresh
  op
    | .source v =>
        if v.svReady then .look fun _ _ => .line v.retried
        else .readNb .in_ fun
          | some srcFrp => .line (v.received srcFrp)
          | none => .line v
    | .line v =>
        if !v.tbValid || v.endOfSv then .readNb .cacheIn fun
          | some clPkg => .forward clPkg (v.loaded clPkg)
          | none => .send v
        else .look fun _ _ => .send v.filled
    | .forward clPkg v => .write .cacheOut clPkg (.send v)
    | .send v =>
        if v.readyToSend then .write .out ⟨v.propValue, v.frpFlag⟩ (.source v.sent.closed)
        else .look fun _ _ => .source v.closed

/-! ## Which lines may displace which -/

/-- Every line that falls on the position of a source whose own line is in the table already is
kept out, as long as the source has not been read: the guard is closed for the required minimum
of each source before it. -/
def Spared (sources : List (BitVec 32)) (lines : List CacheLine) : Prop :=
  ∀ seen u rest, sources = seen ++ u :: rest → ∀ before x after, lines = before ++ x :: after →
    u < maxIndex before → cacheAddress x.addr = cacheAddress u →
      ∀ r ∈ 0 :: seen.map lineOf, ¬ maxIndex before < r + cacheSize

/-- A sequence with the `last` bit on its last word. -/
def flagged {α : Type} : List α → List (AxiPkg α)
  | [] => []
  | a :: l => ⟨a, l.isEmpty⟩ :: flagged l

/-- The sources of a processing element and the lines it is given. -/
structure Feed (input : ℕ → BitVec 32) (nums : List ℕ) (sources : List (BitVec 32))
    (lines : List CacheLine) : Prop where
  stream : Lines input nums lines
  ascending : sources.Pairwise (· ≤ ·)
  covered : ∀ u ∈ sources, u.toNat / 16 ∈ nums
  spared : Spared sources lines

/-! ## The table -/

theorem toNat_cacheAddress (x : BitVec 32) : (cacheAddress x).toNat = x.toNat % 65536 / 16 := by
  rw [cacheAddress, BitVec.toNat_ushiftRight, toNat_and_ffff, Nat.shiftRight_eq_div_pow]

/-- A line has the position of its vertices. -/
theorem cacheAddress_lineRec (input : ℕ → BitVec 32) (u : BitVec 32) :
    cacheAddress (lineRec input (u.toNat / 16)).addr = cacheAddress u := by
  have hlt := u.isLt
  have haddr : (lineRec input (u.toNat / 16)).addr.toNat = u.toNat / 16 * 16 := by
    rw [lineRec, BitVec.toNat_ofNat, Nat.mod_eq_of_lt (by omega)]
  apply BitVec.eq_of_toNat_eq
  rw [toNat_cacheAddress, toNat_cacheAddress, haddr]
  omega

/-- A source whose line is at its position is answered with its property word. -/
theorem cacheAccess_propValue {input : ℕ → BitVec 32} {v : PeVars}
    (h : ∀ k, v.prop k (cacheAddress v.sv) = (lineRec input (v.sv.toNat / 16)).uram k) :
    v.cacheAccess.propValue = input v.sv.toNat := by
  have hbit : (cacheBit v.sv).val = v.sv.toNat % 65536 / 2 % 8 := by
    show ((v.sv &&& 0xffff#32) >>> 1).toNat % 8 = _
    rw [BitVec.toNat_ushiftRight, toNat_and_ffff, Nat.shiftRight_eq_div_pow]
  have hodd : v.sv &&& 1 ≠ 0 ↔ v.sv.toNat % 2 = 1 := by
    have hvalue : (v.sv &&& 1).toNat = v.sv.toNat % 2 := by
      rw [BitVec.toNat_and]
      exact Nat.and_one_is_mod _
    rw [ne_eq, ← BitVec.toNat_inj, hvalue]
    have hzero : (0 : BitVec 32).toNat = 0 := rfl
    rw [hzero]
    omega
  unfold PeVars.cacheAccess
  simp only [h, CacheLine.uram, lineRec, hbit]
  split
  · rename_i hsv
    have hone := hodd.mp hsv
    congr 1
    omega
  · rename_i hsv
    have hzero := mt hodd.mpr hsv
    congr 1
    omega

/-- The sources that are still to be looked up. -/
def PeVars.unanswered (v : PeVars) (rest : List (BitVec 32)) : List (BitVec 32) :=
  (if v.svReady && !v.readyToSend then [v.sv] else []) ++ rest

/-- The lines read but not yet written. -/
def PeVars.Holds (v : PeVars) : List CacheLine → Prop
  | [] => v.tbValid = false
  | [x] => v.tbValid = true ∧ x.addr = v.tbIndex ∧ x.uram = v.tempBuffer
  | _ => False

/-- The element serves its sources: `seen` have been read and `rest` not; `written` are the lines
in the table, `counted` those in its bounds, and `held` and `ahead` the others. -/
structure Serving (input : ℕ → BitVec 32) (sources : List (BitVec 32)) (lines : List CacheLine)
    (seen rest : List (BitVec 32)) (written counted held ahead : List CacheLine) (v : PeVars) :
    Prop where
  split : sources = seen ++ rest
  parts : lines = written ++ held ++ ahead
  held : v.Holds held
  endOfSv : v.endOfSv = false
  required : v.requiredMinVertexIndex ∈ 0 :: seen.map lineOf
  min : v.minVertexIndex ∈ 0 :: seen.map lineOf
  max : v.maxVertexIndex = maxIndex counted
  maxCp : v.maxVertexIndexCp = maxIndex counted
  maxSv : v.maxVertexIndexBufferSv = maxIndex counted
  current : v.svReady = true ∨ v.readyToSend = true →
    seen.getLast? = some v.sv ∧ v.frpFlag = rest.isEmpty
  value : v.readyToSend = true → v.propValue = input v.sv.toNat
  table : ∀ u ∈ v.unanswered rest, u < maxIndex written →
    ∀ k, v.prop k (cacheAddress u) = (lineRec input (u.toNat / 16)).uram k
  need : v.caNeedUpdate = true → ∃ r ∈ 0 :: seen.map lineOf, maxIndex written < r + cacheSize

theorem lineOf_le (u : BitVec 32) : lineOf u ≤ u := by
  rw [BitVec.le_def, lineOf, toNat_and_fffffff0]
  exact Nat.div_mul_le_self _ _

section Serving

variable {input : ℕ → BitVec 32} {nums : List ℕ} {sources : List (BitVec 32)}
  {lines : List CacheLine} {seen rest : List (BitVec 32)}
  {written counted held ahead : List CacheLine} {v : PeVars}

/-- The lower bound of the table is not above the source read last. -/
theorem Serving.min_le (h : Serving input sources lines seen rest written counted held ahead v)
    (hasc : sources.Pairwise (· ≤ ·)) {u : BitVec 32} (hu : seen.getLast? = some u) :
    v.minVertexIndex ≤ u := by
  have hseen : ∀ a ∈ seen, a ≤ u := by
    obtain ⟨init, rfl⟩ := List.getLast?_eq_some_iff.mp hu
    rw [h.split] at hasc
    have hpair := (List.pairwise_append.mp hasc).1
    intro a ha
    rcases List.mem_append.mp ha with ha | ha
    · exact (List.pairwise_append.mp hpair).2.2 a ha u (by simp)
    · rw [List.mem_singleton.mp ha]
      exact BitVec.le_refl u
  rcases List.mem_cons.mp h.min with hzero | hmin
  · rw [hzero]
    exact BitVec.le_def.mpr (Nat.zero_le _)
  · obtain ⟨a, ha, hmin⟩ := List.mem_map.mp hmin
    rw [← hmin]
    exact BitVec.le_trans (lineOf_le a) (hseen a ha)

/-- What is looked up is found exactly if it is below the end of the written lines, and what is
found is its property word. -/
theorem Serving.hit (h : Serving input sources lines seen rest written written held ahead v)
    (hasc : sources.Pairwise (· ≤ ·)) (hready : v.svReady = true) (hnot : v.readyToSend = false) :
    (v.hit = true ↔ v.sv < maxIndex written) ∧
      (v.sv < maxIndex written → v.cacheAccess.propValue = input v.sv.toNat) := by
  have hmin := h.min_le hasc (h.current (.inl hready)).1
  refine ⟨?_, fun hlt => cacheAccess_propValue (h.table v.sv ?_ hlt)⟩
  · simp [PeVars.hit, hmin, h.maxSv]
  · simp [PeVars.unanswered, hready, hnot]

/-! ## Parts of an iteration -/

/-- A source that is looked up again is found, or it is beyond the written lines. -/
theorem Serving.retried (h : Serving input sources lines seen rest written written held ahead v)
    (hasc : sources.Pairwise (· ≤ ·)) (hready : v.svReady = true) (hnot : v.readyToSend = false) :
    Serving input sources lines seen rest written written held ahead v.retried ∧
      (v.retried.readyToSend = false → ¬ v.retried.sv < maxIndex written) := by
  obtain ⟨hhit, hvalue⟩ := h.hit hasc hready hnot
  unfold PeVars.retried
  split
  · rename_i hv
    refine ⟨{ h with
      current := fun _ => h.current (.inl hready)
      value := fun _ => hvalue (hhit.mp hv)
      table := fun u hu => h.table u ?_ }, fun hready => by cases hready⟩
    have hrest : u ∈ rest := by simpa [PeVars.unanswered, PeVars.cacheAccess] using hu
    exact List.mem_append_right _ hrest
  · rename_i hv
    exact ⟨h, fun _ hlt => hv (hhit.mpr hlt)⟩

/-- The next source is read. -/
theorem Serving.received {u : BitVec 32} {flag : Bool}
    (h : Serving input sources lines seen (u :: rest) written written held ahead v)
    (hasc : sources.Pairwise (· ≤ ·)) (hflag : flag = rest.isEmpty) (hready : v.svReady = false)
    (hnot : v.readyToSend = false) :
    Serving input sources lines (seen ++ [u]) rest written written held ahead
        (v.received ⟨u, flag⟩) ∧
      ((v.received ⟨u, flag⟩).readyToSend = false →
        ¬ (v.received ⟨u, flag⟩).sv < maxIndex written) ∧
      (v.received ⟨u, flag⟩).sv = u ∧ (v.received ⟨u, flag⟩).frpFlag = flag ∧
      ((v.received ⟨u, flag⟩).svReady || (v.received ⟨u, flag⟩).readyToSend) = true := by
  -- The source waits, and is looked up as if it had been waiting.
  let w : PeVars := { v with
    sv := u
    frpFlag := flag
    requiredMinVertexIndex := lineOf u
    svReady := true }
  have hwaiting : Serving input sources lines (seen ++ [u]) rest written written held ahead w := by
    have hmem : ∀ r ∈ 0 :: seen.map lineOf, r ∈ 0 :: (seen ++ [u]).map lineOf := by
      intro r hr
      rw [List.map_append, ← List.cons_append]
      exact List.mem_append_left _ hr
    refine ⟨?_, h.parts, ?_, h.endOfSv, ?_, hmem _ h.min, h.max, h.maxCp, h.maxSv, fun _ => ?_, ?_,
      fun x hx => h.table x ?_, fun hneed => ?_⟩
    · rw [h.split, List.append_assoc]
      rfl
    · exact h.held
    · exact List.mem_cons_of_mem _ (by simp [w])
    · exact ⟨by simp [w], hflag⟩
    · intro hsend
      exact absurd (hsend.symm.trans hnot) (by simp)
    · have hx' : x = u ∨ x ∈ rest := by simpa [PeVars.unanswered, w, hnot] using hx
      simpa [PeVars.unanswered, hready] using hx'
    · obtain ⟨r, hr, hlt⟩ := h.need hneed
      exact ⟨r, hmem r hr, hlt⟩
  obtain ⟨hserving, hbeyond⟩ := hwaiting.retried hasc rfl hnot
  by_cases hhit : w.hit = true
  · have hretried : w.retried = w.cacheAccess := if_pos hhit
    have heq : v.received ⟨u, flag⟩ = { w.cacheAccess with svReady := v.svReady } := if_pos hhit
    rw [hretried] at hserving
    rw [heq]
    refine ⟨{ hserving with
      current := fun _ => hserving.current (.inr rfl)
      table := fun x hx => hserving.table x ?_ }, (fun hsend => by cases hsend), rfl, rfl, ?_⟩
    · have hrest : x ∈ rest := by simpa [PeVars.unanswered, PeVars.cacheAccess] using hx
      exact List.mem_append_right _ hrest
    · simp [PeVars.cacheAccess]
  · have hretried : w.retried = w := if_neg hhit
    have heq : v.received ⟨u, flag⟩ = w := if_neg hhit
    rw [hretried] at hserving hbeyond
    rw [heq]
    exact ⟨hserving, hbeyond, rfl, rfl, rfl⟩

/-- A line is read when none is held. -/
theorem Serving.loaded {clPkg : CacheLinePkg}
    (h : Serving input sources lines seen rest written counted held (clPkg.data :: ahead) v)
    (hvalid : v.tbValid = false) :
    Serving input sources lines seen rest written counted [clPkg.data] ahead (v.loaded clPkg) := by
  have hheld : held = [] := by
    match held, h.held with
    | [], _ => rfl
    | [_], hheld => exact absurd (hheld.1.symm.trans hvalid) (by simp)
  subst hheld
  refine { h with parts := ?_, held := ⟨rfl, rfl, rfl⟩ }
  rw [h.parts]
  simp

/-- The number of lines that the bounds of the table are behind. -/
def Counted (v : PeVars) (written counted : List CacheLine) : Prop :=
  if v.caUpdated then ∃ x, written = counted ++ [x] ∧ x.addr = v.tbIndex else written = counted

/-- A line is written to the table; no source still to be looked up loses its own line. -/
theorem Serving.filled (hfeed : Feed input nums sources lines)
    (h : Serving input sources lines seen rest written written held ahead v)
    (hvalid : v.tbValid = true) (hupdated : v.caUpdated = false)
    (hbeyond : v.svReady = true → v.readyToSend = false → ¬ v.sv < maxIndex written) :
    ∃ written' held', Serving input sources lines seen rest written' written held' ahead v.filled ∧
      Counted v.filled written' written := by
  unfold PeVars.filled
  split
  case isFalse hneed => exact ⟨written, held, h, by simp [Counted, hupdated]⟩
  case isTrue hneed =>
    obtain ⟨x, rfl, haddr, hdata⟩ : ∃ x, held = [x] ∧ x.addr = v.tbIndex ∧ x.uram = v.tempBuffer :=
      match held, h.held with
      | [], hheld => absurd (hheld.symm.trans hvalid) (by simp)
      | [x], hheld => ⟨x, rfl, hheld.2⟩
    have hparts : lines = written ++ x :: ahead := by
      rw [h.parts, List.append_assoc]
      rfl
    refine ⟨written ++ [x], [], { h with
      parts := by rw [h.parts]; simp
      held := rfl
      table := fun u hu hlt k => ?_
      need := fun hneed => by cases hneed }, by simpa [Counted] using haddr⟩
    have hu : u ∈ v.unanswered rest := hu
    have hsource : u ∈ sources := by
      rw [h.split]
      rcases List.mem_append.mp hu with hsv | hrest
      · split at hsv
        case isTrue hready =>
          have hready : v.svReady = true := by simp_all
          have hlast := (h.current (.inl hready)).1
          rw [List.mem_singleton.mp hsv]
          exact List.mem_append_left _ (List.mem_of_getLast? hlast)
        case isFalse => cases hsv
      · exact List.mem_append_right _ hrest
    show Function.update (v.prop k) (cacheAddress v.tbIndex) (v.tempBuffer k) _ = _
    by_cases hold : u < maxIndex written
    · -- The line of `u` is in the table, and the new line has another position.
      have hne : cacheAddress u ≠ cacheAddress v.tbIndex := by
        intro heq
        rcases List.mem_append.mp hu with hsv | hrest
        · split at hsv
          case isTrue hready =>
            rw [List.mem_singleton.mp hsv] at hold
            rw [Bool.and_eq_true, Bool.not_eq_true'] at hready
            exact hbeyond hready.1 hready.2 hold
          case isFalse => cases hsv
        · obtain ⟨s₁, s₂, hrest⟩ := List.append_of_mem hrest
          obtain ⟨r, hr, hroom⟩ := h.need hneed
          refine hfeed.spared (seen ++ s₁) u s₂ (by rw [h.split, hrest]; simp) written x ahead
            hparts hold ?_ r ?_ hroom
          · rw [haddr, heq]
          · rw [List.map_append, ← List.cons_append]
            exact List.mem_append_left _ hr
      rw [Function.update_of_ne hne]
      exact h.table u hu hold k
    · -- The new line is the line of `u`.
      have hpre : written ++ [x] <+: lines := ⟨ahead, by rw [hparts]; simp⟩
      have hx := hfeed.stream.written_last hpre (hfeed.covered u hsource) hlt hold
      have hpos : cacheAddress u = cacheAddress v.tbIndex := by
        rw [← haddr, hx, cacheAddress_lineRec]
      rw [hpos, Function.update_self, ← hdata, hx]

/-- The bounds of the table follow the lines written. -/
theorem Serving.guarded (h : Serving input sources lines seen rest written counted held ahead v)
    (hcounted : Counted v written counted) :
    Serving input sources lines seen rest written written held ahead v.updated.guarded ∧
      v.updated.guarded.caUpdated = false := by
  -- What `updated` does to the bounds, for one more line or for none.
  have hbounds : ∃ m ∈ 0 :: seen.map lineOf, v.updated = { v with
      maxVertexIndex := maxIndex written
      maxVertexIndexCp := maxIndex written
      minVertexIndex := m
      caUpdated := false } := by
    have hcp : v.maxVertexIndexCp = v.maxVertexIndex := h.maxCp.trans h.max.symm
    by_cases hupdated : v.caUpdated = true
    · obtain ⟨x, rfl, haddr⟩ : ∃ x, written = counted ++ [x] ∧ x.addr = v.tbIndex := by
        simpa [Counted, hupdated] using hcounted
      refine ⟨if v.tbIndex = v.requiredMinVertexIndex then v.tbIndex else v.minVertexIndex, ?_, ?_⟩
      · split
        · rename_i hrequired
          exact hrequired ▸ h.required
        · exact h.min
      · rw [PeVars.updated, if_pos hupdated, maxIndex_append, ← h.max, raise, CacheLine.lineEnd,
          haddr, hcp]
    · have hwritten : written = counted := by simpa [Counted, hupdated] using hcounted
      refine ⟨v.minVertexIndex, h.min, ?_⟩
      rw [PeVars.updated, if_neg hupdated, hwritten, ← h.max]
      cases v
      simp_all
  obtain ⟨m, hm, hupdated⟩ := hbounds
  rw [hupdated]
  refine ⟨{ h with
    min := hm
    max := rfl
    maxCp := rfl
    maxSv := rfl
    need := fun hneed => ?_ }, rfl⟩
  rcases (Bool.or_eq_true _ _).mp hneed with hneed | hneed
  · exact h.need hneed
  · exact ⟨_, h.required, of_decide_eq_true hneed⟩

/-- The answer is sent and more sources are to come. -/
theorem Serving.sent (h : Serving input sources lines seen rest written counted held ahead v)
    (hflag : v.frpFlag = false) :
    Serving input sources lines seen rest written counted held ahead v.sent := by
  refine { h with
    endOfSv := ?_
    current := fun hor => by rcases hor with hor | hor <;> cases hor
    value := fun hsend => by cases hsend
    table := fun u hu => h.table u ?_ }
  · show (v.endOfSv || v.frpFlag) = false
    rw [h.endOfSv, hflag]
    rfl
  · have hrest : u ∈ rest := by simpa [PeVars.unanswered, PeVars.sent] using hu
    exact List.mem_append_right _ hrest

end Serving

/-! ## The element pursues its plan -/

/-- The answer to a source. -/
def answer (input : ℕ → BitVec 32) (pkg : AxiPkg (BitVec 32)) : AxiPkg (BitVec 32) :=
  ⟨input pkg.data.toNat, pkg.last⟩

/-- The answer to the source read last, if it has not been sent. -/
def PeVars.owed (input : ℕ → BitVec 32) (v : PeVars) : List (AxiPkg (BitVec 32)) :=
  if v.svReady || v.readyToSend then [answer input ⟨v.sv, v.frpFlag⟩] else []

section Pursuit

variable (input : ℕ → BitVec 32) (sources : List (BitVec 32)) (lines : List CacheLine)

/-- The words of the streams ahead, while `rest` and `ahead` are still to be read and `fwd` is
still to be forwarded. -/
structure Owes (rest : List (BitVec 32)) (ahead : List CacheLine) (fwd : List CacheLinePkg)
    (v : PeVars) (X : ∀ i : PeIn, List (SrcWord i.sort)) (Y : ∀ o : PeOut, List (SrcWord o.sort)) :
    Prop where
  sources : X .in_ = flagged rest
  lines : (X .cacheIn).map AxiPkg.data = ahead
  answers : Y .out = v.owed input ++ (flagged rest).map (answer input)
  forwarded : Y .cacheOut = fwd ++ X .cacheIn

/-- Every source has been answered. -/
structure Finished (fwd : List CacheLinePkg) (v : PeVars) (X : ∀ i : PeIn, List (SrcWord i.sort))
    (Y : ∀ o : PeOut, List (SrcWord o.sort)) : Prop where
  idle : v.svReady = false ∧ v.readyToSend = false
  sources : X .in_ = []
  answers : Y .out = []
  forwarded : Y .cacheOut = fwd ++ X .cacheIn

/-- What `src_cache_pe_frp` has ahead. -/
def peAhead (r : PeRegs) (X : ∀ i : PeIn, List (SrcWord i.sort))
    (Y : ∀ o : PeOut, List (SrcWord o.sort)) : Prop :=
  match r with
  | .source v => Finished [] v X Y ∨ ∃ seen rest written held ahead,
      Serving input sources lines seen rest written written held ahead v ∧
        v.caUpdated = false ∧ v.readyToSend = false ∧ Owes input rest ahead [] v X Y
  | .line v => Finished [] v X Y ∨ ∃ seen rest written held ahead,
      Serving input sources lines seen rest written written held ahead v ∧
        v.caUpdated = false ∧
          (v.svReady = true → v.readyToSend = false → ¬ v.sv < maxIndex written) ∧
            Owes input rest ahead [] v X Y
  | .forward clPkg v => Finished [clPkg] v X Y ∨ ∃ seen rest written held ahead,
      Serving input sources lines seen rest written written held ahead v ∧
        v.caUpdated = false ∧ Owes input rest ahead [clPkg] v X Y
  | .send v => Finished [] v X Y ∨ ∃ seen rest written counted held ahead,
      Serving input sources lines seen rest written counted held ahead v ∧
        Counted v written counted ∧ Owes input rest ahead [] v X Y

variable {input sources lines} {nums : List ℕ} {v₀ : PeVars}

/-- Nothing has been read. -/
theorem peAhead_start
    {X : ∀ i : PeIn, List (SrcWord i.sort)} {Y : ∀ o : PeOut, List (SrcWord o.sort)}
    (hsources : X .in_ = flagged sources) (hlines : (X .cacheIn).map AxiPkg.data = lines)
    (hout : Y .out = (flagged sources).map (answer input)) (hcache : Y .cacheOut = X .cacheIn) :
    peAhead input sources lines (peKernel v₀).start X Y := by
  refine .inr ⟨[], sources, [], [], lines, ⟨rfl, rfl, rfl, rfl, ?_, ?_, rfl, rfl, rfl, ?_, ?_, ?_,
    ?_⟩, rfl, rfl, hsources, hlines, hout, hcache⟩
  · exact List.mem_cons_self
  · exact List.mem_cons_self
  · exact fun hor => by rcases hor with hor | hor <;> cases hor
  · exact fun hsend => by cases hsend
  · intro u _ hu
    exact absurd hu (by simp [maxIndex])
  · exact fun hneed => by cases hneed

theorem flagged_eq_cons {α : Type} {l : List α} {a : AxiPkg α} {rest : List (AxiPkg α)}
    (h : flagged l = a :: rest) : ∃ l', l = a.data :: l' ∧ a.last = l'.isEmpty ∧ rest = flagged l' := by
  match l, h with
  | _ :: l', rfl => exact ⟨l', rfl, rfl, rfl⟩

/-- The first part of an iteration: the source. -/
theorem peAhead_source (hfeed : Feed input nums sources lines) (v : PeVars)
    (X : ∀ i : PeIn, List (SrcWord i.sort)) (Y : ∀ o : PeOut, List (SrcWord o.sort))
    (h : peAhead input sources lines (.source v) X Y) :
    (peKernel v₀).Pursues (peAhead input sources lines) X Y ((peKernel v₀).op (.source v)) := by
  rcases h with hfin | ⟨seen, rest, written, held, ahead, hserving, hupdated, hsend, howes⟩
  · have hop : (peKernel v₀).op (.source v) = .readNb .in_ _ :=
      if_neg (by rw [hfin.idle.1]; exact Bool.false_ne_true)
    rw [hop]
    refine ⟨.inl hfin, fun a r hX => ?_⟩
    rw [hfin.sources] at hX
    cases hX
  · by_cases hready : v.svReady = true
    · have hop : (peKernel v₀).op (.source v) = .look fun _ _ => .line v.retried := if_pos hready
      rw [hop]
      intro _ _
      obtain ⟨hretried, hbeyond⟩ := hserving.retried hfeed.ascending hready hsend
      refine .inr ⟨seen, rest, written, held, ahead, hretried, ?_, fun _ => hbeyond, ?_⟩
      · unfold PeVars.retried
        split <;> exact hupdated
      · have howed : v.retried.owed input = v.owed input := by
          unfold PeVars.retried
          split
          · simp [PeVars.owed, PeVars.cacheAccess, hready]
          · rfl
        exact { howes with answers := by rw [howed]; exact howes.answers }
    · have hop : (peKernel v₀).op (.source v) = .readNb .in_ _ := if_neg hready
      rw [Bool.not_eq_true] at hready
      rw [hop]
      refine ⟨.inr ⟨seen, rest, written, held, ahead, hserving, hupdated, fun hcase => ?_, howes⟩,
        fun a r hX => ?_⟩
      · exact absurd (hcase.symm.trans hready) (by simp)
      · rw [howes.sources] at hX
        obtain ⟨rest', rfl, hlast, rfl⟩ := flagged_eq_cons hX
        obtain ⟨u, flag⟩ := a
        obtain ⟨hreceived, hbeyond, hsv, hflag, hor⟩ :=
          hserving.received hfeed.ascending hlast hready hsend
        refine .inr ⟨seen ++ [u], rest', written, held, ahead, hreceived, ?_, fun _ => hbeyond, ?_⟩
        · unfold PeVars.received
          dsimp only
          split <;> exact hupdated
        · have hnone : v.owed input = [] := by simp [PeVars.owed, hready, hsend]
          refine ⟨Function.update_self .., ?_, ?_, ?_⟩
          · rw [Function.update_of_ne (by decide)]
            exact howes.lines
          · rw [PeVars.owed, if_pos hor, hsv, hflag, howes.answers, hnone, hlast]
            rfl
          · rw [Function.update_of_ne (by decide)]
            exact howes.forwarded

/-- The second part of an iteration: the line. -/
theorem peAhead_line (hfeed : Feed input nums sources lines) (v : PeVars)
    (X : ∀ i : PeIn, List (SrcWord i.sort)) (Y : ∀ o : PeOut, List (SrcWord o.sort))
    (h : peAhead input sources lines (.line v) X Y) :
    (peKernel v₀).Pursues (peAhead input sources lines) X Y ((peKernel v₀).op (.line v)) := by
  by_cases hread : (!v.tbValid || v.endOfSv) = true
  · have hop : (peKernel v₀).op (.line v) = .readNb .cacheIn _ := if_pos hread
    rw [hop]
    rcases h with hfin | ⟨seen, rest, written, held, ahead, hserving, hupdated, -, howes⟩
    · refine ⟨.inl hfin, fun a r hX => .inl ⟨hfin.idle, ?_, hfin.answers, ?_⟩⟩
      · rw [Function.update_of_ne (by decide)]
        exact hfin.sources
      · rw [Function.update_self, hfin.forwarded, hX]
        rfl
    · refine ⟨.inr ⟨seen, rest, written, written, held, ahead, hserving, by simp [Counted, hupdated],
        howes⟩, fun a r hX => ?_⟩
      have hlines := howes.lines
      rw [hX, List.map_cons] at hlines
      subst hlines
      have hvalid : v.tbValid = false := by simpa [hserving.endOfSv] using hread
      refine .inr ⟨seen, rest, written, [a.data], r.map AxiPkg.data, hserving.loaded hvalid, hupdated,
        ?_, ?_, howes.answers, ?_⟩
      · rw [Function.update_of_ne (by decide)]
        exact howes.sources
      · rw [Function.update_self]
      · rw [Function.update_self, howes.forwarded, hX]
        rfl
  · have hop : (peKernel v₀).op (.line v) = .look fun _ _ => .send v.filled := if_neg hread
    rw [hop]
    intro _ _
    have hfilled : v.filled.svReady = v.svReady ∧ v.filled.readyToSend = v.readyToSend ∧
        v.filled.owed input = v.owed input := by
      unfold PeVars.filled
      split <;> exact ⟨rfl, rfl, rfl⟩
    obtain ⟨hready, hsend, howed⟩ := hfilled
    rcases h with hfin | ⟨seen, rest, written, held, ahead, hserving, hupdated, hbeyond, howes⟩
    · exact .inl { hfin with idle := by rw [hready, hsend]; exact hfin.idle }
    · have hvalid : v.tbValid = true := by
        rw [hserving.endOfSv] at hread
        simpa using hread
      obtain ⟨written', held', hfill, hcounted⟩ := hserving.filled hfeed hvalid hupdated hbeyond
      exact .inr ⟨seen, rest, written', written, held', ahead, hfill, hcounted,
        { howes with answers := by rw [howed]; exact howes.answers }⟩

/-- The end of an iteration keeps what is served, or nothing is left to serve. -/
theorem peAhead_closed {v : PeVars} {X : ∀ i : PeIn, List (SrcWord i.sort)}
    {Y : ∀ o : PeOut, List (SrcWord o.sort)} (hsend : v.readyToSend = false)
    (h : Finished [] v X Y ∨ ∃ seen rest written counted held ahead,
      Serving input sources lines seen rest written counted held ahead v ∧
        Counted v written counted ∧ Owes input rest ahead [] v X Y) :
    peAhead input sources lines (.source v.closed) X Y := by
  have hclosed : v.closed = v.updated.guarded ∨ v.closed = v.updated.guarded.fresh := by
    unfold PeVars.closed
    dsimp only
    split
    · exact .inr rfl
    · exact .inl rfl
  have hkept : v.updated.guarded.svReady = v.svReady ∧
      v.updated.guarded.readyToSend = v.readyToSend ∧
        v.updated.guarded.owed input = v.owed input := by
    unfold PeVars.updated
    split <;> exact ⟨rfl, rfl, rfl⟩
  obtain ⟨hready', hsend', howed⟩ := hkept
  rcases h with hfin | ⟨seen, rest, written, counted, held, ahead, hserving, hcounted, howes⟩
  · refine .inl { hfin with idle := ?_ }
    rcases hclosed with heq | heq
    · rw [heq, hready', hsend']
      exact hfin.idle
    · rw [heq]
      exact ⟨rfl, rfl⟩
  · obtain ⟨hguarded, hupdated⟩ := hserving.guarded hcounted
    have heq : v.closed = v.updated.guarded := by
      rw [PeVars.closed, if_neg]
      rw [hguarded.endOfSv, Bool.and_false]
      exact Bool.false_ne_true
    rw [heq]
    exact .inr ⟨seen, rest, written, held, ahead, hguarded, hupdated, hsend'.trans hsend,
      { howes with answers := by rw [howed]; exact howes.answers }⟩

/-- The last part of an iteration: the answer and the bounds. -/
theorem peAhead_send (v : PeVars)
    (X : ∀ i : PeIn, List (SrcWord i.sort)) (Y : ∀ o : PeOut, List (SrcWord o.sort))
    (h : peAhead input sources lines (.send v) X Y) :
    (peKernel v₀).Pursues (peAhead input sources lines) X Y ((peKernel v₀).op (.send v)) := by
  by_cases hsend : v.readyToSend = true
  · have hop : (peKernel v₀).op (.send v) = .write .out _ _ := if_pos hsend
    rw [hop]
    rcases h with hfin | ⟨seen, rest, written, counted, held, ahead, hserving, hcounted, howes⟩
    · exact absurd (hsend.symm.trans hfin.idle.2) (by simp)
    · have howed : v.owed input = [⟨v.propValue, v.frpFlag⟩] := by
        rw [PeVars.owed, hsend, Bool.or_true, if_pos rfl, hserving.value hsend]
        rfl
      have hanswers := howes.answers
      rw [howed] at hanswers
      have hforwarded : ∀ l, Function.update Y .out l .cacheOut = [] ++ X .cacheIn := fun l => by
        rw [Function.update_of_ne (by decide)]
        exact howes.forwarded
      refine ⟨_, hanswers, peAhead_closed rfl ?_⟩
      have hrest := (hserving.current (.inr hsend)).2
      by_cases hflag : v.frpFlag = true
      · rw [hflag] at hrest
        have hnil : rest = [] := List.isEmpty_iff.mp hrest.symm
        subst hnil
        exact .inl ⟨⟨rfl, rfl⟩, howes.sources, Function.update_self .., hforwarded _⟩
      · rw [Bool.not_eq_true] at hflag
        exact .inr ⟨seen, rest, written, counted, held, ahead, hserving.sent hflag, hcounted,
          howes.sources, howes.lines, Function.update_self .., hforwarded _⟩
  · have hop : (peKernel v₀).op (.send v) = .look fun _ _ => .source v.closed := if_neg hsend
    rw [hop]
    intro _ _
    exact peAhead_closed (by simpa using hsend) h

/-- `src_cache_pe_frp` answers every source with its property word. -/
theorem peAhead_pursues (hfeed : Feed input nums sources lines) (r : PeRegs)
    (X : ∀ i : PeIn, List (SrcWord i.sort)) (Y : ∀ o : PeOut, List (SrcWord o.sort))
    (h : peAhead input sources lines r X Y) :
    (peKernel v₀).Pursues (peAhead input sources lines) X Y ((peKernel v₀).op r) := by
  cases r with
  | source v => exact peAhead_source hfeed v X Y h
  | line v => exact peAhead_line hfeed v X Y h
  | forward clPkg v =>
      rcases h with hfin | ⟨seen, rest, written, held, ahead, hserving, hupdated, howes⟩
      · refine ⟨_, hfin.forwarded, .inl ⟨hfin.idle, hfin.sources, ?_, Function.update_self ..⟩⟩
        rw [Function.update_of_ne (by decide)]
        exact hfin.answers
      · refine ⟨_, howes.forwarded, .inr ⟨seen, rest, written, written, held, ahead, hserving,
          by simp [Counted, hupdated], howes.sources, howes.lines, ?_, Function.update_self ..⟩⟩
        rw [Function.update_of_ne (by decide)]
        exact howes.answers
  | send v => exact peAhead_send v X Y h

end Pursuit

end RidgeWalker.SrcCache
