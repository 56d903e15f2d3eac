import RidgeWalker.Dataflow.Execution
import RidgeWalker.SrcCache.Lookup
import RidgeWalker.Switch.Packages

/-!
# The source property cache

`src_cache_access` deals the sources of every vector to eight processing elements, hands the lines
from one element to the next, and puts the answers together to vectors again.

Main results:

- Theorem `mergeAhead_pursues`: `src_merge` rebuilds the vectors that `src_dispatch` has dealt.
- Theorem `srcCacheAccess_answers`: every source is answered with its own property word, if the
  lines spare the sources of every element.
-/

namespace RidgeWalker.SrcCache

open Bits Dataflow Memory Switch

/-- A vector of sources or of property words. -/
abbrev Vec := Fin 16 → BitVec 32

/-! ## Dealing and collecting -/

/-- The vector with its positions in the opposite order. -/
def reversed (pkg : AxiPkg Vec) : AxiPkg Vec := ⟨fun i => pkg.data i.rev, pkg.last⟩

/-- `src_buffer` keeps a vector until the next one is read and sends it in the opposite order;
the last one tells only that the one before is the end. -/
def srcBuffer : Emitter (AxiPkg Vec) fun _ : Unit => AxiPkg Vec where
  σ := Option (AxiPkg Vec)
  start := none
  answer
    | none, pkg => (some pkg, [])
    | some lastPkg, pkg =>
        (if pkg.last then none else some pkg, [⟨(), reversed ⟨lastPkg.data, pkg.last⟩⟩])

theorem odd_lt (i : Fin 8) : 2 * i.val + 1 < 16 := by omega

theorem even_lt (i : Fin 8) : 2 * i.val < 16 := by omega

/-- `src_dispatch` deals first the odd positions and then the even ones. -/
def srcDispatch : Emitter (AxiPkg Vec) fun _ : Fin 8 => AxiPkg (BitVec 32) where
  σ := Unit
  start := ()
  answer _ frp := ((), (List.finRange 8).map (fun i => ⟨i, ⟨frp.data ⟨2 * i + 1, odd_lt i⟩, false⟩⟩) ++
    (List.finRange 8).map fun i => ⟨i, ⟨frp.data ⟨2 * i, even_lt i⟩, frp.last⟩⟩)

/-- The words of a vector in the order in which `src_merge` reads them. -/
def readingOrder (pkg : AxiPkg Vec) : List (AxiPkg (BitVec 32)) :=
  (List.finRange 8).map (fun i => ⟨pkg.data ⟨15 - (2 * i + 1), by omega⟩, false⟩) ++
    (List.finRange 8).map fun i => ⟨pkg.data ⟨15 - 2 * i, by omega⟩, pkg.last⟩

/-- The vector that `src_merge` makes of the sixteen words it has read. -/
def mergePkg (words : List (AxiPkg (BitVec 32))) : AxiPkg Vec where
  data k :=
    let frpSv := if k.val % 2 = 0 then words[(14 - k.val) / 2]? else words[8 + (15 - k.val) / 2]?
    (frpSv.map AxiPkg.data).getD 0
  last := (words[15]?.map AxiPkg.last).getD false

/-- The loop of `src_merge`; its registers are the words of the next vector read so far. -/
def srcMergeKernel :
    Kernel (fun _ : Fin 8 => AxiPkg (BitVec 32)) (fun _ : Unit => AxiPkg Vec) where
  σ := List (AxiPkg (BitVec 32))
  Ω := Empty
  start := []
  op words :=
    if words.length < 16 then
      .read ⟨words.length % 8, Nat.mod_lt _ (by decide)⟩ fun frpSv => words ++ [frpSv]
    else .write () (mergePkg words) []

/-- `free_run_frp_sink_stream`. -/
def frpSinkKernel (w : Type) (word : Empty → Type) : Kernel (fun _ : Unit => w) word where
  σ := Unit
  Ω := Empty
  start := ()
  op _ := .read () fun _ => ()

/-- The words of a vector that pass through element `i`. -/
def dealt (i : Fin 8) (pkg : AxiPkg Vec) : List (AxiPkg (BitVec 32)) :=
  [⟨pkg.data ⟨14 - 2 * i, by omega⟩, false⟩, ⟨pkg.data ⟨15 - 2 * i, by omega⟩, pkg.last⟩]

theorem mergePkg_readingOrder (pkg : AxiPkg Vec) : mergePkg (readingOrder pkg) = pkg := by
  obtain ⟨data, last⟩ := pkg
  have hdata : (mergePkg (readingOrder ⟨data, last⟩)).data = data := by
    funext k
    fin_cases k <;> rfl
  exact congrArg (AxiPkg.mk · last) hdata

/-- How many of the first `n` words read by `src_merge` come from element `i`. -/
def readFrom (n : ℕ) (i : Fin 8) : ℕ :=
  (if i.val < n then 1 else 0) + if i.val + 8 < n then 1 else 0

/-- What `src_merge` has ahead: the vectors are dealt to its inputs, and it is inside the first. -/
def mergeAhead (words : List (AxiPkg (BitVec 32))) (X : Fin 8 → List (AxiPkg (BitVec 32)))
    (Y : Unit → List (AxiPkg Vec)) : Prop :=
  (words = [] ∧ ∀ i, X i = (Y ()).flatMap (dealt i)) ∨
    ∃ pkg rest, Y () = pkg :: rest ∧ words <+: readingOrder pkg ∧
      ∀ i, X i = (dealt i pkg).drop (readFrom words.length i) ++ rest.flatMap (dealt i)

theorem readingOrder_length (pkg : AxiPkg Vec) : (readingOrder pkg).length = 16 := rfl

/-- The next word that `src_merge` reads is the first that remains of its element. -/
theorem dealt_drop (pkg : AxiPkg Vec) {n : ℕ} (hn : n < 16) :
    (dealt ⟨n % 8, Nat.mod_lt _ (by decide)⟩ pkg).drop
        (readFrom n ⟨n % 8, Nat.mod_lt _ (by decide)⟩) =
      (readingOrder pkg).get ⟨n, by rw [readingOrder_length]; exact hn⟩ ::
        (dealt ⟨n % 8, Nat.mod_lt _ (by decide)⟩ pkg).drop
          (readFrom (n + 1) ⟨n % 8, Nat.mod_lt _ (by decide)⟩) := by
  interval_cases n <;> rfl

theorem readFrom_succ {n : ℕ} {i : Fin 8} (hi : i.val ≠ n % 8) (hn : n < 16) :
    readFrom (n + 1) i = readFrom n i := by
  unfold readFrom
  congr 1
  · exact if_congr (by omega) rfl rfl
  · exact if_congr (by omega) rfl rfl

/-- `src_merge` rebuilds the vectors that have been dealt. -/
theorem mergeAhead_pursues (words : List (AxiPkg (BitVec 32)))
    (X : Fin 8 → List (AxiPkg (BitVec 32))) (Y : Unit → List (AxiPkg Vec))
    (h : mergeAhead words X Y) :
    srcMergeKernel.Pursues mergeAhead X Y (srcMergeKernel.op words) := by
  by_cases hlen : words.length < 16
  · have hop : srcMergeKernel.op words = .read ⟨words.length % 8, _⟩ fun frpSv => words ++ [frpSv] :=
      if_pos hlen
    rw [hop]
    intro a r hX
    -- A word can only be there if a vector is.
    obtain ⟨pkg, rest, hY, hwords, hdealt⟩ : ∃ pkg rest, Y () = pkg :: rest ∧
        words <+: readingOrder pkg ∧
          ∀ i, X i = (dealt i pkg).drop (readFrom words.length i) ++ rest.flatMap (dealt i) := by
      rcases h with ⟨rfl, hdealt⟩ | h
      · match hY : Y () with
        | [] =>
            rw [hdealt, hY] at hX
            cases hX
        | pkg :: rest => exact ⟨pkg, rest, rfl, List.nil_prefix, fun i => by rw [hdealt, hY]; rfl⟩
      · exact h
    rw [hdealt, dealt_drop pkg hlen, List.cons_append, List.cons.injEq] at hX
    obtain ⟨rfl, rfl⟩ := hX
    refine .inr ⟨pkg, rest, hY, ?_, fun i => ?_⟩
    · obtain ⟨tail, htail⟩ := hwords
      have hnext : (readingOrder pkg).get ⟨words.length, by rw [readingOrder_length]; exact hlen⟩ ::
          tail.tail = tail := by
        match tail, htail with
        | [], htail =>
            rw [← readingOrder_length pkg, ← htail, List.append_nil] at hlen
            exact absurd hlen (lt_irrefl _)
        | t :: tail, htail => simp [← htail]
      exact ⟨tail.tail, by rw [List.append_assoc, List.singleton_append, hnext, htail]⟩
    · rw [List.length_append, List.length_singleton]
      by_cases hi : i = ⟨words.length % 8, Nat.mod_lt _ (by decide)⟩
      · subst hi
        rw [Function.update_self]
      · rw [Function.update_of_ne hi, hdealt,
          readFrom_succ (fun hval => hi (Fin.ext hval)) hlen]
  · have hop : srcMergeKernel.op words = .write () (mergePkg words) [] := if_neg hlen
    rw [hop]
    rcases h with ⟨rfl, -⟩ | ⟨pkg, rest, hY, hwords, hdealt⟩
    · exact absurd (by decide) hlen
    · have hfull : words = readingOrder pkg :=
        hwords.eq_of_length_le (by rw [readingOrder_length]; exact not_lt.mp hlen)
      have hall : ∀ i, (dealt i pkg).drop (readFrom words.length i) = [] := by
        intro i
        rw [hfull, readingOrder_length]
        fin_cases i <;> rfl
      refine ⟨rest, ?_, .inl ⟨rfl, fun i => ?_⟩⟩
      · rw [hfull, mergePkg_readingOrder]
        exact hY
      · rw [Function.update_self, hdealt, hall]
        rfl

/-- What a stream adapter has ahead. -/
def forwardAhead {w : Type} (r : ForwardRegs w) (X Y : Unit → List w) : Prop :=
  Y () = r.pending ++ X ()

/-- A stream adapter sends on what it receives. -/
theorem forwardAhead_pursues {w : Type} (r : ForwardRegs w) (X Y : Unit → List w)
    (h : forwardAhead r X Y) :
    (forwardKernel w).Pursues forwardAhead X Y ((forwardKernel w).op r) := by
  cases r with
  | fetch =>
      intro a rest hX
      show Y () = [a] ++ Function.update X () rest ()
      rw [Function.update_self, h, hX]
      rfl
  | emit item => exact ⟨X (), h, Function.update_self ..⟩

/-! ## The kernel -/

/-- The streams of `src_cache_access`. -/
inductive SrcStream : SrcSort → Type where
  | in_ : SrcStream .vector
  | svFrp : SrcStream .vector
  | out : SrcStream .vector
  | svStream (i : Fin 8) : SrcStream .single
  | outStream (i : Fin 8) : SrcStream .single
  | cacheLineIn : SrcStream .line
  | clStream (i : Fin 9) : SrcStream .line
deriving DecidableEq

/-- A stream of `src_cache_access`. -/
abbrev SrcStream.chan {s : SrcSort} (c : SrcStream s) : Chan SrcStream := ⟨s, c⟩

/-- The processes of `src_cache_access`. -/
inductive SrcProc where
  | buffer
  | dispatch
  | axisToFrp
  | pe (i : Fin 8)
  | sink
  | merge
deriving DecidableEq, Fintype

/-- The call of each process; `vars` are the variables that the elements have at first. -/
def srcCall (vars : Fin 8 → PeVars) : SrcProc → Call SrcStream SrcWord
  | .buffer => {
      In := Unit
      Out := Unit
      src := fun _ => SrcStream.in_.chan
      dst := fun _ => SrcStream.svFrp.chan
      kernel := emitterKernel srcBuffer }
  | .dispatch => {
      In := Unit
      Out := Fin 8
      src := fun _ => SrcStream.svFrp.chan
      dst := fun i => (SrcStream.svStream i).chan
      kernel := emitterKernel srcDispatch }
  | .axisToFrp => {
      In := Unit
      Out := Unit
      src := fun _ => SrcStream.cacheLineIn.chan
      dst := fun _ => (SrcStream.clStream 0).chan
      kernel := forwardKernel CacheLinePkg }
  | .pe i => {
      In := PeIn
      Out := PeOut
      src := fun x => ⟨x.sort, match x with
        | .in_ => SrcStream.svStream i
        | .cacheIn => SrcStream.clStream i.castSucc⟩
      dst := fun x => ⟨x.sort, match x with
        | .out => SrcStream.outStream i
        | .cacheOut => SrcStream.clStream i.succ⟩
      kernel := peKernel (vars i) }
  | .sink => {
      In := Unit
      Out := Empty
      src := fun _ => (SrcStream.clStream 8).chan
      dst := Empty.elim
      kernel := frpSinkKernel CacheLinePkg _ }
  | .merge => {
      In := Fin 8
      Out := Unit
      src := fun i => (SrcStream.outStream i).chan
      dst := fun _ => SrcStream.out.chan
      kernel := srcMergeKernel }

/-- `src_cache_access`. -/
def srcCacheAccess (vars : Fin 8 → PeVars) (depth : Chan SrcStream → ℕ) :
    Network SrcProc SrcStream SrcWord where
  node := srcCall vars
  depth := depth

variable {vars : Fin 8 → PeVars} {depth : Chan SrcStream → ℕ}

theorem srcCacheAccess_pointToPoint : (srcCacheAccess vars depth).PointToPoint := by
  -- Lines enter the first element and leave the last one.
  have hfirst : ∀ a : Fin 8, (SrcStream.clStream 0).chan ≠ (SrcStream.clStream a.succ).chan := by
    decide
  have hlast : ∀ a : Fin 8, (SrcStream.clStream a.castSucc).chan ≠ (SrcStream.clStream 8).chan := by
    decide
  have hpass : ∀ a b : Fin 8, ((SrcStream.clStream a.castSucc).chan =
      (SrcStream.clStream b.castSucc).chan → a = b) ∧
        ((SrcStream.clStream a.succ).chan = (SrcStream.clStream b.succ).chan → a = b) := by
    decide
  constructor
  · rintro ⟨p, i⟩ ⟨q, j⟩ h
    cases p <;> cases q
    case pe.pe a b =>
      cases i <;> cases j
      case in_.in_ => cases h; rfl
      case cacheIn.cacheIn => rw [(hpass a b).1 h]
      all_goals cases h
    case pe.sink a =>
      cases i
      · cases h
      · exact absurd h (hlast a)
    case sink.pe b =>
      cases j
      · cases h
      · exact absurd h.symm (hlast b)
    all_goals first
      | (cases h; rfl)
      | (cases i <;> cases h)
      | (cases j <;> cases h)
  · rintro ⟨p, i⟩ ⟨q, j⟩ h
    cases p <;> cases q
    case pe.pe a b =>
      cases i <;> cases j
      case out.out => cases h; rfl
      case cacheOut.cacheOut => rw [(hpass a b).2 h]
      all_goals cases h
    case axisToFrp.pe b =>
      cases j
      · cases h
      · exact absurd h (hfirst b)
    case pe.axisToFrp a =>
      cases i
      · cases h
      · exact absurd h.symm (hfirst a)
    all_goals first
      | (cases h; rfl)
      | (cases i <;> cases h)
      | (cases j <;> cases h)

/-! ## The plan -/

/-- The sources that element `i` is given. -/
def sourcesOf (i : Fin 8) (vecs : List Vec) : List (BitVec 32) :=
  vecs.flatMap fun v => [v ⟨14 - 2 * i, by omega⟩, v ⟨15 - 2 * i, by omega⟩]

/-- The property words of a vector of sources. -/
def answers (input : ℕ → BitVec 32) (v : Vec) : Vec := fun k => input (v k).toNat

/-- The vectors as they come in, with one behind them that only carries the end. -/
def vectorStream (vecs : List Vec) (terminator : Vec) : List (AxiPkg Vec) :=
  vecs.map (⟨·, false⟩) ++ [⟨terminator, true⟩]

theorem sentTo_srcBuffer (vecs : List Vec) (terminator : Vec) :
    sentTo () (srcBuffer.answers none (vectorStream vecs terminator)) =
      (flagged vecs).map reversed := by
  have hkept : ∀ vecs v, sentTo () (srcBuffer.answers (some ⟨v, false⟩)
      (vectorStream vecs terminator)) = (flagged (v :: vecs)).map reversed := by
    intro vecs
    induction vecs with
    | nil => exact fun v => rfl
    | cons w vecs ih =>
        intro v
        rw [flagged, List.map_cons, ← ih w]
        rfl
  cases vecs with
  | nil => rfl
  | cons v vecs => exact hkept vecs v

theorem sentTo_srcDispatch (i : Fin 8) (pkgs : List (AxiPkg Vec)) :
    sentTo i (srcDispatch.answers () (pkgs.map reversed)) = pkgs.flatMap (dealt i) := by
  induction pkgs with
  | nil => rfl
  | cons pkg pkgs ih =>
      have hfirst : sentTo i (srcDispatch.answer () (reversed pkg)).2 = dealt i pkg := by
        fin_cases i <;> rfl
      rw [List.flatMap_cons, ← ih, ← hfirst, ← sentTo_append]
      rfl

theorem flagged_dealt (i : Fin 8) (vecs : List Vec) :
    (flagged vecs).flatMap (dealt i) = flagged (sourcesOf i vecs) := by
  induction vecs with
  | nil => rfl
  | cons v vecs ih =>
      rw [flagged, List.flatMap_cons, ih]
      cases vecs <;> rfl

theorem dealt_answers (input : ℕ → BitVec 32) (i : Fin 8) (vecs : List Vec) :
    (flagged (vecs.map (answers input))).flatMap (dealt i) =
      (flagged (sourcesOf i vecs)).map (answer input) := by
  rw [← flagged_dealt]
  induction vecs with
  | nil => rfl
  | cons v vecs ih =>
      rw [List.map_cons, flagged, flagged, List.flatMap_cons, List.flatMap_cons, ih,
        List.map_append, List.isEmpty_map]
      rfl

/-- The sources of an element ascend with the sources of the vectors. -/
theorem sourcesOf_pairwise {vecs : List Vec}
    (h : (vecs.flatMap List.ofFn).Pairwise (· ≤ ·)) (i : Fin 8) :
    (sourcesOf i vecs).Pairwise (· ≤ ·) := by
  have hpositions : ∀ i : Fin 8, List.Sublist
      [(⟨14 - 2 * i, by omega⟩ : Fin 16), ⟨15 - 2 * i, by omega⟩] (List.finRange 16) := by decide
  refine h.sublist ?_
  induction vecs with
  | nil => exact .slnil
  | cons v vecs ih =>
      have hpair : List.Sublist [v ⟨14 - 2 * i, by omega⟩, v ⟨15 - 2 * i, by omega⟩]
          (List.ofFn v) := by
        rw [List.ofFn_eq_map]
        exact (hpositions i).map v
      exact hpair.append (ih (List.pairwise_append.mp h).2.1)

section Plan

variable (input : ℕ → BitVec 32) (vecs : List Vec) (terminator : Vec) (lines : List CacheLinePkg)

/-- The words of every stream. -/
def srcWords : ∀ c : Chan SrcStream, List (SrcWord c.1)
  | ⟨_, .in_⟩ => vectorStream vecs terminator
  | ⟨_, .svFrp⟩ => (flagged vecs).map reversed
  | ⟨_, .svStream i⟩ => (flagged vecs).flatMap (dealt i)
  | ⟨_, .outStream i⟩ => (flagged (vecs.map (answers input))).flatMap (dealt i)
  | ⟨_, .out⟩ => flagged (vecs.map (answers input))
  | ⟨_, .cacheLineIn⟩ => lines
  | ⟨_, .clStream _⟩ => lines

/-- What every process has ahead. -/
def srcAhead : ∀ p, (srcCall vars p).kernel.σ →
    (∀ i, List (SrcWord ((srcCall vars p).src i).1)) →
      (∀ o, List (SrcWord ((srcCall vars p).dst o).1)) → Prop
  | .buffer => emitterAhead srcBuffer
  | .dispatch => emitterAhead srcDispatch
  | .axisToFrp => forwardAhead
  | .pe i => peAhead input (sourcesOf i vecs) (lines.map AxiPkg.data)
  | .sink => fun _ _ _ => True
  | .merge => mergeAhead

/-- The plan of `src_cache_access`: every source is answered with its property word. -/
def srcPlan : (srcCacheAccess vars depth).Plan where
  words := srcWords input vecs terminator lines
  ahead := srcAhead input vecs lines
  start p := by
    cases p with
    | buffer => exact fun _ => (sentTo_srcBuffer vecs terminator).symm
    | dispatch => exact fun i => (sentTo_srcDispatch i (flagged vecs)).symm
    | axisToFrp => exact rfl
    | pe i =>
        exact peAhead_start (flagged_dealt i vecs) rfl (dealt_answers input i vecs) rfl
    | sink => trivial
    | merge => exact .inl ⟨rfl, fun _ => rfl⟩

variable {input vecs terminator lines}

/-- Every process pursues the plan, if the lines spare the sources of every element. -/
theorem srcPlan_pursued {nums : List ℕ}
    (hfeed : ∀ i, Feed input nums (sourcesOf i vecs) (lines.map AxiPkg.data))
    (s : (srcCacheAccess vars depth).State) :
    (srcPlan input vecs terminator lines : (srcCacheAccess vars depth).Plan).Pursued s := by
  intro p X Y _ _ hahead
  cases p with
  | buffer => exact emitterAhead_pursues srcBuffer _ X Y hahead
  | dispatch => exact emitterAhead_pursues srcDispatch _ X Y hahead
  | axisToFrp => exact forwardAhead_pursues _ X Y hahead
  | pe i => exact peAhead_pursues (hfeed i) _ X Y hahead
  | sink => exact fun _ _ _ => trivial
  | merge => exact mergeAhead_pursues _ X Y hahead

end Plan

/-! ## Every run -/

/-- A stream of vectors with ascending sources and the coalesced commands for its lines. -/
structure Request (log : ℕ) (vecs : List Vec) (cmds : List (BitVec 32)) : Prop where
  burst : log ≤ 28
  ascending : (vecs.flatMap List.ofFn).Pairwise (· ≤ ·)
  commands : cmds.Pairwise (· < ·)
  covered : ∀ v ∈ vecs, ∀ k, ∃ idx ∈ cmds, (v k).toNat / 2 ^ (log + 4) = idx.toNat
  beforeEnd : ∀ idx ∈ cmds, idx < endIdx log

/-- The lines that `read_with_request` sends for the commands. -/
def lineStream (log : ℕ) (input : ℕ → BitVec 32) (cmds : List (BitVec 32)) : List CacheLinePkg :=
  readWithRequest log input 0 (cmds ++ [endIdx log])

theorem mem_sourcesOf {i : Fin 8} {vecs : List Vec} {u : BitVec 32} (h : u ∈ sourcesOf i vecs) :
    ∃ v ∈ vecs, ∃ k, v k = u := by
  obtain ⟨v, hv, hu⟩ := List.mem_flatMap.mp h
  rcases List.mem_pair.mp hu with rfl | rfl
  · exact ⟨v, hv, _, rfl⟩
  · exact ⟨v, hv, _, rfl⟩

/-- The elements are fed with what a request needs. -/
theorem Request.feed {log : ℕ} {vecs : List Vec} {cmds : List (BitVec 32)}
    (h : Request log vecs cmds) {input : ℕ → BitVec 32} {i : Fin 8}
    (hspared : Spared (sourcesOf i vecs) ((lineStream log input cmds).map AxiPkg.data)) :
    Feed input (burstNums log cmds) (sourcesOf i vecs)
      ((lineStream log input cmds).map AxiPkg.data) where
  stream := readWithRequest_lines h.burst input h.commands h.beforeEnd
  ascending := sourcesOf_pairwise h.ascending i
  covered u hu := by
    obtain ⟨v, hv, k, rfl⟩ := mem_sourcesOf hu
    obtain ⟨idx, hidx, hquot⟩ := h.covered v hv k
    refine mem_burstNums.mpr ⟨idx, hidx, ?_⟩
    rw [← hquot, Nat.div_div_eq_div_mul, pow_add, Nat.mul_comm]
    rfl
  spared := hspared

section Runs

variable (vecs : List Vec) (terminator : Vec) (lines : List CacheLinePkg)

/-- The step writes no vector and no line but the next one of the given streams. -/
def feeding (s : (srcCacheAccess vars depth).State) : (srcCacheAccess vars depth).Label → Bool
  | .put ⟨.vector, .in_⟩ a =>
      decide (s.written SrcStream.in_.chan ++ [a] <+: vectorStream vecs terminator)
  | .put ⟨.line, .cacheLineIn⟩ a => decide (s.written SrcStream.cacheLineIn.chan ++ [a] <+: lines)
  | .put _ _ => false
  | _ => true

/-- The surroundings feed the given streams. -/
def Feeding (s : (srcCacheAccess vars depth).State) (l : (srcCacheAccess vars depth).Label) :
    Prop := feeding vecs terminator lines s l = true

instance (s : (srcCacheAccess vars depth).State) :
    DecidablePred (Feeding vecs terminator lines s) := fun l =>
  inferInstanceAs (Decidable (feeding vecs terminator lines s l = true))

variable {vecs terminator lines}

theorem feeds_of_feeding {input : ℕ → BitVec 32} {s : (srcCacheAccess vars depth).State}
    {l : (srcCacheAccess vars depth).Label} (h : Feeding vecs terminator lines s l) :
    (srcPlan input vecs terminator lines).Feeds s l := by
  cases l with
  | put c a =>
      obtain ⟨s, c⟩ := c
      cases c with
      | in_ =>
          have hnext := of_decide_eq_true h
          exact hnext
      | cacheLineIn =>
          have hnext := of_decide_eq_true h
          exact hnext
      | _ => cases h
  | _ => trivial

end Runs

/-- For every stream of ascending sources, the lines for them and every interleaving: if the lines
spare the sources of each processing element, then each of them answers its sources with their
property words, in order, and the vectors that leave are those of the property words. -/
theorem srcCacheAccess_answers {log : ℕ} {input : ℕ → BitVec 32} {vecs : List Vec}
    {terminator : Vec} {cmds : List (BitVec 32)} (hrequest : Request log vecs cmds)
    (hspared : ∀ i, Spared (sourcesOf i vecs) ((lineStream log input cmds).map AxiPkg.data))
    {tr : List (srcCacheAccess vars depth).Label} {s : (srcCacheAccess vars depth).State}
    (hr : (srcCacheAccess vars depth).GuardedRun
      (Feeding vecs terminator (lineStream log input cmds)) (srcCacheAccess vars depth).init tr s) :
    (∀ i, s.written (SrcStream.outStream i).chan <+:
      (flagged (sourcesOf i vecs)).map (answer input)) ∧
        s.written SrcStream.out.chan <+: flagged (vecs.map (answers input)) := by
  have hholds : (srcPlan input vecs terminator (lineStream log input cmds)).Holds s :=
    Network.Plan.holds srcCacheAccess_pointToPoint (fun _ _ hok => feeds_of_feeding hok)
      (fun _ s _ _ _ _ => srcPlan_pursued (fun i => hrequest.feed (hspared i)) s) hr
  refine ⟨fun i => ?_, hholds.written SrcStream.out.chan⟩
  rw [← dealt_answers]
  exact hholds.written (SrcStream.outStream i).chan

/-- A property word for every vertex. -/
def someWords (n : ℕ) : BitVec 32 := .ofNat 32 (n + 7)

/-- Variables before anything has been computed. -/
def noVars (_ : Fin 8) : PeVars where
  prop _ _ := (0, 0)
  tempBuffer _ := (0, 0)
  sv := 0
  frpFlag := false
  svReady := false
  readyToSend := false
  propValue := 0
  tbValid := false
  tbIndex := 0
  endOfSv := false
  endOfCa := false
  caUpdated := false
  caNeedUpdate := false
  minVertexIndex := 0
  maxVertexIndex := 0
  maxVertexIndexCp := 0
  maxVertexIndexBufferSv := 0
  maxVertexIndexBufferCu := 0
  requiredMinVertexIndex := 0

/-- Element 0 writes line `n` to its table. -/
def fillFirst (n : ℕ) : List (srcCacheAccess noVars fun _ => 2).Action :=
  .put SrcStream.cacheLineIn.chan ⟨lineRec someWords n, false⟩
    :: List.replicate 2 (.fire .axisToFrp none) ++ List.replicate 7 (.fire (.pe 0) none)

/-- Two vectors are put in and element 0 answers the first of its sources. -/
def askFirst (pkg pkg' : AxiPkg Vec) : List (srcCacheAccess noVars fun _ => 2).Action :=
  [.put SrcStream.in_.chan pkg, .put SrcStream.in_.chan pkg']
    ++ List.replicate 3 (.fire .buffer none) ++ List.replicate 2 (.fire .dispatch none)
    ++ List.replicate 3 (.fire (.pe 0) none)

/-- A vector of sources 0. -/
def zeros : Vec := fun _ => 0

/-- A vector of sources one table size further. -/
def further : Vec := fun _ => 65536

/-- The commands for `zeros`, and those for `zeros` and `further`, with bursts of one line. -/
theorem request_zeros : Request 0 [zeros] [0] ∧ Request 0 [zeros, further] [0, 4096] := by
  have hend : ∀ cmds : List (BitVec 32), (∀ idx ∈ cmds, idx.toNat ≤ 4096) →
      ∀ idx ∈ cmds, idx < endIdx 0 := by
    intro cmds hcmds idx hidx
    have htop : (endIdx 0).toNat + 1 = 2 ^ (28 - 0) := endIdx_toNat (Nat.zero_le 28)
    have hle := hcmds idx hidx
    rw [BitVec.lt_def]
    omega
  have hzeros : ∀ k, (zeros k).toNat / 2 ^ (0 + 4) = (0 : BitVec 32).toNat := by decide
  have hnext : ∀ k, (further k).toNat / 2 ^ (0 + 4) = (4096 : BitVec 32).toNat := by decide
  refine ⟨⟨by decide, by decide +kernel, by decide, fun v hv k => ?_, hend _ (by simp)⟩,
    ⟨by decide, by decide +kernel, by decide, fun v hv k => ?_, hend _ (by simp)⟩⟩
  · obtain rfl := List.mem_singleton.mp hv
    exact ⟨0, by simp, hzeros k⟩
  · rcases List.mem_pair.mp hv with rfl | rfl
    · exact ⟨0, by simp, hzeros k⟩
    · exact ⟨4096, by simp, hnext k⟩

/-- No line behind the first one has the position of the first line. -/
theorem spared_zeros (i : Fin 8) :
    Spared (sourcesOf i [zeros]) ((lineStream 0 someWords [0]).map AxiPkg.data) := by
  intro seen u rest hsources before x after hlines hlt hposition
  have hu : u ∈ sourcesOf i [zeros] := by simp [hsources]
  obtain ⟨v, hv, k, rfl⟩ := mem_sourcesOf hu
  obtain rfl := List.mem_singleton.mp hv
  match before, hlines, hlt with
  | [], _, hlt => exact absurd hlt ((by decide : ∀ k, ¬ zeros k < maxIndex []) k)
  | _ :: before, hlines, _ =>
      have hx : x ∈ ((lineStream 0 someWords [0]).map AxiPkg.data).tail := by
        rw [hlines]
        simp
      have haddr : ∀ y ∈ ((lineStream 0 someWords [0]).map AxiPkg.data).tail,
          cacheAddress y.addr ≠ cacheAddress 0 := by decide
      exact absurd hposition (haddr x hx)

/-- With only one line, the first source gets its property word. -/
theorem srcCacheAccess_answers_zeros : ∃ (tr : _) (s : (srcCacheAccess noVars fun _ => 2).State),
    (srcCacheAccess noVars fun _ => 2).GuardedRun
      (Feeding [zeros] zeros (lineStream 0 someWords [0]))
        (srcCacheAccess noVars fun _ => 2).init tr s ∧
      s.written (SrcStream.outStream 0).chan = [⟨7, false⟩] ∧
        [⟨7, false⟩] <+: (flagged (sourcesOf 0 [zeros])).map (answer someWords) := by
  obtain ⟨tr, s, hs, hout⟩ : ∃ tr s, Network.execute
      (Feeding [zeros] zeros (lineStream 0 someWords [0]))
        (fillFirst 0 ++ askFirst ⟨zeros, false⟩ ⟨zeros, true⟩) []
          (srcCacheAccess noVars fun _ => 2).init = some (tr, s) ∧
        s.written (SrcStream.outStream 0).chan = [⟨7, false⟩] := ⟨_, _, rfl, rfl⟩
  have hr := Network.execute_run .nil hs
  refine ⟨tr, s, hr, hout, ?_⟩
  rw [← hout]
  exact (srcCacheAccess_answers request_zeros.1 spared_zeros hr).1 0

/-- A source 0 that comes late is answered with the word of a vertex one table size further. -/
theorem srcCacheAccess_displaced : ¬ ∀ (log : ℕ) (input : ℕ → BitVec 32) (vecs : List Vec)
    (terminator : Vec) (cmds : List (BitVec 32)), Request log vecs cmds →
      ∀ (vars : Fin 8 → PeVars) (depth : Chan SrcStream → ℕ)
        (tr : List (srcCacheAccess vars depth).Label) (s : (srcCacheAccess vars depth).State),
        (srcCacheAccess vars depth).GuardedRun
          (Feeding vecs terminator (lineStream log input cmds))
            (srcCacheAccess vars depth).init tr s →
          ∀ i, s.written (SrcStream.outStream i).chan <+:
            (flagged (sourcesOf i vecs)).map (answer input) := by
  intro hall
  obtain ⟨tr, s, hs, hout⟩ : ∃ tr s, Network.execute
      (Feeding [zeros, further] zeros (lineStream 0 someWords [0, 4096]))
        (fillFirst 0 ++ fillFirst 4096 ++ askFirst ⟨zeros, false⟩ ⟨further, false⟩) []
          (srcCacheAccess noVars fun _ => 2).init = some (tr, s) ∧
        s.written (SrcStream.outStream 0).chan = [⟨65543, false⟩] := ⟨_, _, rfl, rfl⟩
  have hwrong := hall 0 someWords [zeros, further] zeros [0, 4096] request_zeros.2 noVars (fun _ => 2)
    tr s (Network.execute_run .nil hs) 0
  rw [hout] at hwrong
  exact absurd hwrong (by decide)

end RidgeWalker.SrcCache
