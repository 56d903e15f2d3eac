import RidgeWalker.Dataflow.Repeats
import RidgeWalker.Dataflow.Stillness
import RidgeWalker.SrcCache.Access

/-!
# Coalescing sources

`coalesce` asks for every cache line once as long as the sources stay in it.  The sixteen lanes of a
vector pass a chain of fifteen stages, each of which appends its lane to the group of the lanes
before unless it repeats the last of them; a filter removes what repeats across vectors.

Main results:

- Theorem `mergeSameItem_path`: what a stage makes of its inputs, whatever arrives later.
- Theorem `mergeSame_groups`: a stage appends a lane to every group.
-/

namespace RidgeWalker.SrcCache

open Bits Dataflow Memory Switch

/-! ## Groups -/

/-- An item of `single_source_vertex_frp_inner_stream_t`. -/
abbrev FrpItem := AxiPkg (BitVec 32)

theorem flagged_cons {α : Type} {a : α} {l : List α} (h : l ≠ []) :
    flagged (a :: l) = ⟨a, false⟩ :: flagged l := by
  cases l with
  | nil => exact absurd rfl h
  | cons b l => rfl

theorem map_data_flagged {α : Type} (l : List α) : (flagged l).map AxiPkg.data = l := by
  induction l with
  | nil => rfl
  | cons a l ih => rw [flagged, List.map_cons, ih]

/-- What `merge_same_item` makes of the words of its two inputs. -/
def mergeSame : List FrpItem → List (BitVec 32) → List FrpItem
  | a :: as, b :: bs =>
      if a.last then
        if a.data = b then ⟨a.data, true⟩ :: mergeSame as bs
        else ⟨a.data, false⟩ :: ⟨b, true⟩ :: mergeSame as bs
      else ⟨a.data, false⟩ :: mergeSame as (b :: bs)
  | _, _ => []

@[simp] theorem mergeSame_nil_left (bs : List (BitVec 32)) : mergeSame [] bs = [] := rfl

@[simp] theorem mergeSame_nil_right (as : List FrpItem) : mergeSame as [] = [] := by
  cases as <;> rfl

/-- A stage appends its word to a group unless the group ends with it. -/
theorem mergeSame_flagged (g : List (BitVec 32)) (hg : g ≠ []) (b : BitVec 32)
    (as : List FrpItem) (bs : List (BitVec 32)) :
    mergeSame (flagged g ++ as) (b :: bs) =
      flagged (g ++ fresh g.getLast? [b]) ++ mergeSame as bs := by
  induction g with
  | nil => exact absurd rfl hg
  | cons a g ih =>
      cases g with
      | nil =>
          by_cases hab : a = b
          · subst hab
            simp [flagged, mergeSame, fresh]
          · simp [flagged, mergeSame, fresh, hab]
      | cons a' g =>
          have hne : a' :: g ++ fresh (a' :: g).getLast? [b] ≠ [] := by simp
          have hrest := ih (List.cons_ne_nil _ _)
          rw [flagged_cons (List.cons_ne_nil _ _), List.getLast?_cons_cons, List.cons_append,
            List.cons_append, flagged_cons hne, List.cons_append, ← hrest]
          simp [mergeSame]

/-- A stage appends a lane to every group. -/
theorem mergeSame_groups {V : Type} (group : V → List (BitVec 32)) (hgroup : ∀ v, group v ≠ [])
    (lane : V → BitVec 32) (vs : List V) :
    mergeSame (vs.flatMap fun v => flagged (group v)) (vs.map lane) =
      vs.flatMap fun v => flagged (group v ++ fresh (group v).getLast? [lane v]) := by
  induction vs with
  | nil => rfl
  | cons v vs ih =>
      rw [List.flatMap_cons, List.map_cons, mergeSame_flagged _ (hgroup v), ih, List.flatMap_cons]

/-- More words do not change what a stage has made of those before. -/
theorem mergeSame_isPrefix {as as' : List FrpItem} {bs bs' : List (BitVec 32)} (ha : as <+: as')
    (hb : bs <+: bs') : mergeSame as bs <+: mergeSame as' bs' := by
  induction as generalizing as' bs bs' with
  | nil => exact List.nil_prefix
  | cons a as ih =>
      obtain ⟨more, rfl⟩ := ha
      cases bs with
      | nil => exact List.nil_prefix
      | cons b bs =>
          obtain ⟨more', rfl⟩ := hb
          rw [List.cons_append, List.cons_append, mergeSame, mergeSame]
          split
          · split
            · exact List.cons_prefix_cons.mpr
                ⟨rfl, ih (List.prefix_append _ _) (List.prefix_append _ _)⟩
            · exact List.cons_prefix_cons.mpr ⟨rfl, List.cons_prefix_cons.mpr
                ⟨rfl, ih (List.prefix_append _ _) (List.prefix_append _ _)⟩⟩
          · exact List.cons_prefix_cons.mpr
              ⟨rfl, ih (List.prefix_append _ _) (List.prefix_append _ _)⟩

/-- The number of groups that have been closed. -/
def lasts (items : List FrpItem) : ℕ := items.countP AxiPkg.last

theorem lasts_mono {items items' : List FrpItem} (h : items <+: items') :
    lasts items ≤ lasts items' :=
  h.sublist.countP_le

/-- A stage closes a group for every group it has and every word to append. -/
theorem lasts_mergeSame (as : List FrpItem) (bs : List (BitVec 32)) :
    lasts (mergeSame as bs) = min (lasts as) bs.length := by
  induction as generalizing bs with
  | nil => simp [lasts]
  | cons a as ih =>
      cases bs with
      | nil => simp [lasts]
      | cons b bs =>
          have hrest := ih bs
          have hsame := ih (b :: bs)
          unfold lasts at hrest hsame ⊢
          rw [mergeSame]
          cases hlast : a.last with
          | true =>
              by_cases hab : a.data = b
              · simp [hab, hlast, hrest]
              · simp [hab, hlast, hrest]
          | false => simpa [hlast] using hsame

/-! ## `merge_same_item` -/

/-- `COAL_STATE`. -/
inductive CoalState where
  | stSrc1
  | stSrc2
deriving DecidableEq

/-- The variables of `merge_same_item`; an invalid item is `none`. -/
structure MergeVars where
  src1 : Option FrpItem
  src2 : Option (BitVec 32)
  currState : CoalState

/-- Registers of `merge_same_item`. -/
inductive MergeRegs where
  | poll1 (v : MergeVars)
  | poll2 (v : MergeVars)
  | write (frpOut : FrpItem) (v : MergeVars)

namespace MergeVars

/-- The item that the `switch` writes, and the variables after it. -/
def output (v : MergeVars) : Option (FrpItem × MergeVars) :=
  match v.currState, v.src1, v.src2 with
  | .stSrc1, some src1, some src2 =>
      if src1.last then
        if src1.data = src2 then some (⟨src1.data, true⟩, ⟨none, none, .stSrc1⟩)
        else some (⟨src1.data, false⟩, ⟨none, some src2, .stSrc2⟩)
      else some (⟨src1.data, false⟩, ⟨none, some src2, .stSrc1⟩)
  | .stSrc2, src1, some src2 => some (⟨src2, true⟩, ⟨src1, none, .stSrc1⟩)
  | _, _, _ => none

/-- The `switch`.  When it writes nothing, the next iteration polls for what is missing. -/
def switch (v : MergeVars) : MergeRegs :=
  match v.output with
  | some (frpOut, v') => .write frpOut v'
  | none => if v.src1.isNone then .poll1 v else .poll2 v

/-- The second poll is skipped when `src2` is valid. -/
def fetch2 (v : MergeVars) : MergeRegs := if v.src2.isNone then .poll2 v else v.switch

/-- The first poll is skipped when `src1` is valid. -/
def fetch1 (v : MergeVars) : MergeRegs := if v.src1.isNone then .poll1 v else v.fetch2

end MergeVars

/-- The streams that `merge_same_item` reads. -/
inductive MergeIn where
  | in1
  | in2
deriving DecidableEq

instance : Fintype MergeIn := ⟨{.in1, .in2}, fun x => by cases x <;> decide⟩

/-- The loop of `merge_same_item`. -/
def mergeSameItemKernel : Kernel (fun _ : MergeIn => FrpItem) (fun _ : Unit => FrpItem) where
  σ := MergeRegs
  Ω := Empty
  start := .poll1 ⟨none, none, .stSrc1⟩
  op
    | .poll1 v => .readNb .in1 fun
        | some src1 => ({ v with src1 := some src1 } : MergeVars).fetch2
        | none => v.fetch2
    | .poll2 v => .readNb .in2 fun
        | some src2 => ({ v with src2 := some src2.data } : MergeVars).switch
        | none => v.switch
    | .write frpOut v => .write () frpOut v.fetch1

/-- What will be written when `as` and `bs` are still to be read. -/
def MergeVars.rest (v : MergeVars) (as : List FrpItem) (bs : List (BitVec 32)) : List FrpItem :=
  match v.currState with
  | .stSrc1 => mergeSame (v.src1.toList ++ as) (v.src2.toList ++ bs)
  | .stSrc2 => v.src2.toList.map (⟨·, true⟩) ++ mergeSame (v.src1.toList ++ as) bs

/-- The item that is being written, and what will be written after it. -/
def MergeRegs.rest (r : MergeRegs) (as : List FrpItem) (bs : List (BitVec 32)) : List FrpItem :=
  match r with
  | .poll1 v | .poll2 v => v.rest as bs
  | .write frpOut v => frpOut :: v.rest as bs

/-- In the second state there is a word to append. -/
def MergeVars.Valid (v : MergeVars) : Prop := v.currState = .stSrc2 → v.src2 ≠ none

/-- A poll is only made for what is missing. -/
def MergeRegs.Valid : MergeRegs → Prop
  | .poll1 v => v.Valid ∧ v.src1 = none
  | .poll2 v => v.Valid ∧ v.src2 = none
  | .write _ v => v.Valid

theorem MergeVars.switch_rest {v : MergeVars} (h : v.Valid) :
    v.switch.Valid ∧ ∀ as bs, v.switch.rest as bs = v.rest as bs := by
  obtain ⟨src1, src2, currState⟩ := v
  cases currState with
  | stSrc1 =>
      cases src1 with
      | none => exact ⟨⟨h, rfl⟩, fun _ _ => rfl⟩
      | some src1 =>
          cases src2 with
          | none => exact ⟨⟨h, rfl⟩, fun _ _ => rfl⟩
          | some src2 =>
              obtain ⟨data, last⟩ := src1
              cases last with
              | false =>
                  refine ⟨nofun, fun as bs => ?_⟩
                  simp [switch, output, MergeRegs.rest, rest, mergeSame]
              | true =>
                  by_cases hsame : data = src2
                  · have hswitch : switch ⟨some ⟨data, true⟩, some src2, .stSrc1⟩ =
                        .write ⟨data, true⟩ ⟨none, none, .stSrc1⟩ := by
                      simp [switch, output, hsame]
                    rw [hswitch]
                    refine ⟨nofun, fun as bs => ?_⟩
                    simp [MergeRegs.rest, rest, mergeSame, hsame]
                  · have hswitch : switch ⟨some ⟨data, true⟩, some src2, .stSrc1⟩ =
                        .write ⟨data, false⟩ ⟨none, some src2, .stSrc2⟩ := by
                      simp [switch, output, hsame]
                    rw [hswitch]
                    refine ⟨fun _ => Option.some_ne_none _, fun as bs => ?_⟩
                    simp [MergeRegs.rest, rest, mergeSame, hsame]
  | stSrc2 =>
      cases src2 with
      | none => exact absurd rfl (h rfl)
      | some src2 => exact ⟨nofun, fun _ _ => rfl⟩

theorem MergeVars.fetch2_rest {v : MergeVars} (h : v.Valid) :
    v.fetch2.Valid ∧ ∀ as bs, v.fetch2.rest as bs = v.rest as bs := by
  unfold MergeVars.fetch2
  split
  · rename_i hsrc2
    exact ⟨⟨h, Option.isNone_iff_eq_none.mp hsrc2⟩, fun _ _ => rfl⟩
  · exact v.switch_rest h

theorem MergeVars.fetch1_rest {v : MergeVars} (h : v.Valid) :
    v.fetch1.Valid ∧ ∀ as bs, v.fetch1.rest as bs = v.rest as bs := by
  unfold MergeVars.fetch1
  split
  · rename_i hsrc1
    exact ⟨⟨h, Option.isNone_iff_eq_none.mp hsrc1⟩, fun _ _ => rfl⟩
  · exact v.fetch2_rest h

/-- What `merge_same_item` has ahead. -/
def mergeSameAhead (r : MergeRegs) (X : MergeIn → List FrpItem) (Y : Unit → List FrpItem) : Prop :=
  r.Valid ∧ Y () = r.rest (X .in1) ((X .in2).map AxiPkg.data)

theorem mergeSameAhead_pursues (r : MergeRegs) (X : MergeIn → List FrpItem) (Y : Unit → List FrpItem)
    (h : mergeSameAhead r X Y) :
    mergeSameItemKernel.Pursues mergeSameAhead X Y (mergeSameItemKernel.op r) := by
  obtain ⟨hvalid, hY⟩ := h
  cases r with
  | poll1 v =>
      obtain ⟨hv, hsrc1⟩ := hvalid
      refine ⟨⟨(v.fetch2_rest hv).1, by rw [hY, (v.fetch2_rest hv).2]; rfl⟩, ?_⟩
      intro src1 rest hX
      have hv' : ({ v with src1 := some src1 } : MergeVars).Valid := hv
      have hother : MergeIn.in2 ≠ .in1 := by decide
      refine ⟨(MergeVars.fetch2_rest hv').1, ?_⟩
      rw [(MergeVars.fetch2_rest hv').2, Function.update_self, Function.update_of_ne hother, hY, hX]
      obtain ⟨_, src2, currState⟩ := v
      subst hsrc1
      cases currState <;> rfl
  | poll2 v =>
      obtain ⟨hv, hsrc2⟩ := hvalid
      refine ⟨⟨(v.switch_rest hv).1, by rw [hY, (v.switch_rest hv).2]; rfl⟩, ?_⟩
      intro src2 rest hX
      have hv' : ({ v with src2 := some src2.data } : MergeVars).Valid :=
        fun _ => Option.some_ne_none _
      have hother : MergeIn.in1 ≠ .in2 := by decide
      refine ⟨(MergeVars.switch_rest hv').1, ?_⟩
      rw [(MergeVars.switch_rest hv').2, Function.update_self, Function.update_of_ne hother, hY, hX]
      obtain ⟨src1, _, currState⟩ := v
      subst hsrc2
      cases currState with
      | stSrc1 => rfl
      | stSrc2 => exact absurd rfl (hv rfl)
  | write frpOut v =>
      have hv : v.Valid := hvalid
      refine ⟨v.rest (X .in1) ((X .in2).map AxiPkg.data), hY, (v.fetch1_rest hv).1, ?_⟩
      rw [Function.update_self, (v.fetch1_rest hv).2]

/-- What a stage has written, and what it will write for the words it has read and for any words
that follow them. -/
theorem mergeSameItem_path {r : MergeRegs} {R : MergeIn → List FrpItem} {S : Unit → List FrpItem}
    (hp : mergeSameItemKernel.Path mergeSameItemKernel.start r R S) (as bs : List FrpItem) :
    r.Valid ∧ mergeSame (R .in1 ++ as) ((R .in2 ++ bs).map AxiPkg.data) =
      S () ++ r.rest as (bs.map AxiPkg.data) := by
  have hstart : mergeSameAhead mergeSameItemKernel.start (fun i => R i ++ MergeIn.rec as bs i)
      fun _ => mergeSame (R .in1 ++ as) ((R .in2 ++ bs).map AxiPkg.data) :=
    ⟨⟨nofun, rfl⟩, rfl⟩
  obtain ⟨X, Y, hX, hY, hvalid, hrest⟩ :=
    hp.pursues mergeSameAhead_pursues hstart fun i => List.prefix_append _ _
  have hX1 : X .in1 = as := (List.append_cancel_left (hX .in1)).symm
  have hX2 : X .in2 = bs := (List.append_cancel_left (hX .in2)).symm
  rw [hX1, hX2] at hrest
  exact ⟨hvalid, (hY ()).trans (by rw [hrest])⟩

/-! ## The other processes -/

/-- `cache_command_t`. -/
structure CacheCommand where
  idx : BitVec 32
  size : BitVec 32
deriving DecidableEq

/-- The line of a source; `log` is `LOG_CACHEUPDATEBURST`. -/
def lineNumber (log : ℕ) (src : BitVec 32) : BitVec 32 := src >>> (log + 4)

/-- The lines of the sources of a vector, lane by lane. -/
def lineNumbers (log : ℕ) (v : Vec) : List (BitVec 32) := List.ofFn fun i => lineNumber log (v i)

/-- `axis_to_hls_stream`. -/
def axisToHlsStream : Emitter (AxiPkg Vec) fun _ : Unit => Vec := mapEmitter AxiPkg.data

/-- `src_to_address`. -/
def srcToAddress (log : ℕ) : Emitter Vec fun _ : Fin 16 => FrpItem where
  σ := Unit
  start := ()
  answer _ v := ((), (List.finRange 16).map fun i => ⟨i, ⟨lineNumber log (v i), true⟩⟩)

/-- `filter_same_item`; `last_item` is `none` in `ST_INIT`. -/
def filterSameItem : Emitter FrpItem fun _ : Unit => FrpItem where
  σ := Option (BitVec 32)
  start := none
  answer
    | none, curr => (some curr.data, [⟨(), curr⟩])
    | some lastItem, curr =>
        if curr.data ≠ lastItem then (some curr.data, [⟨(), curr⟩]) else (some lastItem, [])

/-- `single_to_cmd`. -/
def singleToCmd : Emitter FrpItem fun _ : Unit => CacheCommand :=
  mapEmitter fun srcFrp => ⟨srcFrp.data, 1⟩

/-- `hls_to_axis_stream`. -/
def hlsToAxisStream : Emitter CacheCommand fun _ : Unit => AxiPkg CacheCommand :=
  mapEmitter fun data => ⟨data, false⟩

/-- Every lane gets its line of every vector. -/
theorem sentTo_srcToAddress (log : ℕ) (i : Fin 16) (vs : List Vec) :
    sentTo i ((srcToAddress log).answers () vs) = vs.map fun v => ⟨lineNumber log (v i), true⟩ := by
  induction vs with
  | nil => rfl
  | cons v vs ih =>
      have hone := sentTo_map_mk (fun i : Fin 16 => (⟨lineNumber log (v i), true⟩ : FrpItem))
        (List.nodup_finRange 16) (List.mem_finRange i)
      show sentTo i (((List.finRange 16).map fun i => (⟨i, ⟨lineNumber log (v i), true⟩⟩ :
        Send fun _ : Fin 16 => FrpItem)) ++ (srcToAddress log).answers () vs) = _
      rw [sentTo_append, hone, ih]
      rfl

/-- The filter on one item. -/
theorem filterSameItem_answer (prev : Option (BitVec 32)) (curr : FrpItem) (l : List (BitVec 32)) :
    (sentTo () (filterSameItem.answer prev curr).2).map AxiPkg.data ++
        fresh (filterSameItem.answer prev curr).1 l =
      fresh prev (curr.data :: l) := by
  cases prev with
  | none => rfl
  | some lastItem =>
      by_cases hsame : curr.data = lastItem
      · have hanswer : filterSameItem.answer (some lastItem) curr = (some lastItem, []) :=
          if_neg (not_not.mpr hsame)
        rw [hanswer, hsame, fresh_cons_self]
        rfl
      · have hanswer : filterSameItem.answer (some lastItem) curr =
            (some curr.data, [⟨(), curr⟩]) := if_pos hsame
        rw [hanswer, fresh_cons_of_ne (by simpa using Ne.symm hsame)]
        rfl

/-- The filter keeps the items that differ from the one before. -/
theorem sentTo_filterSameItem (prev : filterSameItem.σ) (items : List FrpItem) :
    (sentTo () (filterSameItem.answers prev items)).map AxiPkg.data =
      fresh (A := BitVec 32) prev (items.map AxiPkg.data) := by
  induction items generalizing prev with
  | nil => rfl
  | cons curr items ih =>
      rw [Emitter.answers_cons, sentTo_append, List.map_append, ih]
      exact filterSameItem_answer prev curr _

/-! ## The network -/

/-- The sorts of streams of `coalesce`. -/
inductive CoalesceSort where
  | vectorPkg
  | vector
  | item
  | cmd
  | cmdPkg
deriving DecidableEq

/-- The words of every sort. -/
abbrev CoalesceWord : CoalesceSort → Type
  | .vectorPkg => AxiPkg Vec
  | .vector => Vec
  | .item => FrpItem
  | .cmd => CacheCommand
  | .cmdPkg => AxiPkg CacheCommand

/-- The streams of `coalesce`: `single[0]` is `link 0`, `single[i + 1]` is `single i`, and
`inner_stream[i]` is `link (i + 1)`. -/
inductive CoalesceStream : CoalesceSort → Type where
  | srcIn : CoalesceStream .vectorPkg
  | srcInner : CoalesceStream .vector
  | link (k : Fin 16) : CoalesceStream .item
  | single (k : Fin 15) : CoalesceStream .item
  | out2 : CoalesceStream .item
  | cmdInner : CoalesceStream .cmd
  | cmdOut : CoalesceStream .cmdPkg
deriving DecidableEq

/-- A stream as a stream of the system. -/
abbrev CoalesceStream.chan {s : CoalesceSort} (c : CoalesceStream s) : Chan CoalesceStream := ⟨s, c⟩

/-- The stream of every lane. -/
def laneStream : Fin 16 → CoalesceStream .item := Fin.cases (.link 0) .single

/-- The processes of `coalesce`. -/
inductive CoalesceProc where
  | axisToHls
  | srcToAddress
  | merge (k : Fin 15)
  | filter
  | singleToCmd
  | hlsToAxis
deriving DecidableEq, Fintype

/-- The call of each process. -/
def coalesceCall (log : ℕ) : CoalesceProc → Call CoalesceStream CoalesceWord
  | .axisToHls => {
      In := Unit
      Out := Unit
      src := fun _ => CoalesceStream.srcIn.chan
      dst := fun _ => CoalesceStream.srcInner.chan
      kernel := emitterKernel axisToHlsStream }
  | .srcToAddress => {
      In := Unit
      Out := Fin 16
      src := fun _ => CoalesceStream.srcInner.chan
      dst := fun i => (laneStream i).chan
      kernel := emitterKernel (srcToAddress log) }
  | .merge k => {
      In := MergeIn
      Out := Unit
      src := fun i => ⟨.item, match i with
        | .in1 => .link k.castSucc
        | .in2 => .single k⟩
      dst := fun _ => (CoalesceStream.link k.succ).chan
      kernel := mergeSameItemKernel }
  | .filter => {
      In := Unit
      Out := Unit
      src := fun _ => (CoalesceStream.link (Fin.last 15)).chan
      dst := fun _ => CoalesceStream.out2.chan
      kernel := emitterKernel filterSameItem }
  | .singleToCmd => {
      In := Unit
      Out := Unit
      src := fun _ => CoalesceStream.out2.chan
      dst := fun _ => CoalesceStream.cmdInner.chan
      kernel := emitterKernel singleToCmd }
  | .hlsToAxis => {
      In := Unit
      Out := Unit
      src := fun _ => CoalesceStream.cmdInner.chan
      dst := fun _ => CoalesceStream.cmdOut.chan
      kernel := emitterKernel hlsToAxisStream }

/-- `coalesce`. -/
def coalesce (log : ℕ) (depth : Chan CoalesceStream → ℕ) :
    Network CoalesceProc CoalesceStream CoalesceWord where
  node := coalesceCall log
  depth := depth

variable {log : ℕ} {depth : Chan CoalesceStream → ℕ}

theorem laneStream_injective {i j : Fin 16} (h : laneStream i = laneStream j) : i = j := by
  induction i using Fin.cases with
  | zero =>
      induction j using Fin.cases with
      | zero => rfl
      | succ j => cases h
  | succ i =>
      induction j using Fin.cases with
      | zero => cases h
      | succ j => exact congrArg Fin.succ (CoalesceStream.single.inj h)

theorem laneStream_cases (i : Fin 16) :
    laneStream i = .link 0 ∨ ∃ k, laneStream i = .single k := by
  induction i using Fin.cases with
  | zero => exact .inl rfl
  | succ k => exact .inr ⟨k, rfl⟩

/-- No other process writes the stream of a lane. -/
theorem laneStream_ne {i : Fin 16} {c : CoalesceStream .item} (hlink : c ≠ .link 0)
    (hsingle : ∀ k, c ≠ .single k) : laneStream i ≠ c := by
  rcases laneStream_cases i with h | ⟨k, h⟩
  · rw [h]
    exact hlink.symm
  · rw [h]
    exact (hsingle k).symm

theorem chan_injective {s : CoalesceSort} {c c' : CoalesceStream s} (h : c.chan = c'.chan) :
    c = c' :=
  eq_of_heq (Sigma.mk.inj h).2

theorem link_succ_ne (k : Fin 15) : CoalesceStream.link k.succ ≠ .link 0 :=
  fun h => Fin.succ_ne_zero k (CoalesceStream.link.inj h)

theorem link_castSucc_ne (k : Fin 15) : CoalesceStream.link k.castSucc ≠ .link (Fin.last 15) :=
  fun h => (Fin.castSucc_lt_last k).ne (CoalesceStream.link.inj h)

theorem coalesce_pointToPoint : (coalesce log depth).PointToPoint := by
  constructor
  · rintro ⟨p, i⟩ ⟨q, j⟩ h
    cases p <;> cases q
    case merge.merge k k' =>
      cases i <;> cases j
      case in1.in1 =>
        have hk : k = k' := Fin.castSucc_injective _ (CoalesceStream.link.inj (chan_injective h))
        subst hk
        rfl
      all_goals first
        | (cases h; rfl)
        | cases h
    case merge.filter k =>
      cases i
      · exact absurd (chan_injective h) (link_castSucc_ne k)
      · cases h
    case filter.merge k =>
      cases j
      · exact absurd (chan_injective h).symm (link_castSucc_ne k)
      · cases h
    all_goals first
      | (cases h; rfl)
      | (cases i <;> cases h)
      | (cases j <;> cases h)
  · rintro ⟨p, i⟩ ⟨q, j⟩ h
    cases p <;> cases q
    case srcToAddress.srcToAddress =>
      have hij : i = j := laneStream_injective (chan_injective h)
      subst hij
      rfl
    case srcToAddress.merge k =>
      exact absurd (chan_injective h) (laneStream_ne (link_succ_ne k) nofun)
    case merge.srcToAddress k =>
      exact absurd (chan_injective h).symm (laneStream_ne (link_succ_ne k) nofun)
    case srcToAddress.filter => exact absurd (chan_injective h) (laneStream_ne nofun nofun)
    case filter.srcToAddress => exact absurd (chan_injective h).symm (laneStream_ne nofun nofun)
    case merge.merge k k' =>
      have hk : k = k' := Fin.succ_injective _ (CoalesceStream.link.inj (chan_injective h))
      subst hk
      rfl
    all_goals first
      | (cases h; rfl)
      | cases h

/-! ## What the streams carry -/

/-- The groups of the first `k + 1` lanes of every vector. -/
def groups (log k : ℕ) (vs : List Vec) : List FrpItem :=
  vs.flatMap fun v => flagged (fresh none ((lineNumbers log v).take (k + 1)))

theorem groups_zero (log : ℕ) (vs : List Vec) :
    groups log 0 vs = vs.map fun v => ⟨lineNumber log (v 0), true⟩ := by
  have hone : ∀ v : Vec, flagged (fresh none ((lineNumbers log v).take (0 + 1))) =
      [⟨lineNumber log (v 0), true⟩] := by
    intro v
    rw [lineNumbers, List.ofFn_succ, List.take_succ_cons, List.take_zero]
    rfl
  rw [groups, List.flatMap_congr fun v _ => hone v]
  exact List.map_eq_flatMap.symm

/-- The lanes of a vector up to lane `k`, removed repeats or not, are a nonempty list. -/
theorem fresh_lines_ne_nil (log k : ℕ) (v : Vec) :
    fresh none ((lineNumbers log v).take (k + 1)) ≠ [] := by
  rw [lineNumbers, List.ofFn_succ, List.take_succ_cons]
  exact List.cons_ne_nil _ _

/-- A stage appends its lane to the groups. -/
theorem groups_succ (log : ℕ) (k : Fin 15) (vs : List Vec) :
    mergeSame (groups log k vs) (vs.map fun v => lineNumber log (v k.succ)) =
      groups log (k + 1) vs := by
  rw [groups, mergeSame_groups _ (fresh_lines_ne_nil log k)]
  refine List.flatMap_congr fun v _ => ?_
  have hlane : (lineNumbers log v)[k.val + 1]? = some (lineNumber log (v k.succ)) := by
    rw [lineNumbers, List.getElem?_ofFn, dif_pos (by omega)]
    rfl
  have hlast := getLast?_fresh none ((lineNumbers log v).take (k + 1))
  rw [List.take_add_one (i := k.val + 1), hlane, fresh_append, ← hlast]
  simp

section Account

variable {s : (coalesce log depth).State} (hs : (coalesce log depth).Reachable s)
include hs

theorem srcInner_written :
    s.written CoalesceStream.srcInner.chan ++ sentTo () (s.regs .axisToHls).2 =
      (s.taken CoalesceStream.srcIn.chan).map AxiPkg.data := by
  have h := emitter_path axisToHlsStream (hs.path coalesce_pointToPoint .axisToHls) ()
  exact h.trans (sentTo_mapEmitter _ _)

theorem lane_written (i : Fin 16) :
    s.written (laneStream i).chan ++ sentTo i (s.regs .srcToAddress).2 =
      (s.taken CoalesceStream.srcInner.chan).map fun v => ⟨lineNumber log (v i), true⟩ := by
  have h := emitter_path (srcToAddress log) (hs.path coalesce_pointToPoint .srcToAddress) i
  exact h.trans (sentTo_srcToAddress log i _)

theorem link_written (k : Fin 15) (as bs : List FrpItem) :
    MergeRegs.Valid (s.regs (.merge k)) ∧
      mergeSame (s.taken (CoalesceStream.link k.castSucc).chan ++ as)
          ((s.taken (CoalesceStream.single k).chan ++ bs).map AxiPkg.data) =
        s.written (CoalesceStream.link k.succ).chan ++
          MergeRegs.rest (s.regs (.merge k)) as (bs.map AxiPkg.data) :=
  mergeSameItem_path (hs.path coalesce_pointToPoint (.merge k)) as bs

theorem out2_written :
    s.written CoalesceStream.out2.chan ++ sentTo () (s.regs .filter).2 =
      sentTo () (filterSameItem.answers filterSameItem.start
        (s.taken (CoalesceStream.link (Fin.last 15)).chan)) :=
  emitter_path filterSameItem (hs.path coalesce_pointToPoint .filter) ()

theorem cmdInner_written :
    s.written CoalesceStream.cmdInner.chan ++ sentTo () (s.regs .singleToCmd).2 =
      (s.taken CoalesceStream.out2.chan).map fun srcFrp => ⟨srcFrp.data, 1⟩ := by
  have h := emitter_path singleToCmd (hs.path coalesce_pointToPoint .singleToCmd) ()
  exact h.trans (sentTo_mapEmitter _ _)

theorem cmdOut_written :
    s.written CoalesceStream.cmdOut.chan ++ sentTo () (s.regs .hlsToAxis).2 =
      (s.taken CoalesceStream.cmdInner.chan).map fun data => ⟨data, false⟩ := by
  have h := emitter_path hlsToAxisStream (hs.path coalesce_pointToPoint .hlsToAxis) ()
  exact h.trans (sentTo_mapEmitter _ _)

/-- The groups reach every stage in order. -/
theorem link_isPrefix (k : Fin 16) : s.written (CoalesceStream.link k).chan <+:
    groups log k (s.taken CoalesceStream.srcInner.chan) := by
  induction k using Fin.induction with
  | zero =>
      have hlane : s.written (CoalesceStream.link 0).chan <+:
          (s.taken CoalesceStream.srcInner.chan).map fun v => ⟨lineNumber log (v 0), true⟩ :=
        ⟨_, lane_written hs 0⟩
      rw [← groups_zero] at hlane
      exact hlane
  | succ k ih =>
      have hlane : s.written (CoalesceStream.single k).chan <+:
          (s.taken CoalesceStream.srcInner.chan).map fun v => ⟨lineNumber log (v k.succ), true⟩ :=
        ⟨_, lane_written hs k.succ⟩
      have hdata := ((s.taken_isPrefix _).trans hlane).map AxiPkg.data
      rw [List.map_map] at hdata
      obtain ⟨-, hrest⟩ := link_written hs k [] []
      rw [List.append_nil, List.append_nil] at hrest
      have hmerged := mergeSame_isPrefix ((s.taken_isPrefix _).trans ih) hdata
      rw [hrest] at hmerged
      rw [Fin.val_succ, ← groups_succ]
      exact (List.prefix_append _ _).trans hmerged

omit hs in
/-- The groups of all lanes, without the repeats across vectors. -/
theorem fresh_groups (vs : List Vec) :
    fresh none ((groups log 15 vs).map AxiPkg.data) =
      (vs.flatMap (lineNumbers log)).destutter (· ≠ ·) := by
  have hall : ∀ v : Vec, (flagged (fresh none ((lineNumbers log v).take (15 + 1)))).map AxiPkg.data =
      fresh none (lineNumbers log v) := by
    intro v
    rw [map_data_flagged, List.take_of_length_le (by simp [lineNumbers])]
  rw [groups, List.map_flatMap, List.flatMap_congr fun v _ => hall v, fresh_flatMap,
    destutter_eq_fresh]

/-- The vectors that have arrived. -/
def vectors (s : (coalesce log depth).State) : List Vec :=
  (s.written CoalesceStream.srcIn.chan).map AxiPkg.data

/-- The indices of the commands that have been sent. -/
def indices (s : (coalesce log depth).State) : List (BitVec 32) :=
  (s.written CoalesceStream.cmdOut.chan).map fun pkg => pkg.data.idx

/-- The indices are those of the filtered items. -/
theorem indices_isPrefix_out2 :
    indices s <+: (s.written CoalesceStream.out2.chan).map AxiPkg.data := by
  have hout : s.written CoalesceStream.cmdOut.chan <+:
      (s.taken CoalesceStream.cmdInner.chan).map fun data => ⟨data, false⟩ :=
    ⟨_, cmdOut_written hs⟩
  have hcmd : s.written CoalesceStream.cmdInner.chan <+:
      (s.taken CoalesceStream.out2.chan).map fun srcFrp => ⟨srcFrp.data, 1⟩ :=
    ⟨_, cmdInner_written hs⟩
  have hidx := hout.map fun pkg => pkg.data.idx
  have hdata := ((s.taken_isPrefix _).trans hcmd).map CacheCommand.idx
  rw [List.map_map] at hidx hdata
  exact (hidx.trans hdata).trans ((s.taken_isPrefix _).map AxiPkg.data)

/-- What has been filtered is what the law leaves of the vectors. -/
theorem out2_isPrefix : (s.written CoalesceStream.out2.chan).map AxiPkg.data <+:
    ((s.taken CoalesceStream.srcInner.chan).flatMap (lineNumbers log)).destutter (· ≠ ·) := by
  have hout := (List.IsPrefix.map AxiPkg.data ⟨_, out2_written hs⟩)
  rw [sentTo_filterSameItem] at hout
  have hlink := (s.taken_isPrefix _).trans (link_isPrefix hs (Fin.last 15))
  rw [← fresh_groups]
  exact hout.trans (fresh_isPrefix none (hlink.map AxiPkg.data))

theorem srcInner_isPrefix : s.taken CoalesceStream.srcInner.chan <+: vectors s := by
  have hinner : s.written CoalesceStream.srcInner.chan <+:
      (s.taken CoalesceStream.srcIn.chan).map AxiPkg.data := ⟨_, srcInner_written hs⟩
  exact ((s.taken_isPrefix _).trans hinner).trans
    ((s.taken_isPrefix CoalesceStream.srcIn.chan).map AxiPkg.data)

/-- At any time the indices sent are the first ones of the law. -/
theorem indices_isPrefix :
    indices s <+: ((vectors s).flatMap (lineNumbers log)).destutter (· ≠ ·) := by
  refine ((indices_isPrefix_out2 hs).trans (out2_isPrefix hs)).trans ?_
  rw [destutter_eq_fresh, destutter_eq_fresh]
  exact fresh_isPrefix none ((srcInner_isPrefix hs).flatMap _)

end Account

/-! ## At a standstill -/

/-- The last item of a list carries the `last` flag. -/
theorem last_flagged {l : List (BitVec 32)} {x : FrpItem} (hx : x ∈ (flagged l).getLast?) :
    x.last = true := by
  induction l with
  | nil => cases hx
  | cons a l ih =>
      cases l with
      | nil =>
          cases hx
          rfl
      | cons b l => exact ih (by simpa [flagged, List.getLast?_cons_cons] using hx)

theorem last_groups {k : ℕ} {vs : List Vec} {x : FrpItem}
    (hx : x ∈ (groups log k vs).getLast?) : x.last = true := by
  induction vs with
  | nil => cases hx
  | cons v vs ih =>
      rw [groups, List.flatMap_cons, List.getLast?_append, Option.mem_def, Option.or_eq_some_iff]
        at hx
      rcases hx with hx | ⟨-, hx⟩
      · exact ih hx
      · exact last_flagged hx

/-- Every vector has one group. -/
theorem lasts_groups (k : ℕ) (vs : List Vec) : lasts (groups log k vs) = vs.length := by
  have hone : ∀ l : List (BitVec 32), l ≠ [] → lasts (flagged l) = 1 := by
    intro l hl
    induction l with
    | nil => exact absurd rfl hl
    | cons a l ih =>
        cases l with
        | nil => rfl
        | cons b l =>
            rw [flagged_cons (List.cons_ne_nil _ _)]
            exact ih (List.cons_ne_nil _ _)
  induction vs with
  | nil => rfl
  | cons v vs ih =>
      have hfirst := hone _ (fresh_lines_ne_nil log k v)
      rw [groups, List.flatMap_cons, lasts, List.countP_append]
      show lasts (flagged (fresh none ((lineNumbers log v).take (k + 1)))) +
        lasts (groups log k vs) = vs.length + 1
      rw [hfirst, ih, Nat.add_comm]

/-- Items that close all groups are all items. -/
theorem eq_groups {k : ℕ} {vs : List Vec} {items : List FrpItem}
    (h : items <+: groups log k vs) (hlasts : lasts (groups log k vs) ≤ lasts items) :
    items = groups log k vs := by
  obtain ⟨rest, hrest⟩ := h
  rcases List.eq_nil_or_concat' rest with rfl | ⟨before, x, rfl⟩
  · rw [← hrest, List.append_nil]
  · have hlast : x ∈ (groups log k vs).getLast? := by
      rw [← hrest, ← List.append_assoc, List.getLast?_concat]
      rfl
    have hx : x.last = true := last_groups hlast
    rw [← hrest, lasts, lasts, List.countP_append, List.countP_append] at hlasts
    simp [hx] at hlasts

/-- At a standstill with room for its items, a stage waits for one of its inputs. -/
theorem merge_still (log : ℕ) {k : Fin 15} {r : MergeRegs} {f : Network.Fifos CoalesceStream CoalesceWord}
    (h : Network.CallStill depth (coalesceCall log (.merge k)) r f) (hvalid : r.Valid)
    (hroom : (f (CoalesceStream.link k.succ).chan).queue.length <
      depth (CoalesceStream.link k.succ).chan) :
    ∃ v : MergeVars,
      (∀ as bs, r.rest as bs = mergeSame (v.src1.toList ++ as) (v.src2.toList ++ bs)) ∧
        ((v.src1 = none ∧ (f (CoalesceStream.link k.castSucc).chan).queue = []) ∨
          (v.src2 = none ∧ (f (CoalesceStream.single k).chan).queue = [])) := by
  have hwrite : ∀ frpOut v', ¬Network.CallStill depth (coalesceCall log (.merge k))
      (MergeRegs.write frpOut v') f :=
    fun _ _ hw => absurd hroom (not_lt.mpr (Network.CallStill.of_write (o := ()) hw rfl))
  cases r with
  | write frpOut v => exact absurd h (hwrite frpOut v)
  | poll1 v =>
      obtain ⟨hv, hsrc1⟩ := hvalid
      obtain ⟨hqueue, hnext⟩ := Network.CallStill.of_readNb (i := MergeIn.in1) h rfl
      obtain ⟨src1, src2, currState⟩ := v
      cases currState with
      | stSrc1 => exact ⟨_, fun _ _ => rfl, .inl ⟨hsrc1, hqueue⟩⟩
      | stSrc2 =>
          cases src2 with
          | none => exact absurd rfl (hv rfl)
          | some src2 => exact absurd hnext (hwrite _ _)
  | poll2 v =>
      obtain ⟨hv, hsrc2⟩ := hvalid
      obtain ⟨hqueue, -⟩ := Network.CallStill.of_readNb (i := MergeIn.in2) h rfl
      obtain ⟨src1, src2, currState⟩ := v
      cases currState with
      | stSrc1 => exact ⟨_, fun _ _ => rfl, .inr ⟨hsrc2, hqueue⟩⟩
      | stSrc2 => exact absurd hsrc2 (hv rfl)

section Rest

variable {s : (coalesce log depth).State} (hs : (coalesce log depth).Reachable s)
include hs

/-- A stage closes no more groups than it has read. -/
theorem closed_le (k : Fin 15) :
    lasts (s.written (CoalesceStream.link k.succ).chan) ≤
        lasts (s.taken (CoalesceStream.link k.castSucc).chan) ∧
      lasts (s.written (CoalesceStream.link k.succ).chan) ≤
        (s.taken (CoalesceStream.single k).chan).length := by
  obtain ⟨-, hrest⟩ := link_written hs k [] []
  have hcount := congrArg lasts hrest
  rw [List.append_nil, List.append_nil, lasts_mergeSame, List.length_map] at hcount
  have hle : lasts (s.written (CoalesceStream.link k.succ).chan) ≤
      min (lasts (s.taken (CoalesceStream.link k.castSucc).chan))
        (s.taken (CoalesceStream.single k).chan).length := by
    rw [hcount]
    exact lasts_mono (List.prefix_append _ _)
  exact le_min_iff.mp hle

/-- The last stage has closed no more groups than any lane has items. -/
theorem closed_le_lane (i : Fin 16) :
    lasts (s.written (CoalesceStream.link (Fin.last 15)).chan) ≤
      (s.taken (laneStream i).chan).length := by
  have hlink : ∀ k : Fin 16, lasts (s.written (CoalesceStream.link (Fin.last 15)).chan) ≤
      lasts (s.written (CoalesceStream.link k).chan) := by
    intro k
    induction k using Fin.reverseInduction with
    | last => exact le_rfl
    | cast k ih =>
        exact (ih.trans (closed_le hs k).1).trans (lasts_mono (s.taken_isPrefix _))
  induction i using Fin.cases with
  | zero => exact ((hlink 1).trans (closed_le hs 0).1).trans List.countP_le_length
  | succ k => exact (hlink k.succ).trans (closed_le hs k).2

/-- At most one item is still to be sent to every lane. -/
theorem pending_le (i : Fin 16) : (sentTo i (s.regs .srcToAddress).2).length ≤ 1 := by
  have hpending := emitter_pending (srcToAddress log) (hs.path coalesce_pointToPoint .srcToAddress)
  rcases hpending with hnil | ⟨u, v, before, hsuffix⟩
  · rw [hnil]
    exact Nat.zero_le _
  · have hone : sentTo i ((srcToAddress log).answer u v).2 = [⟨lineNumber log (v i), true⟩] :=
      sentTo_map_mk (fun i : Fin 16 => (⟨lineNumber log (v i), true⟩ : FrpItem))
        (List.nodup_finRange 16) (List.mem_finRange i)
    rw [← hsuffix, sentTo_append] at hone
    have hlength := congrArg List.length hone
    rw [List.length_append, List.length_singleton] at hlength
    omega

variable (hstill : (coalesce log depth).Still s)
include hstill

/-- A stage with room for its items waits for one of its inputs, and has closed all groups it could
close. -/
theorem merge_waits (k : Fin 15) (hroom : (s.fifo (CoalesceStream.link k.succ).chan).queue.length <
      depth (CoalesceStream.link k.succ).chan) :
    ((s.fifo (CoalesceStream.link k.castSucc).chan).queue = [] ∧
        lasts (s.written (CoalesceStream.link k.succ).chan) =
          lasts (s.written (CoalesceStream.link k.castSucc).chan)) ∨
      lasts (s.written (CoalesceStream.link k.succ).chan) =
        (s.written (CoalesceStream.single k).chan).length := by
  obtain ⟨v, hregs, hwaits⟩ := merge_still log (hstill (.merge k)) (link_written hs k [] []).1 hroom
  have hrest : ∀ as bs, mergeSame (s.taken (CoalesceStream.link k.castSucc).chan ++ as)
      ((s.taken (CoalesceStream.single k).chan ++ bs).map AxiPkg.data) =
        s.written (CoalesceStream.link k.succ).chan ++
          mergeSame (v.src1.toList ++ as) (v.src2.toList ++ bs.map AxiPkg.data) := by
    intro as bs
    rw [(link_written hs k as bs).2, hregs]
  rcases hwaits with ⟨hsrc1, hqueue⟩ | ⟨hsrc2, hqueue⟩
  · -- The groups it has read are closed, as more words for the other input show.
    left
    have hcount := congrArg lasts (hrest [] (List.replicate
      (lasts (s.taken (CoalesceStream.link k.castSucc).chan)) ⟨0, true⟩))
    rw [hsrc1, lasts_mergeSame, List.append_nil, Option.toList_none, List.append_nil,
      mergeSame_nil_left, List.append_nil, List.length_map, List.length_append,
      List.length_replicate] at hcount
    have hall := s.taken_eq_written hqueue
    refine ⟨hqueue, ?_⟩
    rw [← hcount, ← hall]
    omega
  · right
    have hcount := congrArg lasts (hrest (List.replicate
      (s.taken (CoalesceStream.single k).chan).length ⟨0, true⟩) [])
    rw [hsrc2, lasts_mergeSame, List.append_nil, Option.toList_none, List.map_nil, List.append_nil,
      mergeSame_nil_right, List.append_nil, List.length_map] at hcount
    have hall := s.taken_eq_written hqueue
    rw [← hcount, ← hall]
    refine Nat.min_eq_right ?_
    rw [lasts, List.countP_append, List.countP_replicate]
    exact Nat.le_add_left _ _

/-- When the groups that reach a stage have been read, as many have been closed as some lane has
items. -/
theorem closed_eq (hdepth : ∀ c, 1 ≤ depth c) (k : Fin 16)
    (hqueue : (s.fifo (CoalesceStream.link k).chan).queue = []) :
    ∃ i, lasts (s.written (CoalesceStream.link k).chan) = (s.written (laneStream i).chan).length := by
  induction k using Fin.induction with
  | zero =>
      refine ⟨0, List.countP_eq_length.mpr fun x hx => ?_⟩
      have hlink := (link_isPrefix hs 0).subset hx
      rw [Fin.val_zero, groups_zero, List.mem_map] at hlink
      obtain ⟨v, -, rfl⟩ := hlink
      rfl
  | succ k ih =>
      have hroom : (s.fifo (CoalesceStream.link k.succ).chan).queue.length <
          depth (CoalesceStream.link k.succ).chan := by
        rw [hqueue]
        exact hdepth _
      rcases merge_waits hs hstill k hroom with ⟨hempty, hclosed⟩ | hclosed
      · obtain ⟨i, hi⟩ := ih hempty
        exact ⟨i, hclosed.trans hi⟩
      · exact ⟨k.succ, hclosed⟩

/-- With room for the commands, everything that has arrived has been dealt to the lanes and read
by the filter. -/
theorem all_dealt (hdepth : ∀ c, 1 ≤ depth c)
    (hlink : (s.fifo (CoalesceStream.link (Fin.last 15)).chan).queue = []) :
    (s.regs .srcToAddress).2 = [] ∧ (s.fifo CoalesceStream.srcInner.chan).queue = [] := by
  rcases Network.emitter_still (hstill .srcToAddress) with hrests | ⟨o, b, rest, hsends, hfull⟩
  · exact hrests
  · -- A lane without room holds an item that no stage has read, and every other lane is ahead of
    -- what has been closed.
    exfalso
    obtain ⟨i, hclosed⟩ := closed_eq hs hstill hdepth (Fin.last 15) hlink
    have hle := closed_le_lane hs o
    have hpending := pending_le hs i
    have hi := congrArg List.length (lane_written hs i)
    have ho := congrArg List.length (lane_written hs o)
    have hone : 1 ≤ (sentTo o (s.regs .srcToAddress).2).length := by
      rw [hsends, sentTo_self]
      exact Nat.succ_le_succ (Nat.zero_le _)
    have hqueue : (s.taken (laneStream o).chan).length + 1 ≤
        (s.written (laneStream o).chan).length := by
      have hroom := (hdepth (laneStream o).chan).trans hfull
      rw [Network.State.written, Fifo.written, List.length_append]
      exact Nat.add_le_add_left hroom _
    rw [List.length_append, List.length_map] at hi ho
    omega

/-- At a standstill with room for the commands, the indices sent are those of the law. -/
theorem indices_still (hdepth : ∀ c, 1 ≤ depth c)
    (hroom : (s.fifo CoalesceStream.cmdOut.chan).queue.length < depth CoalesceStream.cmdOut.chan) :
    indices s = ((vectors s).flatMap (lineNumbers log)).destutter (· ≠ ·) := by
  have hempty : ∀ {c : Chan CoalesceStream}, (s.fifo c).queue = [] →
      (s.fifo c).queue.length < depth c := by
    intro c hqueue
    rw [hqueue]
    exact hdepth c
  obtain ⟨hcmdOut, hcmdInner⟩ := Network.emitter_rests (hstill .hlsToAxis) fun _ => hroom
  obtain ⟨hcmd, hout2⟩ := Network.emitter_rests (hstill .singleToCmd) fun _ => hempty hcmdInner
  obtain ⟨hfilter, hlink⟩ := Network.emitter_rests (hstill .filter) fun _ => hempty hout2
  obtain ⟨hdealt, hinner⟩ := all_dealt hs hstill hdepth hlink
  obtain ⟨haxis, hsrcIn⟩ := Network.emitter_rests (hstill .axisToHls) fun _ => hempty hinner
  have hvectors : s.taken CoalesceStream.srcInner.chan = vectors s := by
    have h := srcInner_written hs
    rw [haxis, sentTo, List.append_nil, s.taken_eq_written hsrcIn] at h
    exact (s.taken_eq_written hinner).trans h
  have hlanes : ∀ i, (s.written (laneStream i).chan).length = (vectors s).length := by
    intro i
    have h := congrArg List.length (lane_written hs i)
    rw [hdealt, sentTo, List.append_nil, List.length_map, hvectors] at h
    exact h
  have hgroups : s.written (CoalesceStream.link (Fin.last 15)).chan = groups log 15 (vectors s) := by
    obtain ⟨i, hclosed⟩ := closed_eq hs hstill hdepth (Fin.last 15) hlink
    have hprefix := link_isPrefix hs (Fin.last 15)
    rw [hvectors] at hprefix
    refine eq_groups hprefix ?_
    rw [hclosed, hlanes]
    exact (lasts_groups 15 (vectors s)).le
  have hfiltered : (s.written CoalesceStream.out2.chan).map AxiPkg.data =
      ((vectors s).flatMap (lineNumbers log)).destutter (· ≠ ·) := by
    have h := out2_written hs
    rw [hfilter, sentTo, List.append_nil] at h
    rw [h, sentTo_filterSameItem, s.taken_eq_written hlink, hgroups]
    exact fresh_groups (vectors s)
  have hinnerCmd := cmdInner_written hs
  rw [hcmd, sentTo, List.append_nil, s.taken_eq_written hout2] at hinnerCmd
  have houtCmd := cmdOut_written hs
  rw [hcmdOut, sentTo, List.append_nil, s.taken_eq_written hcmdInner, hinnerCmd, List.map_map]
    at houtCmd
  rw [indices, houtCmd, List.map_map]
  exact hfiltered

end Rest

/-- For every stream of vectors and every interleaving, the indices of the commands are those of
the sources, lane by lane and shifted, without consecutive repeats: at any time the first ones of
them, and all of them when the network stands still and the commands have room. -/
theorem coalesce_indices (log : ℕ) (depth : Chan CoalesceStream → ℕ)
    {s : (coalesce log depth).State} (hs : (coalesce log depth).Reachable s) :
    indices s <+: ((vectors s).flatMap (lineNumbers log)).destutter (· ≠ ·) ∧
      ((∀ c, 1 ≤ depth c) → (coalesce log depth).Still s →
        (s.fifo CoalesceStream.cmdOut.chan).queue.length < depth CoalesceStream.cmdOut.chan →
          indices s = ((vectors s).flatMap (lineNumbers log)).destutter (· ≠ ·)) :=
  ⟨indices_isPrefix hs, fun hdepth hstill hroom => indices_still hs hstill hdepth hroom⟩

/-- A vector that repeats a line in its first and in its last lanes. -/
def repeating : Vec := fun i => if i.val = 7 then 0x1480#32 else 0x80#32 + .ofNat 32 i

/-- The vector passes all stages twice. -/
def passTwice : List (coalesce 3 fun _ => 16).Action :=
  List.replicate 2 (.put CoalesceStream.srcIn.chan ⟨repeating, false⟩) ++
    List.replicate 4 (.fire .axisToHls none) ++ List.replicate 34 (.fire .srcToAddress none) ++
      (List.finRange 15).flatMap (fun k => List.replicate 30 (.fire (.merge k) none)) ++
        List.replicate 11 (.fire .filter none) ++ List.replicate 10 (.fire .singleToCmd none) ++
          List.replicate 10 (.fire .hlsToAxis none)

set_option maxRecDepth 8000 in
/-- The repeat across the vectors is removed as well. -/
theorem coalesce_indices_repeating :
    ∃ s : (coalesce 3 fun _ => 16).State, indices s = [1, 41, 1, 41, 1] ∧
      indices s <+: ((vectors s).flatMap (lineNumbers 3)).destutter (· ≠ ·) := by
  obtain ⟨tr, s, hs⟩ : ∃ tr s, Network.execute (fun _ _ => True) passTwice []
      (coalesce 3 fun _ => 16).init = some (tr, s) := ⟨_, _, rfl⟩
  have hindices : indices s = [1, 41, 1, 41, 1] := by
    cases hs
    decide +kernel
  exact ⟨s, hindices, (coalesce_indices 3 (fun _ => 16)
    ⟨tr, (Network.execute_run .nil hs).run⟩).1⟩

end RidgeWalker.SrcCache
