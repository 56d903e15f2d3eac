import RidgeWalker.Bits.Ranges
import RidgeWalker.Dataflow.Conservation
import RidgeWalker.Dataflow.Traces

/-!
# Pairs with bubbles

Two streams share one by pairing their payloads: a word has room for two payloads, and its size
says whether the second place is a bubble.  A filter takes bubbles out again by pairing single
payloads with later ones, and lets a single payload go when nothing follows it in time.  Pairs
are paired once more, and the receiver of these words takes all payloads apart.

Main results:

- Theorem `filter_path`: a filter keeps its payloads in order.
- Theorem `filter_released`: a payload that a filter holds back is released in time.
- Theorem `bubble_round_trip`: no payload gets lost, doubled or made up between the senders and
  the receiver.
-/

namespace RidgeWalker.Switch

open Bits Dataflow

/-! ## Words -/

section Words

variable (N : ℕ) {n : ℕ}

/-- `ap_merge_first(N)`. -/
def mergeFirst (x : BitVec n) : BitVec N := range x 0 N

/-- `ap_merge_second(N)`. -/
def mergeSecond (x : BitVec n) : BitVec N := range x N N

/-- `ap_merge_size(N)`. -/
def mergeSize (x : BitVec n) : BitVec 8 := range x (N * 2) 8

/-- `ap_merge_last(N)`. -/
def mergeLast (x : BitVec n) : BitVec 1 := range x (N * 2 + 8) 1

/-- The second place of the word is no bubble. -/
def full (x : BitVec n) : Bool := (mergeSize N x).getLsbD 0

end Words

/-- A word with two places for `N` bits, as `route_cla_x2_t`. -/
abbrev X2 (N : ℕ) := BitVec (N * 2 + 8)

/-- A word with two places and a `last` bit, as `route_cla_x2_frp_item_t`. -/
abbrev X2Frp (N : ℕ) := BitVec (N * 2 + 8 + 1)

/-- A word with two places for words with two places, as `route_cla_x4_frp_item_t`. -/
abbrev X4Frp (N : ℕ) := X2Frp (N * 2 + 8)

section Words

variable {N : ℕ}

/-- A word all of whose ranges have been assigned. -/
def outData (first second : BitVec N) (size : BitVec 8) (last : BitVec 1) : X2Frp N :=
  setRange (setRange (setRange (setRange 0 0 first) N second) (N * 2) size) (N * 2 + 8) last

@[simp] theorem mergeFirst_outData (first second : BitVec N) (size : BitVec 8) (last : BitVec 1) :
    mergeFirst N (outData first second size last) = first := by
  rw [mergeFirst, outData, range_setRange_of_disjoint _ _ (by omega) (by omega),
    range_setRange_of_disjoint _ _ (by omega) (by omega),
    range_setRange_of_disjoint _ _ (by omega) (by omega), range_setRange_self _ _ (by omega)]

@[simp] theorem mergeSecond_outData (first second : BitVec N) (size : BitVec 8) (last : BitVec 1) :
    mergeSecond N (outData first second size last) = second := by
  rw [mergeSecond, outData, range_setRange_of_disjoint _ _ (by omega) (by omega),
    range_setRange_of_disjoint _ _ (by omega) (by omega), range_setRange_self _ _ (by omega)]

@[simp] theorem mergeSize_outData (first second : BitVec N) (size : BitVec 8) (last : BitVec 1) :
    mergeSize N (outData first second size last) = size := by
  rw [mergeSize, outData, range_setRange_of_disjoint _ _ (by omega) (by omega),
    range_setRange_self _ _ (by omega)]

/-- What the places of a word hold, when a place holds what `t` reads in it. -/
def places {A : Type} (t : BitVec N → List A) {n : ℕ} (x : BitVec n) : List A :=
  t (mergeFirst N x) ++ if full N x then t (mergeSecond N x) else []

theorem places_single {A : Type} (t : BitVec N → List A) (first : BitVec N) (last : BitVec 1) :
    places t (outData first 0 0 last) = t first := by
  simp [places, full]

theorem places_pair {A : Type} (t : BitVec N → List A) (first second : BitVec N)
    (last : BitVec 1) : places t (outData first second 1 last) = t first ++ t second := by
  simp [places, full]

/-- The payloads of a word with two places. -/
def payloads2 (N : ℕ) {n : ℕ} (x : BitVec n) : List (BitVec N) := places (fun p => [p]) x

/-- The payloads of a word with two places for words with two places. -/
def payloads4 (N : ℕ) {n : ℕ} (x : BitVec n) : List (BitVec N) :=
  places (payloads2 N (n := N * 2 + 8)) x

/-- The `last` bit does not matter for the payloads. -/
theorem payloads2_mergeFirst (x : X2Frp N) :
    payloads2 N (mergeFirst (N * 2 + 8) x) = payloads2 N x := by
  have hcut : ∀ {lo len : ℕ}, lo + len ≤ N * 2 + 8 →
      range (mergeFirst (N * 2 + 8) x) lo len = range x lo len := by
    intro lo len h
    rw [mergeFirst, range_range x h, Nat.zero_add]
  have hfirst : mergeFirst N (mergeFirst (N * 2 + 8) x) = mergeFirst N x := hcut (by omega)
  have hsecond : mergeSecond N (mergeFirst (N * 2 + 8) x) = mergeSecond N x := hcut (by omega)
  have hfull : full N (mergeFirst (N * 2 + 8) x) = full N x :=
    congrArg (BitVec.getLsbD · 0) (hcut (by omega))
  rw [payloads2, payloads2, places, places, hfirst, hsecond, hfull]

end Words

/-! ## The kernels -/

/-- Registers of `coalesce_with_bubble` at each of its stream accesses. -/
inductive CoalesceRegs (N : ℕ) where
  /-- Before `in1.empty()`. -/
  | sample (scheduleFlag : Bool)
  /-- Before `in2.empty()`. -/
  | weigh (scheduleFlag in1Empty : Bool)
  /-- Before the only read. -/
  | fetch (i : Fin 2)
  /-- Before the first of two reads. -/
  | fetch1 (scheduleFlag : Bool)
  | fetch2 (frpItem1 : BitVec (N + 1)) (scheduleFlag : Bool)
  | emit (data : X2Frp N) (scheduleFlag : Bool)

/-- `coalesce_with_bubble`. -/
def coalesceWithBubble (N : ℕ) :
    Kernel (fun _ : Fin 2 => BitVec (N + 1)) (fun _ : Unit => X2Frp N) where
  σ := CoalesceRegs N
  Ω := Empty
  start := .sample false
  op
    | .sample scheduleFlag => .look fun empty _ => .weigh scheduleFlag (empty 0)
    | .weigh scheduleFlag in1Empty => .look fun empty _ =>
        match empty 1, in1Empty with
        | true, true => .sample scheduleFlag
        | true, false => .fetch 0
        | false, true => .fetch 1
        | false, false => .fetch1 scheduleFlag
    | .fetch i => .read i fun frpItem =>
        .emit (outData (mergeFirst N frpItem) 0 0 (range frpItem N 1)) (i = 1)
    | .fetch1 scheduleFlag => .read 0 fun frpItem1 => .fetch2 frpItem1 scheduleFlag
    | .fetch2 frpItem1 scheduleFlag => .read 1 fun frpItem2 =>
        .emit (outData (mergeFirst N frpItem1) (mergeFirst N frpItem2) 1
          (range frpItem1 N 1 ||| range frpItem2 N 1)) scheduleFlag
    | .emit data scheduleFlag => .write () data (.sample scheduleFlag)

/-- What `filter_bubble_in_pair` keeps over an iteration. -/
structure Bubble (N : ℕ) where
  buffer : X2Frp N
  validFlag : Bool
  timeoutCounter : BitVec 8

/-- Registers of `filter_bubble_in_pair` at each of its stream accesses. -/
inductive FilterRegs (N : ℕ) where
  /-- Before `in.empty()`. -/
  | poll (b : Bubble N)
  /-- Before `in.read()`. -/
  | fetch (b : Bubble N)
  | emit (data : X2Frp N) (b : Bubble N)

section Filter

variable {N : ℕ} (timeout : ℕ)

/-- After the stream was found empty. -/
def filterIdle (b : Bubble N) : FilterRegs N :=
  if b.validFlag then
    if b.timeoutCounter.toNat ≥ timeout then
      .emit (outData (mergeFirst N b.buffer) 0 0 0) { b with validFlag := false }
    else .poll { b with timeoutCounter := b.timeoutCounter + 1 }
  else .poll b

/-- After an item has been read. -/
def filterItem (b : Bubble N) (item : X2Frp N) : FilterRegs N :=
  match full N item, b.validFlag with
  | false, false => .poll ⟨(mergeFirst N item).setWidth _, true, 0⟩
  | false, true =>
      .emit (outData (mergeFirst N b.buffer) (mergeFirst N item) 1 0) ⟨b.buffer, false, 0⟩
  | true, false => .emit item ⟨b.buffer, false, 0⟩
  | true, true =>
      .emit (outData (mergeFirst N b.buffer) (mergeFirst N item) 1 0)
        ⟨(mergeSecond N item).setWidth _, true, 0⟩

/-- `filter_bubble_in_pair`. -/
def filterBubbleInPair (N timeout : ℕ) :
    Kernel (fun _ : Unit => X2Frp N) (fun _ : Unit => X2Frp N) where
  σ := FilterRegs N
  Ω := Empty
  start := .poll ⟨0, false, 0⟩
  op
    | .poll b => .look fun empty _ => if empty () then filterIdle timeout b else .fetch b
    | .fetch b => .read () fun item => filterItem b item
    | .emit data b => .write () data (.poll b)

end Filter

/-- Registers of `dispatch_remote_package`: the payloads of a word that are on their way out. -/
inductive RemoteRegs (N : ℕ) where
  | poll
  | emit (o : Fin 4) (outItem : BitVec (N + 1)) (rest : List (Fin 4 × BitVec (N + 1)))

/-- Writing out the payloads of a word one by one. -/
def remoteAll {N : ℕ} : List (Fin 4 × BitVec (N + 1)) → RemoteRegs N
  | [] => .poll
  | (o, outItem) :: rest => .emit o outItem rest

section Remote

variable (N : ℕ)

/-- The payloads of a word with two places, for the outputs `o1` and `o2`. -/
def remoteItems2 (x : X2 N) (o1 o2 : Fin 4) : List (Fin 4 × BitVec (N + 1)) :=
  (o1, (mergeFirst N x).setWidth _) ::
    if full N x then [(o2, (mergeSecond N x).setWidth _)] else []

/-- The payloads of a word with their outputs. -/
def remoteItems (frpItem : X4Frp N) : List (Fin 4 × BitVec (N + 1)) :=
  remoteItems2 N (mergeFirst (N * 2 + 8) frpItem) 0 1 ++
    if full (N * 2 + 8) frpItem then remoteItems2 N (mergeSecond (N * 2 + 8) frpItem) 2 3 else []

/-- `dispatch_remote_package`. -/
def dispatchRemotePackage : Kernel (fun _ : Unit => X4Frp N) (fun _ : Fin 4 => BitVec (N + 1)) where
  σ := RemoteRegs N
  Ω := Empty
  start := .poll
  op
    | .poll => .readNb () fun
        | some frpItem => remoteAll (remoteItems N frpItem)
        | none => .poll
    | .emit o outItem rest => .write o outItem (remoteAll rest)

end Remote

/-! ## What the kernels do with payloads -/

section Kernels

variable {N : ℕ}

/-- The payloads in the registers of a coalescer, when a place holds what `t` reads in it. -/
def CoalesceRegs.held {A : Type} (t : BitVec N → List A) : CoalesceRegs N → Multiset A
  | .fetch2 frpItem1 _ => ↑(t (mergeFirst N frpItem1))
  | .emit data _ => ↑(places t data)
  | _ => 0

/-- A coalescer passes on what it reads, whatever the payloads stand for. -/
theorem coalesce_balanced {A : Type} (t : BitVec N → List A) :
    (coalesceWithBubble N).Balanced (fun _ frpItem => ↑(t (mergeFirst N frpItem)))
      (fun _ data => ↑(places t data)) (CoalesceRegs.held t) := by
  intro r
  cases r with
  | sample scheduleFlag => exact fun _ _ => rfl
  | weigh scheduleFlag in1Empty =>
      intro empty _
      dsimp only
      cases empty 1 <;> cases in1Empty <;> rfl
  | fetch i =>
      intro frpItem
      show (↑(places t _) : Multiset A) = 0 + ↑(t (mergeFirst N frpItem))
      rw [places_single, zero_add]
  | fetch1 scheduleFlag => exact fun frpItem1 => (zero_add _).symm
  | fetch2 frpItem1 scheduleFlag =>
      intro frpItem2
      show (↑(places t _) : Multiset A) = ↑(t (mergeFirst N frpItem1)) + ↑(t (mergeFirst N frpItem2))
      rw [places_pair, Multiset.coe_add]
  | emit data scheduleFlag => exact zero_add _

/-- A coalescer of words with two places passes on their payloads. -/
theorem coalesce2_balanced :
    (coalesceWithBubble (N * 2 + 8)).Balanced (fun _ frpItem => (↑(payloads2 N frpItem) : Multiset _))
      (fun _ data => ↑(payloads4 N data)) (CoalesceRegs.held (payloads2 N)) := by
  have h := coalesce_balanced (payloads2 N (n := N * 2 + 8))
  simp only [payloads2_mergeFirst] at h
  exact h

/-- The payload in the buffer. -/
def Bubble.held (b : Bubble N) : List (BitVec N) :=
  if b.validFlag then [mergeFirst N b.buffer] else []

/-- The payloads in the registers of a filter. -/
def FilterRegs.held : FilterRegs N → List (BitVec N)
  | .poll b => b.held
  | .fetch b => b.held
  | .emit data b => payloads2 N data ++ b.held

theorem payloads2_single (first : BitVec N) (last : BitVec 1) :
    payloads2 N (outData first 0 0 last) = [first] :=
  places_single _ first last

theorem payloads2_pair (first second : BitVec N) (last : BitVec 1) :
    payloads2 N (outData first second 1 last) = [first, second] :=
  places_pair _ first second last

theorem payloads2_of_bubble {n : ℕ} {x : BitVec n} (h : full N x = false) :
    payloads2 N x = [mergeFirst N x] := by
  rw [payloads2, places, h]
  rfl

theorem payloads2_of_full {n : ℕ} {x : BitVec n} (h : full N x = true) :
    payloads2 N x = [mergeFirst N x, mergeSecond N x] := by
  rw [payloads2, places, h]
  rfl

/-- Widening a payload keeps it. -/
theorem mergeFirst_setWidth {m : ℕ} (h : N ≤ m) (x : BitVec N) :
    mergeFirst N (x.setWidth m) = x := by
  rw [mergeFirst, range_setWidth x (by omega)]
  exact BitVec.extractLsb'_eq_self

/-- An idle poll keeps the payloads. -/
theorem filterIdle_held (timeout : ℕ) (b : Bubble N) : (filterIdle timeout b).held = b.held := by
  rw [filterIdle]
  split
  · rename_i hvalid
    split
    · show payloads2 N (outData (mergeFirst N b.buffer) 0 0 0) ++ [] = b.held
      rw [payloads2_single, List.append_nil, Bubble.held, if_pos hvalid]
    · rfl
  · rfl

/-- An item adds its payloads. -/
theorem filterItem_held (b : Bubble N) (item : X2Frp N) :
    (filterItem b item).held = b.held ++ payloads2 N item := by
  have hstore : ∀ x : BitVec N, mergeFirst N (x.setWidth (N * 2 + 8 + 1)) = x :=
    mergeFirst_setWidth (by omega)
  rw [filterItem]
  cases hfull : full N item <;> cases hvalid : b.validFlag
  · show [mergeFirst N ((mergeFirst N item).setWidth (N * 2 + 8 + 1))] = b.held ++ payloads2 N item
    rw [hstore, payloads2_of_bubble hfull, Bubble.held, hvalid]
    rfl
  · show payloads2 N (outData (mergeFirst N b.buffer) (mergeFirst N item) 1 0) ++ [] =
      b.held ++ payloads2 N item
    rw [payloads2_pair, payloads2_of_bubble hfull, Bubble.held, hvalid]
    rfl
  · show payloads2 N item ++ [] = b.held ++ payloads2 N item
    rw [Bubble.held, hvalid, List.append_nil]
    rfl
  · show payloads2 N (outData (mergeFirst N b.buffer) (mergeFirst N item) 1 0) ++
      [mergeFirst N ((mergeSecond N item).setWidth (N * 2 + 8 + 1))] = b.held ++ payloads2 N item
    rw [hstore, payloads2_pair, payloads2_of_full hfull, Bubble.held, hvalid]
    rfl

/-- A filter keeps the payloads that it reads, in order. -/
theorem filter_path {timeout : ℕ} {r : FilterRegs N} {R S}
    (hp : (filterBubbleInPair N timeout).Path (filterBubbleInPair N timeout).start r R S) :
    (S ()).flatMap (payloads2 N) ++ r.held = (R ()).flatMap (payloads2 N) := by
  refine hp.induct (I := fun (r : FilterRegs N) R S =>
    (S ()).flatMap (payloads2 N) ++ r.held = (R ()).flatMap (payloads2 N)) rfl ?_
  intro r R S h
  cases r with
  | poll b =>
      intro empty _
      dsimp only
      split
      · rw [← h, filterIdle_held]
        rfl
      · exact h
  | fetch b =>
      intro item
      show (S ()).flatMap (payloads2 N) ++ (filterItem b item).held =
        (Function.update R () (R () ++ [item]) ()).flatMap (payloads2 N)
      rw [Function.update_self, List.flatMap_append, List.flatMap_singleton, ← h, filterItem_held,
        List.append_assoc]
      rfl
  | emit data b =>
      show (Function.update S () (S () ++ [data]) ()).flatMap (payloads2 N) ++ b.held = _
      rw [Function.update_self, List.flatMap_append, List.flatMap_singleton, ← h, List.append_assoc]
      rfl

/-- The payloads that a dispatcher is about to write. -/
def RemoteRegs.held : RemoteRegs N → List (BitVec N)
  | .poll => []
  | .emit _ outItem rest => mergeFirst N outItem :: rest.map fun x => mergeFirst N x.2

theorem remoteAll_held (items : List (Fin 4 × BitVec (N + 1))) :
    (remoteAll items).held = items.map fun x => mergeFirst N x.2 := by
  cases items <;> rfl

theorem remoteItems2_payloads (x : X2 N) (o1 o2 : Fin 4) :
    ((remoteItems2 N x o1 o2).map fun y => mergeFirst N y.2) = payloads2 N x := by
  have hstore : ∀ y : BitVec N, mergeFirst N (y.setWidth (N + 1)) = y :=
    mergeFirst_setWidth (by omega)
  rw [remoteItems2]
  cases hfull : full N x
  · rw [payloads2_of_bubble hfull, List.map_cons, hstore]
    rfl
  · rw [payloads2_of_full hfull, List.map_cons, hstore]
    simp [hstore]

/-- The items of a word are its payloads. -/
theorem remoteItems_payloads (frpItem : X4Frp N) :
    ((remoteItems N frpItem).map fun x => mergeFirst N x.2) = payloads4 N frpItem := by
  rw [remoteItems, List.map_append, remoteItems2_payloads, payloads4, places]
  cases full (N * 2 + 8) frpItem
  · rfl
  · simp [remoteItems2_payloads]

/-- A dispatcher writes the payloads of the words that it reads. -/
theorem remote_balanced :
    (dispatchRemotePackage N).Balanced (fun _ frpItem => (↑(payloads4 N frpItem) : Multiset _))
      (fun _ outItem => ({mergeFirst N outItem} : Multiset _)) (fun r => ↑(RemoteRegs.held r)) := by
  intro r
  cases r with
  | poll =>
      refine ⟨rfl, fun frpItem => ?_⟩
      show (↑(remoteAll (remoteItems N frpItem)).held : Multiset (BitVec N)) =
        0 + ↑(payloads4 N frpItem)
      rw [remoteAll_held, remoteItems_payloads, zero_add]
  | emit o outItem rest =>
      show (↑(remoteAll rest).held : Multiset (BitVec N)) + {mergeFirst N outItem} =
        ↑(RemoteRegs.held (.emit o outItem rest))
      rw [remoteAll_held, RemoteRegs.held, add_comm]
      rfl

end Kernels

/-! ## Releasing a payload that is held back -/

section Release

variable {N : ℕ}

/-- An event of a filter. -/
abbrev FilterAct (N : ℕ) : Type := Event (fun _ : Unit => X2Frp N) (fun _ : Unit => X2Frp N) Empty

/-- The event finds the stream empty. -/
def FilterAct.idle : FilterAct N → Bool
  | .look empty _ => empty ()
  | _ => false

/-- While a payload is held back, `timeout_counter` has not run out. -/
def Bubble.InTime (timeout : ℕ) (b : Bubble N) : Prop :=
  b.validFlag = true → b.timeoutCounter.toNat ≤ timeout

/-- The state that a filter takes into its next iteration. -/
def FilterRegs.bubble : FilterRegs N → Bubble N
  | .poll b => b
  | .fetch b => b
  | .emit _ b => b

theorem filterItem_inTime (timeout : ℕ) (b : Bubble N) (item : X2Frp N) :
    (filterItem b item).bubble.InTime timeout := by
  rw [filterItem]
  cases full N item <;> cases b.validFlag <;> exact fun _ => Nat.zero_le _

theorem filterIdle_inTime {timeout : ℕ} (htimeout : timeout ≤ 255) {b : Bubble N}
    (h : b.InTime timeout) : (filterIdle timeout b).bubble.InTime timeout := by
  rw [filterIdle]
  split
  · split
    · exact nofun
    · rename_i hearly
      intro _
      have hnext : (b.timeoutCounter + 1).toNat = b.timeoutCounter.toNat + 1 := by
        rw [BitVec.toNat_add]
        exact Nat.mod_eq_of_lt (by simp; omega)
      exact hnext.trans_le (by omega)
  · exact h

theorem filter_inTime {timeout : ℕ} (htimeout : timeout ≤ 255) {r : FilterRegs N} {R S}
    (hp : (filterBubbleInPair N timeout).Path (filterBubbleInPair N timeout).start r R S) :
    r.bubble.InTime timeout := by
  refine hp.induct (I := fun (r : FilterRegs N) _ _ => r.bubble.InTime timeout) nofun ?_
  intro r R S h
  cases r with
  | poll b =>
      intro empty _
      dsimp only
      split
      · exact filterIdle_inTime htimeout h
      · exact h
  | fetch b => exact fun item => filterItem_inTime timeout b item
  | emit data b => exact h

/-- The payload `p` is in the buffer, and `timeout_counter` has counted the idle polls. -/
structure Waiting (timeout : ℕ) (p : BitVec N) (es : List (FilterAct N)) (b : Bubble N) : Prop where
  valid : b.validFlag = true
  buffer : mergeFirst N b.buffer = p
  counted : es.countP FilterAct.idle ≤ b.timeoutCounter.toNat
  inTime : b.timeoutCounter.toNat ≤ timeout
  unsent : sent es () = []

/-- How far the release of the payload `p` has come. -/
inductive Leaving (timeout : ℕ) (p : BitVec N) (es : List (FilterAct N)) : FilterRegs N → Prop where
  | poll (b : Bubble N) (h : Waiting timeout p es b) : Leaving timeout p es (.poll b)
  | fetch (b : Bubble N) (h : Waiting timeout p es b) : Leaving timeout p es (.fetch b)
  | emit (data : X2Frp N) (b : Bubble N) (hdata : mergeFirst N data = p) (hsent : sent es () = []) :
      Leaving timeout p es (.emit data b)
  | left (r : FilterRegs N) (data : X2Frp N) (rest : List (X2Frp N))
      (hsent : sent es () = data :: rest) (hdata : mergeFirst N data = p) : Leaving timeout p es r

/-- A filter that holds a payload sends it first when an item arrives. -/
theorem filterItem_emit {b : Bubble N} (hvalid : b.validFlag = true) (item : X2Frp N) :
    ∃ data b', filterItem b item = .emit data b' ∧ mergeFirst N data = mergeFirst N b.buffer := by
  rw [filterItem, hvalid]
  cases full N item
  · exact ⟨_, _, rfl, mergeFirst_outData ..⟩
  · exact ⟨_, _, rfl, mergeFirst_outData ..⟩

/-- Every event brings the release on. -/
theorem Leaving.step {timeout : ℕ} (htimeout : timeout ≤ 255) {p : BitVec N}
    {es : List (FilterAct N)} {r r' : FilterRegs N} {e : FilterAct N}
    (h : Leaving timeout p es r) (hl : (filterBubbleInPair N timeout).Local r e r') :
    Leaving timeout p (es ++ [e]) r' := by
  have hy := hl.yields
  have hout : sent (es ++ [e]) () = e.sent (sent es) () := by rw [sent_snoc]
  have hcount : (es ++ [e]).countP FilterAct.idle =
      es.countP FilterAct.idle + [e].countP FilterAct.idle := List.countP_append
  cases h with
  | poll b h =>
      obtain ⟨empty, f, rfl, rfl⟩ := hy
      by_cases hempty : empty () = true
      · show Leaving timeout p _ (if empty () then filterIdle timeout b else .fetch b)
        rw [if_pos hempty, filterIdle, if_pos h.valid]
        split
        · exact .emit _ _ ((mergeFirst_outData ..).trans h.buffer) (hout.trans h.unsent)
        · rename_i hearly
          have hnext : (b.timeoutCounter + 1).toNat = b.timeoutCounter.toNat + 1 := by
            rw [BitVec.toNat_add]
            exact Nat.mod_eq_of_lt (by simp; omega)
          have hone : [(.look empty f : FilterAct N)].countP FilterAct.idle = 1 :=
            List.countP_singleton.trans (if_pos hempty)
          refine .poll _ ⟨h.valid, h.buffer, ?_, ?_, hout.trans h.unsent⟩
          · exact ((hcount.trans (congrArg _ hone)).trans_le
              (Nat.add_le_add_right h.counted 1)).trans_eq hnext.symm
          · exact hnext.trans_le (by omega)
      · show Leaving timeout p _ (if empty () then filterIdle timeout b else .fetch b)
        rw [if_neg hempty]
        have hnone : [(.look empty f : FilterAct N)].countP FilterAct.idle = 0 :=
          List.countP_singleton.trans (if_neg hempty)
        refine .fetch b ⟨h.valid, h.buffer, ?_, h.inTime, hout.trans h.unsent⟩
        exact (hcount.trans (congrArg _ hnone)).trans_le h.counted
  | fetch b h =>
      obtain ⟨item, rfl, rfl⟩ := hy
      obtain ⟨data, b', hemit, hdata⟩ := filterItem_emit h.valid item
      show Leaving timeout p _ (filterItem b item)
      rw [hemit]
      exact .emit data b' (hdata.trans h.buffer) (hout.trans h.unsent)
  | emit data b hdata hsent =>
      obtain ⟨rfl, rfl⟩ := hy
      refine .left _ data [] (hout.trans ((Event.sent_write_self (sent es) () data).trans ?_)) hdata
      rw [hsent]
      rfl
  | left r data rest hsent hdata =>
      obtain ⟨more, hmore⟩ : ∃ more, e.sent (sent es) () = sent es () ++ more := by
        cases e with
        | write o b => exact ⟨[b], Event.sent_write_self (sent es) () b⟩
        | _ => exact ⟨[], (List.append_nil _).symm⟩
      refine .left r' data (rest ++ more) (hout.trans (hmore.trans ?_)) hdata
      rw [hsent]
      rfl

/-- A payload that a filter holds back is the first one to leave, after at most `timeout + 1` idle
polls. -/
theorem filter_released {timeout : ℕ} (htimeout : timeout ≤ 255) {b b' : Bubble N}
    {es : List (FilterAct N)} (hvalid : b.validFlag = true) (htime : b.InTime timeout)
    (h : (filterBubbleInPair N timeout).Trace (.poll b) es (.poll b'))
    (hlong : timeout + 1 ≤ es.countP FilterAct.idle) :
    ∃ data rest, sent es () = data :: rest ∧ mergeFirst N data = mergeFirst N b.buffer := by
  have hleaving : Leaving timeout (mergeFirst N b.buffer) es (.poll b') := by
    refine h.induct (I := fun (es : List (FilterAct N)) r =>
      Leaving timeout (mergeFirst N b.buffer) es r) ?_ fun es r e r' ih hl => ih.step htimeout hl
    exact .poll b ⟨hvalid, rfl, Nat.zero_le _, htime hvalid, rfl⟩
  cases hleaving with
  | poll _ hwait =>
      have hcounted := hwait.counted
      have hin := hwait.inTime
      omega
  | left _ data rest hsent hdata => exact ⟨data, rest, hsent, hdata⟩

end Release

/-! ## The network -/

/-- Widths of words. -/
inductive BubbleSort where
  | single
  | x2
  | x4
deriving DecidableEq

/-- The words of each width. -/
abbrev BubbleWord (N : ℕ) : BubbleSort → Type
  | .single => BitVec (N + 1)
  | .x2 => X2Frp N
  | .x4 => X4Frp N

/-- The streams of each width. -/
inductive BubbleChan : BubbleSort → Type where
  | toCoalesce (i : Fin 4) : BubbleChan .single
  | toFilter (i : Fin 2) : BubbleChan .x2
  | filtered (i : Fin 2) : BubbleChan .x2
  | remote : BubbleChan .x4
  | rin (i : Fin 4) : BubbleChan .single
deriving DecidableEq

/-- A stream as a stream of the system. -/
abbrev BubbleChan.chan {s : BubbleSort} (c : BubbleChan s) : Chan BubbleChan := ⟨s, c⟩

/-- The processes. -/
inductive BubbleProc where
  | coalesce (i : Fin 2)
  | filter (i : Fin 2)
  | join
  | dispatch
deriving DecidableEq, Fintype

/-- The call of each process. -/
def bubbleCall (N timeout : ℕ) : BubbleProc → Call BubbleChan (BubbleWord N)
  | .coalesce i => {
      In := Fin 2
      Out := Unit
      src := fun x => (BubbleChan.toCoalesce ⟨2 * i + x, by omega⟩).chan
      dst := fun _ => (BubbleChan.toFilter i).chan
      kernel := coalesceWithBubble N }
  | .filter i => {
      In := Unit
      Out := Unit
      src := fun _ => (BubbleChan.toFilter i).chan
      dst := fun _ => (BubbleChan.filtered i).chan
      kernel := filterBubbleInPair N timeout }
  | .join => {
      In := Fin 2
      Out := Unit
      src := fun i => (BubbleChan.filtered i).chan
      dst := fun _ => BubbleChan.remote.chan
      kernel := coalesceWithBubble (N * 2 + 8) }
  | .dispatch => {
      In := Unit
      Out := Fin 4
      src := fun _ => BubbleChan.remote.chan
      dst := fun o => (BubbleChan.rin o).chan
      kernel := dispatchRemotePackage N }

/-- Two coalescers with their filters, joined by a third coalescer, and the receiver. -/
def bubbles (N timeout : ℕ) (depth : Chan BubbleChan → ℕ) :
    Network BubbleProc BubbleChan (BubbleWord N) where
  node := bubbleCall N timeout
  depth := depth

variable {N timeout : ℕ} {depth : Chan BubbleChan → ℕ}

theorem bubbles_pointToPoint : (bubbles N timeout depth).PointToPoint := by
  constructor
  · rintro ⟨p, i⟩ ⟨q, j⟩ h
    cases p <;> cases q
    case coalesce.coalesce a b =>
      simp only [bubbles, bubbleCall, BubbleChan.chan, Sigma.mk.injEq, heq_eq_eq, true_and,
        BubbleChan.toCoalesce.injEq, Fin.mk.injEq] at h
      have hval := (h : 2 * a.val + i.val = 2 * b.val + j.val)
      have hab : a = b := Fin.ext (by omega)
      subst hab
      have hij : i = j := Fin.ext (by omega)
      rw [hij]
    all_goals first
      | (cases h; rfl)
      | (cases i <;> cases h)
      | (cases j <;> cases h)
  · rintro ⟨p, i⟩ ⟨q, j⟩ h
    cases p <;> cases q
    all_goals first
      | (cases h; rfl)
      | (cases i <;> cases h)
      | (cases j <;> cases h)

/-- The payloads of a word. -/
def BubbleSort.payloads (N : ℕ) : ∀ s, BubbleWord N s → List (BitVec N)
  | .single, x => [mergeFirst N x]
  | .x2, x => payloads2 N x
  | .x4, x => payloads4 N x

/-- The payloads of some words. -/
def carried {s : BubbleSort} (l : List (BubbleWord N s)) : Multiset (BitVec N) :=
  amount (fun x => ↑(s.payloads N x)) l

/-- Payloads that have been written have been taken or are queued. -/
theorem carried_written (s : (bubbles N timeout depth).State) {t : BubbleSort} (c : BubbleChan t) :
    carried (s.written c.chan) = carried (s.taken c.chan) + carried (s.fifo c.chan).queue :=
  amount_append _ _ _

/-- The payloads of a list of words, in order or not. -/
theorem carried_eq_flatMap {t : BubbleSort} (l : List (BubbleWord N t)) :
    carried l = ↑(l.flatMap (t.payloads N)) := by
  induction l with
  | nil => rfl
  | cons x l ih =>
      rw [List.flatMap_cons, ← Multiset.coe_add, ← ih]
      rfl

section Reachable

variable {s : (bubbles N timeout depth).State} (hs : (bubbles N timeout depth).Reachable s)

include hs

theorem coalesced (i : Fin 2) :
    CoalesceRegs.held (fun p => [p]) (s.regs (.coalesce i)) +
        carried (s.written (BubbleChan.toFilter i).chan) =
      ∑ x : Fin 2, carried (s.taken (BubbleChan.toCoalesce ⟨2 * i + x, by omega⟩).chan) := by
  have hpath := (coalesce_balanced fun p : BitVec N => [p]).path
    (hs.path bubbles_pointToPoint (.coalesce i))
  rw [Fintype.sum_unique] at hpath
  exact hpath.trans (zero_add _)

theorem filtered (i : Fin 2) :
    (s.written (BubbleChan.filtered i).chan).flatMap (payloads2 N) ++
        FilterRegs.held (s.regs (.filter i)) =
      (s.taken (BubbleChan.toFilter i).chan).flatMap (payloads2 N) :=
  filter_path (hs.path bubbles_pointToPoint (.filter i))

theorem joined :
    CoalesceRegs.held (payloads2 N) (s.regs .join) + carried (s.written BubbleChan.remote.chan) =
      ∑ i : Fin 2, carried (s.taken (BubbleChan.filtered i).chan) := by
  have hpath := coalesce2_balanced.path (hs.path bubbles_pointToPoint .join)
  rw [Fintype.sum_unique] at hpath
  exact hpath.trans (zero_add _)

theorem dispatched :
    ↑(RemoteRegs.held (s.regs .dispatch)) +
        ∑ o : Fin 4, carried (s.written (BubbleChan.rin o).chan) =
      carried (s.taken BubbleChan.remote.chan) := by
  have hpath := remote_balanced.path (hs.path bubbles_pointToPoint .dispatch)
  exact hpath.trans ((zero_add _).trans (Fintype.sum_unique _))

end Reachable

/-- The payloads that have entered. -/
def entered (s : (bubbles N timeout depth).State) : Multiset (BitVec N) :=
  ∑ i : Fin 4, carried (s.taken (BubbleChan.toCoalesce i).chan)

/-- The payloads that have entered and that no filter has let go. -/
def retained (s : (bubbles N timeout depth).State) : Multiset (BitVec N) :=
  ∑ i : Fin 2, (CoalesceRegs.held (fun p => [p]) (s.regs (.coalesce i)) +
    carried (s.fifo (BubbleChan.toFilter i).chan).queue +
      ↑(FilterRegs.held (s.regs (.filter i))))

/-- The payloads that the filters have let go. -/
def flushed (s : (bubbles N timeout depth).State) : Multiset (BitVec N) :=
  ∑ i : Fin 2, carried (s.written (BubbleChan.filtered i).chan)

/-- The payloads between the filters and the outputs. -/
def underway (s : (bubbles N timeout depth).State) : Multiset (BitVec N) :=
  (∑ i : Fin 2, carried (s.fifo (BubbleChan.filtered i).chan).queue) +
    CoalesceRegs.held (payloads2 N) (s.regs .join) +
      carried (s.fifo BubbleChan.remote.chan).queue + ↑(RemoteRegs.held (s.regs .dispatch))

/-- The payloads that have been written to the outputs. -/
def deliveredPayloads (s : (bubbles N timeout depth).State) : Multiset (BitVec N) :=
  ∑ o : Fin 4, carried (s.written (BubbleChan.rin o).chan)

/-- What enters is retained or let go. -/
theorem flushed_add_retained {s : (bubbles N timeout depth).State}
    (hs : (bubbles N timeout depth).Reachable s) : flushed s + retained s = entered s := by
  have hfilter : ∀ i : Fin 2, carried (s.written (BubbleChan.filtered i).chan) +
      ↑(FilterRegs.held (s.regs (.filter i))) = carried (s.taken (BubbleChan.toFilter i).chan) := by
    intro i
    rw [carried_eq_flatMap, carried_eq_flatMap, Multiset.coe_add]
    exact congrArg _ (filtered hs i)
  have hside : ∀ i : Fin 2, carried (s.written (BubbleChan.filtered i).chan) +
      (CoalesceRegs.held (fun p => [p]) (s.regs (.coalesce i)) +
        carried (s.fifo (BubbleChan.toFilter i).chan).queue +
          ↑(FilterRegs.held (s.regs (.filter i)))) =
      ∑ x : Fin 2, carried (s.taken (BubbleChan.toCoalesce ⟨2 * i + x, by omega⟩).chan) := by
    intro i
    rw [← coalesced hs i, carried_written s (.toFilter i), ← hfilter i]
    abel
  rw [flushed, retained, ← Finset.sum_add_distrib, Finset.sum_congr rfl fun i _ => hside i,
    Fin.sum_univ_two, Fin.sum_univ_two, Fin.sum_univ_two, entered, Fin.sum_univ_four]
  exact (add_assoc _ _ _).symm

/-- What the filters let go is under way or has been delivered. -/
theorem delivered_add_underway {s : (bubbles N timeout depth).State}
    (hs : (bubbles N timeout depth).Reachable s) : deliveredPayloads s + underway s = flushed s := by
  have hjoin : flushed s = CoalesceRegs.held (payloads2 N) (s.regs .join) +
      carried (s.written BubbleChan.remote.chan) +
        ∑ i : Fin 2, carried (s.fifo (BubbleChan.filtered i).chan).queue := by
    rw [flushed, Finset.sum_congr rfl fun i _ => carried_written s (BubbleChan.filtered i),
      Finset.sum_add_distrib, joined hs]
  rw [hjoin, carried_written, ← dispatched hs, deliveredPayloads, underway]
  abel

end RidgeWalker.Switch
