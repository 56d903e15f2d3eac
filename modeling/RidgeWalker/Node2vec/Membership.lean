import RidgeWalker.Node2vec.NeighborMask

/-!
# Membership in ascending blocks

On ascending lists a unit of the set intersection finds every neighbour that is not the last one.
For the last one it reads all blocks left, but remembers only the last two.

Main results:

- Theorem `headMask_seek`: the block at which a search stops decides membership.
- Theorem `unitWeights_eq_law_iff`: a unit answers all its neighbours as intended exactly if its
  last one is padding, in no block, or in one of the last two.
- Theorem `neighborMask_membership`: so does the machine, in every interleaving.
-/

namespace RidgeWalker.Node2vec

open Dataflow Memory Wrs

/-! ## Ascending blocks -/

/-- `INVALID_VERTEX`. -/
def invalidVertex : BitVec 32 := 0xffffffff#32

theorem le_invalidVertex (x : BitVec 32) : x ≤ invalidVertex := by
  have hx := x.isLt
  rw [BitVec.le_def]
  change x.toNat ≤ 4294967295
  omega

/-- The last lane of every block is at most all lanes of the blocks after it, and at least the
lanes of its own block, unless they are invalid. -/
structure Ordered (blocks : List WeightItem) : Prop where
  later : blocks.Pairwise fun b c => ∀ k, b 15 ≤ c k
  lanes : ∀ b ∈ blocks, ∀ k, b k ≤ b 15 ∨ b k = invalidVertex

/-- A vertex is on a lane of some block. -/
def Among (x : BitVec 32) (blocks : List WeightItem) : Prop := ∃ b ∈ blocks, compareMask b x = true

instance (x : BitVec 32) (blocks : List WeightItem) : Decidable (Among x blocks) :=
  inferInstanceAs (Decidable (∃ b ∈ blocks, compareMask b x = true))

theorem compareMask_iff {b : WeightItem} {x : BitVec 32} :
    compareMask b x = true ↔ ∃ k, b k = x := by
  simp [compareMask]

theorem among_cons {x : BitVec 32} {b : WeightItem} {bs : List WeightItem} :
    Among x (b :: bs) ↔ compareMask b x = true ∨ Among x bs := by
  simp [Among]

theorem Ordered.of_suffix {blocks blocks' : List WeightItem} (h : Ordered blocks)
    (hs : blocks' <:+ blocks) : Ordered blocks' :=
  ⟨h.later.sublist hs.sublist, fun b hb => h.lanes b (hs.subset hb)⟩

/-- The block at which a search stops decides membership. -/
theorem headMask_seek (x : BitVec 32) {blocks : List WeightItem} (h : Ordered blocks) :
    headMask x (seek x blocks) = true ↔ Among x blocks := by
  induction blocks with
  | nil => simp [seek, headMask, Among]
  | cons b bs ih =>
      rw [among_cons]
      by_cases hbeyond : beyond x b = true
      · have hmask : compareMask b x = false := by
          simp only [beyond, Bool.and_eq_true, Bool.not_eq_true'] at hbeyond
          exact hbeyond.1
        rcases bs with _ | ⟨b', bs⟩
        · simp [seek, headMask, Among, hmask]
        · rw [seek_beyond hbeyond (List.cons_ne_nil _ _), ih (h.of_suffix (List.suffix_cons _ _)),
            hmask]
          simp
      · rw [Bool.not_eq_true] at hbeyond
        rw [seek_stays hbeyond, headMask]
        refine ⟨.inl, fun hmem => hmem.elim id fun hlater => ?_⟩
        -- a neighbour below the last lane is in no later block
        by_contra hmask
        obtain ⟨c, hc, hcmask⟩ := hlater
        obtain ⟨k, hk⟩ := compareMask_iff.mp hcmask
        have hle := (List.pairwise_cons.mp h.later).1 c hc k
        have hge : ¬ x < b 15 := by
          rw [hk] at hle
          exact BitVec.not_lt.mpr hle
        rw [Bool.not_eq_true] at hmask
        simp [beyond, hmask, hge] at hbeyond

/-- All lanes are at most the neighbour, or invalid. -/
def GivenUp (x : BitVec 32) (b : WeightItem) : Prop := ∀ k, b k ≤ x ∨ b k = invalidVertex

theorem GivenUp.mono {x y : BitVec 32} {b : WeightItem} (h : GivenUp x b) (hle : x ≤ y) :
    GivenUp y b :=
  fun k => (h k).imp_left fun hk => BitVec.le_trans hk hle

/-- A later neighbour is not in a block that was given up. -/
theorem GivenUp.not_among {x y : BitVec 32} {given : List WeightItem}
    (h : ∀ b ∈ given, GivenUp x b) (hlt : x < y) (hy : y ≠ invalidVertex) : ¬ Among y given := by
  rintro ⟨b, hb, hmask⟩
  obtain ⟨k, hk⟩ := compareMask_iff.mp hmask
  rcases h b hb k with hle | hinvalid
  · rw [hk] at hle
    exact BitVec.not_lt.mpr hle hlt
  · exact hy (hk.symm.trans hinvalid)

theorem seek_split (x : BitVec 32) {blocks : List WeightItem} (h : Ordered blocks) :
    ∃ given, blocks = given ++ seek x blocks ∧ ∀ b ∈ given, GivenUp x b := by
  induction blocks with
  | nil => exact ⟨[], rfl, by simp⟩
  | cons b bs ih =>
      rcases bs with _ | ⟨b', bs⟩
      · exact ⟨[], rfl, by simp⟩
      by_cases hbeyond : beyond x b = true
      · obtain ⟨given, hsplit, hgiven⟩ := ih (h.of_suffix (List.suffix_cons _ _))
        have hle : b 15 ≤ x := by
          simp only [beyond, Bool.and_eq_true, Bool.not_eq_true', decide_eq_false_iff_not]
            at hbeyond
          exact BitVec.not_lt.mp hbeyond.2
        rw [seek_beyond hbeyond (List.cons_ne_nil _ _)]
        refine ⟨b :: given, congrArg (b :: ·) hsplit, List.forall_mem_cons.mpr ⟨fun k => ?_, hgiven⟩⟩
        exact (h.lanes b List.mem_cons_self k).imp_left fun hk => BitVec.le_trans hk hle
      · rw [Bool.not_eq_true] at hbeyond
        rw [seek_stays hbeyond]
        exact ⟨[], rfl, by simp⟩

theorem discard_split (x : BitVec 32) {blocks : List WeightItem} (h : Ordered blocks) :
    ∃ given, blocks = given ++ discard x blocks ∧ ∀ b ∈ given, GivenUp x b := by
  rcases blocks with _ | ⟨b, bs⟩
  · exact ⟨[], rfl, by simp⟩
  by_cases hends : compareMask b x = true ∧ x = b 15 ∧ bs ≠ []
  · obtain ⟨hmask, hx, hbs⟩ := hends
    rw [discard_ends hmask hx hbs]
    refine ⟨[b], rfl, fun c hc => ?_⟩
    rw [List.mem_singleton.mp hc, hx]
    exact h.lanes b List.mem_cons_self
  · have hstays : discard x (b :: bs) = b :: bs := by
      rcases bs with _ | ⟨b', bs⟩
      · rfl
      · exact discard_stays fun hmask hx => hends ⟨hmask, hx, List.cons_ne_nil _ _⟩
    rw [hstays]
    exact ⟨[], rfl, by simp⟩

/-- The blocks that are given up for a neighbour. -/
theorem advance_split (x : BitVec 32) {blocks : List WeightItem} (h : Ordered blocks) :
    ∃ given, blocks = given ++ advance x blocks ∧ ∀ b ∈ given, GivenUp x b := by
  obtain ⟨given, hseek, hgiven⟩ := seek_split x h
  obtain ⟨given', hdiscard, hgiven'⟩ :=
    discard_split x (h.of_suffix (seek_isSuffix x blocks))
  refine ⟨given ++ given', ?_, fun b hb => (List.mem_append.mp hb).elim (hgiven b) (hgiven' b)⟩
  rw [List.append_assoc, advance, ← hdiscard, ← hseek]

/-! ## The answers of a unit -/

/-- The intended answer to a neighbour. -/
def law (blocks : List WeightItem) (x : BitVec 32) : BitVec 32 :=
  neighborOut (decide (Among x blocks)) x

/-- Every neighbour is padding, or valid and above those before it. -/
def Ascends (items : List (BitVec 32)) : Prop :=
  items.Pairwise fun x y => y = 0 ∨ x < y ∧ y ≠ invalidVertex

theorem neighborOut_zero (mask : Bool) : neighborOut mask 0 = 0 := by
  cases mask <;> rfl

/-- Two answers agree exactly for padding and for the same result. -/
theorem neighborOut_eq_iff {mask mask' : Bool} {x : BitVec 32} :
    neighborOut mask x = neighborOut mask' x ↔ x = 0 ∨ mask = mask' := by
  by_cases hx : x = 0
  · subst hx
    rw [neighborOut_zero, neighborOut_zero]
    exact iff_of_true rfl (.inl rfl)
  · have hset : neighborSet x = 2 := if_neg hx
    have hunset : neighborUnset x = 4 := if_neg hx
    rw [or_iff_right hx]
    cases mask <;> cases mask' <;> simp [neighborOut, hset, hunset]

theorem among_append {x : BitVec 32} {bs bs' : List WeightItem} :
    Among x (bs ++ bs') ↔ Among x bs ∨ Among x bs' := by
  simp [Among, or_and_right, exists_or]

/-- Giving up blocks does not change the answers to later neighbours. -/
theorem law_advance {x y : BitVec 32} (hy : y = 0 ∨ x < y ∧ y ≠ invalidVertex)
    {blocks : List WeightItem} (h : Ordered blocks) :
    law (advance x blocks) y = law blocks y := by
  obtain ⟨given, hsplit, hgiven⟩ := advance_split x h
  refine neighborOut_eq_iff.mpr (hy.imp_right fun hlt => decide_eq_decide.mpr ?_)
  have hnot := GivenUp.not_among hgiven hlt.1 hlt.2
  conv_rhs => rw [hsplit, among_append]
  simp [hnot]

/-- The last two blocks. -/
def lastTwo (blocks : List WeightItem) : List WeightItem := blocks.drop (blocks.length - 2)

/-- For the last neighbour only the last two blocks count. -/
theorem finalMask_iff (x : BitVec 32) (blocks : List WeightItem) :
    finalMask false x blocks = true ↔ Among x (lastTwo blocks) := by
  have hall : ∀ (blocks : List WeightItem), blocks ≠ [] → ∀ finalCurrent : Bool,
      finalMask finalCurrent x blocks = true ↔
        (blocks.length = 1 ∧ finalCurrent = true) ∨ Among x (lastTwo blocks) := by
    intro blocks hne
    induction blocks with
    | nil => exact absurd rfl hne
    | cons b bs ih =>
        intro finalCurrent
        rcases bs with _ | ⟨b', bs⟩
        · simp [finalMask_singleton, lastTwo, Among]
        · rw [finalMask_cons _ _ _ (List.cons_ne_nil _ _), ih (List.cons_ne_nil _ _)]
          rcases bs with _ | ⟨b'', bs⟩
          · simp [lastTwo, Among]
          · simp [lastTwo]
  rcases blocks with _ | ⟨b, bs⟩
  · exact iff_of_false Bool.false_ne_true fun ⟨_, hb, _⟩ => absurd hb List.not_mem_nil
  · simpa using hall (b :: bs) (List.cons_ne_nil _ _) false

/-- What a unit answers. -/
theorem unitWeights_snoc {items : List (BitVec 32)} {x : BitVec 32} {blocks : List WeightItem}
    (hitems : Ascends (items ++ [x])) (h : Ordered blocks) :
    unitWeights (items ++ [x]) blocks =
      items.map (law blocks) ++ [neighborOut (finalMask false x (after items blocks)) x] := by
  induction items generalizing blocks with
  | nil => rfl
  | cons y items ih =>
      obtain ⟨hy, hrest⟩ := List.pairwise_cons.mp hitems
      have hmask : headMask y (seek y blocks) = decide (Among y blocks) := by
        rw [Bool.eq_iff_iff, headMask_seek y h, decide_eq_true_iff]
      rw [List.cons_append, unitWeights_cons (by simp), ih hrest (h.of_suffix (advance_isSuffix y _)),
        hmask, List.map_cons, List.cons_append]
      congr 2
      refine List.map_congr_left fun z hz => law_advance (hy z ?_) h
      exact List.mem_append_left _ hz

/-- The blocks given up before the last neighbour do not contain it. -/
theorem among_lastTwo_after {items : List (BitVec 32)} {x : BitVec 32} (hx : x ≠ 0)
    (hitems : Ascends (items ++ [x])) {blocks : List WeightItem} (h : Ordered blocks) :
    Among x (lastTwo (after items blocks)) ↔ Among x (lastTwo blocks) := by
  have hsplit : ∃ given, blocks = given ++ after items blocks ∧ ¬ Among x given := by
    induction items generalizing blocks with
    | nil => exact ⟨[], rfl, by simp [Among]⟩
    | cons y items ih =>
        obtain ⟨hy, hrest⟩ := List.pairwise_cons.mp hitems
        obtain ⟨given, hadvance, hgiven⟩ := advance_split y h
        obtain ⟨given', hafter, hgiven'⟩ := ih hrest (h.of_suffix (advance_isSuffix y _))
        have hlt := (hy x (by simp)).resolve_left hx
        refine ⟨given ++ given', ?_, ?_⟩
        · rw [List.append_assoc, after, List.foldl_cons, ← after, ← hafter, ← hadvance]
        · rw [among_append]
          exact not_or.mpr ⟨GivenUp.not_among hgiven hlt.1 hlt.2, hgiven'⟩
  obtain ⟨given, hblocks, hgiven⟩ := hsplit
  have hdrop : lastTwo blocks = given.drop (blocks.length - 2) ++ lastTwo (after items blocks) := by
    have hlength := congrArg List.length hblocks
    rw [List.length_append] at hlength
    have hsub : blocks.length - 2 - given.length = (after items blocks).length - 2 := by omega
    rw [lastTwo, lastTwo, ← hsub, ← List.drop_append, ← hblocks]
  have hnot : ¬ Among x (given.drop (blocks.length - 2)) := by
    rintro ⟨b, hb, hmask⟩
    exact hgiven ⟨b, List.drop_subset _ _ hb, hmask⟩
  rw [hdrop, among_append, or_iff_right hnot]

/-- The last neighbour is padding, in no block, or in one of the last two. -/
def Settled (items : List (BitVec 32)) (blocks : List WeightItem) : Prop :=
  ∀ x ∈ items.getLast?, x = 0 ∨ (Among x blocks → Among x (lastTwo blocks))

theorem among_of_lastTwo {x : BitVec 32} {blocks : List WeightItem}
    (h : Among x (lastTwo blocks)) : Among x blocks := by
  obtain ⟨b, hb, hmask⟩ := h
  exact ⟨b, List.drop_subset _ _ hb, hmask⟩

/-- A unit answers all its neighbours as intended exactly if its last one is settled. -/
theorem unitWeights_eq_law_iff {items : List (BitVec 32)} {blocks : List WeightItem}
    (hitems : Ascends items) (h : Ordered blocks) :
    unitWeights items blocks = items.map (law blocks) ↔ Settled items blocks := by
  rcases List.eq_nil_or_concat items with rfl | ⟨items, x, rfl⟩
  · simp [unitWeights, Settled]
  rw [List.concat_eq_append] at hitems ⊢
  rw [unitWeights_snoc hitems h, List.map_append, List.append_cancel_left_eq, List.map_singleton,
    List.singleton_inj, law, neighborOut_eq_iff, Settled]
  simp only [List.getLast?_append, List.getLast?_singleton, Option.some_or, Option.mem_def,
    Option.some.injEq, forall_eq']
  refine or_congr_right' fun hx => ?_
  rw [Bool.eq_iff_iff, finalMask_iff, among_lastTwo_after hx hitems h, decide_eq_true_iff]
  exact ⟨Iff.mpr, fun himp => ⟨among_of_lastTwo, himp⟩⟩

/-! ## The lists of two vertices -/

/-- Neighbours of the current vertex: ascending, with padding before and after them. -/
structure CurrentList where
  ids : List (BitVec 32)
  leading : ℕ
  trailing : ℕ
  ascending : ids.Pairwise (· < ·)
  valid : ∀ x ∈ ids, x ≠ 0 ∧ x ≠ invalidVertex
  ne_nil : List.replicate leading 0 ++ ids ++ List.replicate trailing 0 ≠ []

/-- What is delivered of them. -/
def CurrentList.items (c : CurrentList) : List (BitVec 32) :=
  List.replicate c.leading 0 ++ c.ids ++ List.replicate c.trailing 0

/-- Neighbours of the previous vertex: ascending, in blocks with invalid lanes only at the start
of the first and at the end of the final one. -/
structure PreviousList where
  ids : List (BitVec 32)
  before : ℕ
  rest : ℕ
  blocks : List WeightItem
  ascending : ids.Pairwise (· ≤ ·)
  before_lt : before < numOfWeights
  rest_lt : rest < numOfWeights
  ne_nil : blocks ≠ []
  lanes : blocks.flatMap List.ofFn =
    List.replicate before invalidVertex ++ ids ++ List.replicate rest invalidVertex

/-- The entries are padding, or valid and above those before them. -/
theorem CurrentList.ascends (c : CurrentList) : Ascends c.items := by
  have hzero : ∀ n, (List.replicate n (0 : BitVec 32)).Pairwise
      fun x y => y = 0 ∨ x < y ∧ y ≠ invalidVertex := fun n =>
    List.pairwise_replicate.mpr (.inr (.inl rfl))
  have hids : c.ids.Pairwise fun x y => y = 0 ∨ x < y ∧ y ≠ invalidVertex :=
    c.ascending.imp_of_mem fun _ hy hlt => .inr ⟨hlt, (c.valid _ hy).2⟩
  refine List.pairwise_append.mpr ⟨List.pairwise_append.mpr ⟨hzero _, hids, ?_⟩, hzero _, ?_⟩
  · intro x hx y hy
    obtain ⟨hne, hvalid⟩ := c.valid y hy
    rw [List.eq_of_mem_replicate hx]
    refine .inr ⟨BitVec.lt_def.mpr ?_, hvalid⟩
    exact Nat.pos_of_ne_zero fun h => hne (BitVec.eq_of_toNat_eq h)
  · intro x _ y hy
    exact .inl (List.eq_of_mem_replicate hy)

namespace PreviousList

variable (p : PreviousList)

/-- The lanes from the last one of the first block on ascend. -/
theorem ascends_drop : ((p.blocks.flatMap List.ofFn).drop 15).Pairwise (· ≤ ·) := by
  have hafter : (p.ids ++ List.replicate p.rest invalidVertex).Pairwise (· ≤ ·) := by
    refine List.pairwise_append.mpr ⟨p.ascending, ?_, ?_⟩
    · exact List.pairwise_replicate.mpr (.inr (BitVec.le_refl _))
    · intro x _ y hy
      rw [List.eq_of_mem_replicate hy]
      exact le_invalidVertex x
  have hdrop : (p.blocks.flatMap List.ofFn).drop p.before =
      p.ids ++ List.replicate p.rest invalidVertex := by
    rw [p.lanes, List.append_assoc, List.drop_append_of_le_length (by simp), List.drop_of_length_le
      (by simp), List.nil_append]
  have hbefore : p.before < 16 := p.before_lt
  have hsplit : (15 : ℕ) = p.before + (15 - p.before) := by omega
  rw [hsplit, ← List.drop_drop, hdrop]
  exact hafter.sublist (List.drop_sublist _ _)

/-- A lane is at most every later one, or invalid. -/
theorem lanes_pairwise : (p.blocks.flatMap List.ofFn).Pairwise
    fun x y => x ≤ y ∨ x = invalidVertex := by
  rw [p.lanes]
  refine List.pairwise_append.mpr ⟨List.pairwise_append.mpr ⟨?_, ?_, ?_⟩, ?_, ?_⟩
  · exact List.pairwise_replicate.mpr (.inr (.inr rfl))
  · exact p.ascending.imp .inl
  · exact fun x hx _ _ => .inr (List.eq_of_mem_replicate hx)
  · exact List.pairwise_replicate.mpr (.inr (.inr rfl))
  · intro x _ y hy
    rw [List.eq_of_mem_replicate hy]
    exact .inl (le_invalidVertex x)

theorem ordered : Ordered p.blocks := by
  constructor
  · obtain ⟨b, bs, hblocks⟩ := List.exists_cons_of_ne_nil p.ne_nil
    have hdrop := p.ascends_drop
    have hlast : (List.ofFn b).drop 15 = [b 15] := rfl
    rw [hblocks, List.flatMap_cons, List.drop_append_of_le_length (by simp), hlast,
      List.singleton_append, List.pairwise_cons] at hdrop
    rw [hblocks]
    refine List.pairwise_cons.mpr ⟨fun c hc k => hdrop.1 _ ?_, ?_⟩
    · exact List.mem_flatMap.mpr ⟨c, hc, List.mem_ofFn.mpr ⟨k, rfl⟩⟩
    · refine (List.pairwise_flatMap.mp hdrop.2).2.imp fun hle k => ?_
      exact hle _ (List.mem_ofFn.mpr ⟨15, rfl⟩) _ (List.mem_ofFn.mpr ⟨k, rfl⟩)
  · intro b hb k
    have hpairwise := (List.pairwise_flatMap.mp p.lanes_pairwise).1 b hb
    rcases eq_or_ne k 15 with rfl | hk
    · exact .inl (BitVec.le_refl _)
    · refine List.pairwise_ofFn.mp hpairwise ?_
      rw [Fin.lt_def]
      have hlt : k.val < 16 := k.isLt
      have hne : k.val ≠ 15 := fun h => hk (Fin.ext h)
      change k.val < 15
      omega

/-- A valid vertex is on some lane exactly if it is in the list. -/
theorem among_iff {x : BitVec 32} (hx : x ≠ invalidVertex) : Among x p.blocks ↔ x ∈ p.ids := by
  have hlanes : Among x p.blocks ↔ x ∈ p.blocks.flatMap List.ofFn := by
    simp only [Among, compareMask_iff, List.mem_flatMap, List.mem_ofFn]
  rw [hlanes, p.lanes]
  simp [hx]

end PreviousList

/-! ## The answers of the machine -/

/-- The intended answer to an entry: 0 for padding, 2 for a neighbour of the previous vertex, and 4
for any other. -/
def membership (p : PreviousList) (x : BitVec 32) : BitVec 32 :=
  if x = 0 then 0 else if x ∈ p.ids then 2 else 4

theorem map_membership (c : CurrentList) (p : PreviousList) :
    c.items.map (membership p) = c.items.map (law p.blocks) := by
  refine List.map_congr_left fun x hx => ?_
  by_cases hzero : x = 0
  · rw [membership, if_pos hzero, hzero, law, neighborOut_zero]
  · have hvalid : x ≠ invalidVertex := by
      rintro rfl
      simp only [CurrentList.items, List.mem_append, List.mem_replicate] at hx
      rcases hx with (⟨-, h⟩ | h) | ⟨-, h⟩
      · exact hzero h
      · exact (c.valid _ h).2 rfl
      · exact hzero h
    have hset : neighborSet x = 2 := if_neg hzero
    have hunset : neighborUnset x = 4 := if_neg hzero
    rw [membership, if_neg hzero, law, neighborOut, hset, hunset]
    exact if_congr ((p.among_iff hvalid).symm.trans decide_eq_true_iff.symm) rfl rfl

/-- The lists as they are streamed. -/
def lists (p : CurrentList × PreviousList) : Lists :=
  ⟨p.1.items, p.2.blocks, p.1.ne_nil, p.2.ne_nil⟩

/-- The intended answers to a sequence of pairs. -/
def lawStream (pairs : List (CurrentList × PreviousList)) : List (AxiPkg (BitVec 32)) :=
  pairs.flatMap fun p => flagged (p.1.items.map (membership p.2))

/-- In every interleaving of the arrivals the machine sends the intended answers, and when it waits
for more than the pairs it has read all of them, sent all answers and is back where it started. -/
structure MasksMembership (pairs : List (CurrentList × PreviousList)) : Prop where
  sent : ∀ r R S, neighborMaskKernel.Path neighborMaskKernel.start r R S →
    (∀ i, R i <+: maskStreams (pairs.map lists) i) → S () <+: lawStream pairs
  done : ∀ r R S, neighborMaskKernel.Path neighborMaskKernel.start r R S →
    (∀ i, R i <+: maskStreams (pairs.map lists) i) → r.out = none →
      R r.updateState.polls = maskStreams (pairs.map lists) r.updateState.polls →
        MaskDone r (maskStreams (pairs.map lists)) R (fun _ => lawStream pairs) S

/-- The final entry is padding, not in the previous list, or in one of its last two blocks. -/
def FinalSettled (p : CurrentList × PreviousList) : Prop :=
  ∀ x ∈ p.1.items.getLast?, x = 0 ∨ x ∉ p.2.ids ∨ Among x (lastTwo p.2.blocks)

theorem finalSettled_iff (p : CurrentList × PreviousList) :
    FinalSettled p ↔ Settled p.1.items p.2.blocks := by
  refine forall₂_congr fun x hx => or_congr_right' fun hzero => ?_
  have hvalid : x ≠ invalidVertex := by
    rintro rfl
    have hmem := List.mem_of_getLast? hx
    simp only [CurrentList.items, List.mem_append, List.mem_replicate] at hmem
    rcases hmem with (⟨-, h⟩ | h) | ⟨-, h⟩
    · exact hzero h
    · exact (p.1.valid _ h).2 rfl
    · exact hzero h
  rw [p.2.among_iff hvalid, imp_iff_not_or]

/-- The answers are the intended ones exactly if all final entries are settled. -/
theorem outStream_eq_iff (pairs : List (CurrentList × PreviousList)) :
    outStream (pairs.map lists) = lawStream pairs ↔ ∀ p ∈ pairs, FinalSettled p := by
  have hpair : ∀ p : CurrentList × PreviousList,
      flagged (unitWeights p.1.items p.2.blocks) = flagged (p.1.items.map (membership p.2)) ↔
        FinalSettled p := by
    intro p
    rw [finalSettled_iff, ← unitWeights_eq_law_iff p.1.ascends p.2.ordered, map_membership]
    refine ⟨fun h => ?_, fun h => by rw [h]⟩
    rw [← map_data_flagged (unitWeights _ _), h, map_data_flagged]
  induction pairs with
  | nil => simp [outStream, lawStream]
  | cons p pairs ih =>
      have hlength : (flagged (unitWeights p.1.items p.2.blocks)).length =
          (flagged (p.1.items.map (membership p.2))).length := by
        rw [length_flagged, length_flagged, length_unitWeights, List.length_map]
      refine Iff.trans ?_ List.forall_mem_cons.symm
      refine Iff.trans ?_ (and_congr (hpair p) ih)
      exact ⟨fun h => List.append_inj h hlength, fun h => congrArg₂ (· ++ ·) h.1 h.2⟩

/-- For every sequence of pairs: in every interleaving the machine answers whether the entries are
in the previous list, exactly if every final entry is padding, not in the previous list, or in one
of its last two blocks. -/
theorem neighborMask_membership (pairs : List (CurrentList × PreviousList)) :
    MasksMembership pairs ↔ ∀ p ∈ pairs, FinalSettled p := by
  rw [← outStream_eq_iff]
  constructor
  · intro h
    obtain ⟨r, R, S, hp, hdone⟩ := exists_maskDone (maskAhead_start (pairs.map lists)) .refl
    have hR : ∀ i, R i = maskStreams (pairs.map lists) i := fun i => hdone.received i
    have hS : S () = outStream (pairs.map lists) := hdone.sent
    have hlaw := (h.done r R S hp (fun i => by rw [hR i]) hdone.out (hR _)).sent
    exact hS.symm.trans hlaw
  · intro heq
    have hplan : ∀ r R S, neighborMaskKernel.Path neighborMaskKernel.start r R S →
        (∀ i, R i <+: maskStreams (pairs.map lists) i) →
          ∃ X Y, (∀ i, maskStreams (pairs.map lists) i = R i ++ X i) ∧
            lawStream pairs = S () ++ Y () ∧ maskAhead r X Y := by
      intro r R S hp hR
      obtain ⟨X, Y, hX, hY, hahead⟩ :=
        hp.pursues maskAhead_pursues (maskAhead_start (pairs.map lists)) hR
      exact ⟨X, Y, hX, heq.symm.trans (hY ()), hahead⟩
    constructor
    · intro r R S hp hR
      obtain ⟨X, Y, -, hY, -⟩ := hplan r R S hp hR
      exact ⟨_, hY.symm⟩
    · intro r R S hp hR hout hpolls
      obtain ⟨X, Y, hX, hY, hahead⟩ := hplan r R S hp hR
      have hnone : X r.updateState.polls = [] := by
        have hpolled := hX r.updateState.polls
        rw [hpolls] at hpolled
        exact List.self_eq_append_right.mp hpolled
      obtain ⟨hstate, hcurr, hlast, hend⟩ := maskAhead_waits hahead hout hnone
      refine ⟨hstate, hout, fun i => ?_, by rw [hY, hend, List.append_nil]⟩
      cases i
      · rw [hX, hcurr, List.append_nil]
      · rw [hX, hlast, List.append_nil]

/-- The neighbours 1 to 48 of a previous vertex, in three blocks. -/
def threeBlocks : PreviousList where
  ids := (List.range 48).map fun i => .ofNat 32 (i + 1)
  before := 0
  rest := 0
  blocks := (List.range 3).map fun j k => .ofNat 32 (16 * j + k + 1)
  ascending := by
    refine List.pairwise_map.mpr (List.pairwise_le_range.imp_of_mem fun _ hj hle => ?_)
    have hlt := List.mem_range.mp hj
    rw [BitVec.le_def, BitVec.toNat_ofNat, BitVec.toNat_ofNat]
    omega
  before_lt := by decide
  rest_lt := by decide
  ne_nil := by decide
  lanes := rfl

/-- A current vertex with the neighbour 1 alone. -/
def oneNeighbor : CurrentList where
  ids := [1]
  leading := 0
  trailing := 0
  ascending := by decide
  valid := by simp [invalidVertex]
  ne_nil := by decide

/-- The machine forgets that it has found the neighbour 1 in the first of the three blocks. -/
theorem neighborMask_forgets :
    ¬ ∀ pairs : List (CurrentList × PreviousList), MasksMembership pairs := by
  intro hall
  have hsettled := (neighborMask_membership _).mp (hall [(oneNeighbor, threeBlocks)])
    (oneNeighbor, threeBlocks) List.mem_cons_self 1 (by decide)
  exact absurd hsettled (by decide)

end RidgeWalker.Node2vec
