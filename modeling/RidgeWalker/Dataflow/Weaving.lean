import RidgeWalker.Bits.Numerals

/-!
# Restoring an order from numbers that wrap

Two streams carry the items of one sequence, cut into groups.  Every item carries the number of
its group, taken from a numbering that repeats after a period, and says whether it ends its
group.  A merger that holds an item of each stream and lets through the one that carries the
number it waits for restores the sequence, as long as less than a period is under way.

Main results:

- Theorem `Grouped.due`: among the items of one stream that are still to come, only the next
  item of the sequence can come first and carry the number waited for.
- Theorem `Sequenced.emit`: what the merger lets through is the next item of the sequence.
- Theorem `Sequenced.complete`: a merger that waits although both streams have ended has let
  the whole sequence through.
-/

namespace RidgeWalker.Dataflow

/-! ## Numbers that wrap -/

/-- A numbering that repeats after a period and no sooner. -/
structure Numbers (κ : Type) where
  period : ℕ
  num : ℕ → κ
  next : κ → κ
  next_num : ∀ k, next (num k) = num (k + 1)
  separates : ∀ i j, num i = num j → i % period = j % period

/-- Numbers that are less than a period apart are different. -/
theorem Numbers.eq_of_num {κ : Type} (ids : Numbers κ) {i j : ℕ} (h : ids.num i = ids.num j)
    (hle : i ≤ j) (hlt : j < i + ids.period) : i = j := by
  have hmod := ids.separates i j h
  have hdvd : ids.period ∣ j - i := (Nat.modEq_iff_dvd' hle).mp hmod
  have hzero : j - i = 0 := Nat.eq_zero_of_dvd_of_lt hdvd (by omega)
  omega

/-! ## The sequence -/

/-- The place of an item in the sequence: the stream that carries it, the group it belongs to,
and whether it ends its group. -/
structure Tag where
  side : Fin 2
  group : ℕ
  ends : Bool

/-- A sequence that goes on with group `k`: groups follow each other, and every group is
carried by one stream. -/
inductive Grouped : ℕ → List Tag → Prop where
  | nil (k : ℕ) : Grouped k []
  | ends {k c T} (h : Grouped (k + 1) T) : Grouped k (⟨c, k, true⟩ :: T)
  | stays {k c T} (h : Grouped k T) (hside : ∀ t ∈ T.head?, t.side = c) :
      Grouped k (⟨c, k, false⟩ :: T)

/-- No item still to come belongs to an earlier group. -/
theorem Grouped.le {k : ℕ} {T : List Tag} (h : Grouped k T) : ∀ t ∈ T, k ≤ t.group := by
  induction h with
  | nil k => exact fun t ht => absurd ht List.not_mem_nil
  | ends _ ih =>
      intro t ht
      rcases List.mem_cons.mp ht with rfl | ht
      · exact le_rfl
      · exact (Nat.le_succ _).trans (ih t ht)
  | stays _ _ ih =>
      intro t ht
      rcases List.mem_cons.mp ht with rfl | ht
      · exact le_rfl
      · exact ih t ht

/-- The next item belongs to the group the sequence goes on with. -/
theorem Grouped.head_group {k : ℕ} {t : Tag} {T : List Tag} (h : Grouped k (t :: T)) :
    t.group = k := by
  cases h with
  | ends _ => rfl
  | stays _ _ => rfl

/-- The number of groups that have ended. -/
def ended (T : List Tag) : ℕ := T.countP Tag.ends

/-- What is left of a sequence goes on with the group after those that have ended. -/
theorem Grouped.drop {k : ℕ} {T : List Tag} (h : Grouped k T) (n : ℕ) :
    Grouped (k + ended (T.take n)) (T.drop n) := by
  induction h generalizing n with
  | nil k => simpa using Grouped.nil _
  | @ends k c T h ih =>
      cases n with
      | zero => exact .ends h
      | succ n => simpa [ended, Nat.add_assoc, Nat.add_comm, Nat.add_left_comm] using ih n
  | @stays k c T h hside ih =>
      cases n with
      | zero => exact .stays h hside
      | succ n => simpa [ended] using ih n

/-- Among the items of one stream that are still to come, only the next item of the sequence
can come first and carry the number waited for. -/
theorem Grouped.due {κ : Type} (ids : Numbers κ) {k : ℕ} {T : List Tag} (h : Grouped k T)
    (hbound : ∀ t ∈ T, t.group < k + ids.period) {c : Fin 2} {t : Tag}
    (hfirst : (T.filter fun t => t.side = c).head? = some t)
    (hnum : ids.num k = ids.num t.group) : T.head? = some t := by
  induction h with
  | nil k => simp at hfirst
  | @ends k d T h ih =>
      by_cases hd : d = c
      · simpa [hd] using hfirst
      · -- Every other item belongs to a later group, less than a period away.
        have hmem : t ∈ T := by
          have hhead := List.mem_of_mem_head? hfirst
          rcases List.mem_cons.mp (List.mem_of_mem_filter hhead) with rfl | ht
          · exact absurd (by simpa using List.of_mem_filter hhead) hd
          · exact ht
        have hle := h.le t hmem
        have heq := ids.eq_of_num hnum (by omega) (hbound t (List.mem_cons_of_mem _ hmem))
        omega
  | @stays k d T h hside ih =>
      by_cases hd : d = c
      · simpa [hd] using hfirst
      · -- The next item belongs to the same group and is carried by the same stream.
        have hfirst' : (T.filter fun t => t.side = c).head? = some t := by simpa [hd] using hfirst
        have hhead := ih (fun t ht => hbound t (List.mem_cons_of_mem _ ht)) hfirst' hnum
        have hsame := hside t hhead
        have hc : t.side = c := by
          simpa using List.of_mem_filter (List.mem_of_mem_head? hfirst')
        exact absurd (hsame.symm.trans hc) hd

/-! ## Weaving two streams -/

section Weave

variable {α : Type}

/-- The streams that carry the items of a sequence. -/
def sides (T : List Tag) : List (Fin 2) := T.map Tag.side

/-- Two streams woven together: every place of the sequence takes the next item of its
stream. -/
def weave : List (Fin 2) → (Fin 2 → List α) → List α
  | [], _ => []
  | c :: T, q =>
      match q c with
      | x :: rest => x :: weave T (Function.update q c rest)
      | [] => []

/-- One more place takes one more item. -/
theorem weave_snoc {T : List (Fin 2)} {q : Fin 2 → List α} {c : Fin 2} {x : α}
    (hlen : ∀ d, T.count d ≤ (q d).length) (hx : (q c)[T.count c]? = some x) :
    weave (T ++ [c]) q = weave T q ++ [x] := by
  induction T generalizing q with
  | nil =>
      rcases hq : q c with _ | ⟨y, rest⟩
      · simp [hq] at hx
      · simp only [hq, List.count_nil, List.getElem?_cons_zero, Option.some.injEq] at hx
        simp [weave, hq, hx]
  | cons d T ih =>
      have hd := hlen d
      rcases hq : q d with _ | ⟨y, rest⟩
      · simp [hq] at hd
      · simp only [List.cons_append, weave, hq]
        congr 1
        refine ih (fun e => ?_) ?_
        · by_cases he : e = d
          · subst he
            simpa [hq] using hd
          · have hlen' := hlen e
            rwa [List.count_cons_of_ne (Ne.symm he), ← Function.update_of_ne he rest q] at hlen'
        · by_cases hc : c = d
          · subst hc
            simpa [hq] using hx
          · rwa [List.count_cons_of_ne (Ne.symm hc), ← Function.update_of_ne hc rest q] at hx

/-- Places that have taken their items do not depend on what comes later. -/
theorem weave_mono {T : List (Fin 2)} {q q' : Fin 2 → List α} (h : ∀ c, q c <+: q' c)
    (hlen : ∀ c, T.count c ≤ (q c).length) : weave T q' = weave T q := by
  induction T generalizing q q' with
  | nil => rfl
  | cons d T ih =>
      have hd := hlen d
      rcases hq : q d with _ | ⟨y, rest⟩
      · simp [hq] at hd
      · obtain ⟨t, ht⟩ := h d
        have hq' : q' d = y :: (rest ++ t) := by simp [← ht, hq]
        simp only [weave, hq, hq']
        congr 1
        refine ih (fun e => ?_) (fun e => ?_)
        · by_cases he : e = d
          · subst he
            simp
          · rw [Function.update_of_ne he, Function.update_of_ne he]
            exact h e
        · by_cases he : e = d
          · subst he
            simpa [hq] using hd
          · have hlen' := hlen e
            rwa [List.count_cons_of_ne (Ne.symm he), ← Function.update_of_ne he rest q] at hlen'

/-- Fewer places take a prefix. -/
theorem weave_take (T : List (Fin 2)) (q : Fin 2 → List α) (n : ℕ) :
    weave (T.take n) q <+: weave T q := by
  induction T generalizing q n with
  | nil => simp
  | cons d T ih =>
      cases n with
      | zero => exact List.nil_prefix
      | succ n =>
          simp only [List.take_succ_cons, weave]
          rcases q d with _ | ⟨x, rest⟩
          · exact List.prefix_refl _
          · exact List.cons_prefix_cons.mpr ⟨rfl, ih _ n⟩

end Weave

/-! ## The merger -/

section Merger

variable {κ α : Type} (ids : Numbers κ) (key : α → κ) (ends : α → Bool)

/-- What a merger keeps: the number it waits for and an item of each stream. -/
structure Holding (κ α : Type) where
  current : κ
  held : Fin 2 → Option α

/-- After an item is let through. -/
def Holding.release (m : Holding κ α) (c : Fin 2) (x : α) : Holding κ α where
  current := if ends x then ids.next m.current else m.current
  held := Function.update m.held c none

/-- The items of a stream carry the numbers and the end flags of their places. -/
def Carries (T : List Tag) (c : Fin 2) (l : List α) : Prop :=
  l.map (fun x => (key x, ends x)) <+:
    (T.filter fun t => t.side = c).map fun t => (ids.num t.group, t.ends)

/-- What a merger holds, has received and has let through, for a sequence. -/
structure Sequenced (T : List Tag) (m : Holding κ α) (R : Fin 2 → List α) (out : List α) :
    Prop where
  le : out.length ≤ T.length
  current : m.current = ids.num (ended (T.take out.length))
  received : ∀ c, ∃ l, R c = l ++ (m.held c).toList ∧
    l.length = (sides (T.take out.length)).count c
  woven : out = weave (sides (T.take out.length)) R

theorem count_sides (T : List Tag) (c : Fin 2) :
    (sides T).count c = (T.filter fun t => t.side = c).length := by
  rw [sides, List.count, List.countP_map, List.countP_eq_length_filter]
  rfl

section Operations

variable {ids ends} {T : List Tag} {m : Holding κ α} {R : Fin 2 → List α} {out : List α}

theorem Sequenced.count_le (h : Sequenced ids T m R out) (c : Fin 2) :
    (sides (T.take out.length)).count c ≤ (R c).length := by
  obtain ⟨l, hR, hlen⟩ := h.received c
  rw [hR, List.length_append]
  omega

/-- The sequence may be known farther than before. -/
theorem Sequenced.grow (h : Sequenced ids T m R out) {T' : List Tag} (hT : T <+: T') :
    Sequenced ids T' m R out := by
  obtain ⟨t, rfl⟩ := hT
  have htake : (T ++ t).take out.length = T.take out.length := List.take_append_of_le_length h.le
  refine ⟨?_, ?_, ?_, ?_⟩
  · exact h.le.trans (by simp)
  · rw [htake]
    exact h.current
  · rw [htake]
    exact h.received
  · rw [htake]
    exact h.woven

/-- The merger takes an item of a stream of which it holds none. -/
theorem Sequenced.take (h : Sequenced ids T m R out) {c : Fin 2} (hnone : m.held c = none) (x : α) :
    Sequenced ids T { m with held := Function.update m.held c (some x) }
      (Function.update R c (R c ++ [x])) out := by
  refine ⟨h.le, h.current, fun d => ?_, ?_⟩
  · obtain ⟨l, hR, hlen⟩ := h.received d
    by_cases hd : d = c
    · subst hd
      refine ⟨l, ?_, hlen⟩
      rw [hnone] at hR
      simp [hR]
    · refine ⟨l, ?_, hlen⟩
      simpa [Function.update_of_ne hd] using hR
  · refine h.woven.trans (weave_mono (fun d => ?_) h.count_le).symm
    by_cases hd : d = c
    · subst hd
      simp
    · rw [Function.update_of_ne hd]

/-- What a merger holds of a stream is the first item of it that is still to come. -/
theorem Sequenced.carries_held (h : Sequenced ids T m R out) {c : Fin 2}
    (hcarries : Carries ids key ends T c (R c)) :
    (m.held c).toList.map (fun x => (key x, ends x)) <+:
      ((T.drop out.length).filter fun t => t.side = c).map fun t => (ids.num t.group, t.ends) := by
  obtain ⟨l, hR, hlen⟩ := h.received c
  unfold Carries at hcarries
  rw [hR, ← List.take_append_drop out.length T, List.filter_append, List.map_append,
    List.map_append] at hcarries
  have hlength : (l.map fun x => (key x, ends x)).length =
      (((T.take out.length).filter fun t => t.side = c).map fun t =>
        (ids.num t.group, t.ends)).length := by
    simpa [count_sides] using hlen
  have heq := List.prefix_of_prefix_length_le ((List.prefix_append _ _).trans hcarries)
    (List.prefix_append _ _) hlength.le
  rw [heq.eq_of_length hlength] at hcarries
  exact (List.prefix_append_right_inj _).mp hcarries

/-! ## Letting items through -/

section Due

variable [DecidableEq κ]

/-- The held item of a stream, if it carries the number waited for. -/
def Holding.dueOn (m : Holding κ α) (c : Fin 2) : Option α :=
  (m.held c).filter fun x => key x = m.current

/-- The held item that carries the number waited for, that of the first stream if both do. -/
def Holding.due (m : Holding κ α) : Option (Fin 2 × α) :=
  match m.dueOn key 0 with
  | some x => some (0, x)
  | none => (m.dueOn key 1).map (Prod.mk 1)

variable {key}

theorem Holding.of_dueOn {m : Holding κ α} {c : Fin 2} {x : α} (h : m.dueOn key c = some x) :
    m.held c = some x ∧ key x = m.current := by
  simpa using Option.filter_eq_some_iff.mp h

/-- The item let through is held and carries the number waited for. -/
theorem Holding.of_due {m : Holding κ α} {c : Fin 2} {x : α} (h : m.due key = some (c, x)) :
    m.held c = some x ∧ key x = m.current := by
  unfold Holding.due at h
  split at h
  · rename_i y hy
    cases h
    exact Holding.of_dueOn hy
  · obtain ⟨y, hy, heq⟩ := Option.map_eq_some_iff.mp h
    cases heq
    exact Holding.of_dueOn hy

/-- A merger that waits holds no item with the number waited for. -/
theorem Holding.not_due {m : Holding κ α} (h : m.due key = none) {c : Fin 2} {x : α}
    (hx : m.held c = some x) : key x ≠ m.current := by
  intro hkey
  have hdue : m.dueOn key c = some x := by simp [Holding.dueOn, hx, hkey]
  unfold Holding.due at h
  split at h
  · cases h
  · rename_i hzero
    fin_cases c
    · exact absurd hdue (by simp [hzero])
    · exact absurd h (by simpa using Option.ne_none_iff_exists'.mpr ⟨x, hdue⟩)

/-- What the merger lets through is the next item of the sequence. -/
theorem Sequenced.emit (h : Sequenced ids T m R out) (hT : Grouped 0 T)
    (hbound : ∀ t ∈ T, t.group < ended (T.take out.length) + ids.period)
    (hcarries : ∀ c, Carries ids key ends T c (R c)) {c : Fin 2} {x : α}
    (hdue : m.due key = some (c, x)) :
    Sequenced ids T (m.release ids ends c x) R (out ++ [x]) := by
  obtain ⟨hheld, hkey⟩ := Holding.of_due hdue
  have hfirst := h.carries_held key (hcarries c)
  rw [hheld] at hfirst
  obtain ⟨t, hfilter, htag⟩ : ∃ t, ((T.drop out.length).filter fun t => t.side = c).head? = some t ∧
      (ids.num t.group, t.ends) = (key x, ends x) := by
    rcases hf : (T.drop out.length).filter fun t => t.side = c with _ | ⟨t, rest⟩
    · rw [hf] at hfirst
      simp at hfirst
    · rw [hf] at hfirst
      refine ⟨t, by rw [hf]; rfl, ?_⟩
      simpa [eq_comm] using hfirst
  obtain ⟨hnum, hends⟩ := Prod.mk.inj htag
  have hside : t.side = c := by
    simpa using List.of_mem_filter (List.mem_of_mem_head? hfilter)
  have hgrouped := hT.drop out.length
  rw [Nat.zero_add] at hgrouped
  have hhead := hgrouped.due ids (fun t ht => hbound t (List.mem_of_mem_drop ht)) hfilter
    (by rw [hnum, hkey, h.current])
  obtain ⟨rest, hdrop⟩ := List.head?_eq_some_iff.mp hhead
  have hget : T[out.length]? = some t := by
    rw [← List.head?_drop]
    exact hhead
  have htake : T.take (out.length + 1) = T.take out.length ++ [t] := by
    rw [List.take_add_one, hget]
    rfl
  have hlt : out.length < T.length := (List.getElem?_eq_some_iff.mp hget).1
  have hsides : sides (T.take (out.length + 1)) = sides (T.take out.length) ++ [c] := by
    rw [htake, sides, List.map_append, List.map_singleton, hside]
    rfl
  obtain ⟨l, hR, hlen⟩ := h.received c
  refine ⟨?_, ?_, fun d => ?_, ?_⟩
  · simpa using hlt
  · rw [List.length_append, List.length_singleton, htake, Holding.release, h.current]
    simp only [ended, List.countP_append, List.countP_singleton, hends]
    split
    · exact ids.next_num _
    · rfl
  · obtain ⟨ld, hRd, hlend⟩ := h.received d
    rw [List.length_append, List.length_singleton, hsides, List.count_append]
    by_cases hd : d = c
    · subst hd
      refine ⟨R d, by simp [Holding.release], ?_⟩
      rw [hRd, hheld, List.length_append, hlend]
      simp
    · refine ⟨ld, ?_, ?_⟩
      · simpa [Holding.release, Function.update_of_ne hd] using hRd
      · simpa [List.count_cons_of_ne (Ne.symm hd)] using hlend
  · rw [List.length_append, List.length_singleton, hsides]
    have hx : (R c)[(sides (T.take out.length)).count c]? = some x := by
      rw [hR, hheld, ← hlen]
      simp
    rw [weave_snoc h.count_le hx, ← h.woven]

/-- A merger that waits although both streams have ended has let the whole sequence
through. -/
theorem Sequenced.complete (h : Sequenced ids T m R out) (hT : Grouped 0 T)
    (hall : ∀ c, (R c).map (fun x => (key x, ends x)) =
      (T.filter fun t => t.side = c).map fun t => (ids.num t.group, t.ends))
    (hdue : m.due key = none) : out.length = T.length := by
  by_contra hne
  have hlt : out.length < T.length := lt_of_le_of_ne h.le hne
  obtain ⟨t, rest, hdrop⟩ : ∃ t rest, T.drop out.length = t :: rest :=
    List.exists_cons_of_ne_nil (by simpa using hlt)
  have hgrouped := hT.drop out.length
  rw [Nat.zero_add, hdrop] at hgrouped
  obtain ⟨l, hR, hlen⟩ := h.received t.side
  have hfirst := hall t.side
  rw [hR, ← List.take_append_drop out.length T, List.filter_append, List.map_append,
    List.map_append] at hfirst
  have hrest := (List.append_inj hfirst (by simpa [count_sides] using hlen)).2
  rw [hdrop, List.filter_cons_of_pos (by simp), List.map_cons] at hrest
  rcases hheld : m.held t.side with _ | x
  · simp [hheld] at hrest
  · rw [hheld] at hrest
    simp only [Option.toList_some, List.map_cons, List.cons.injEq, Prod.mk.injEq] at hrest
    apply Holding.not_due hdue hheld
    rw [hrest.1.1, hgrouped.head_group, h.current]

end Due

end Operations

end Merger

end RidgeWalker.Dataflow
