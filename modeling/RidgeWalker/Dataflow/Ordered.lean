import RidgeWalker.Dataflow.Plans
import RidgeWalker.Dataflow.Weaving

/-!
# Ordered plans and tagged sequences

A plan for the streams of a kernel says what each stream carries, but not in which order a kernel
with several outputs writes.  An ordered plan is one list of writes for all outputs.

A sequence whose items say which of two streams carries them is the plan of a merger: what the
merger lets through is a part of the sequence from its start.

Main results:

- Theorem `Kernel.Path.obeys`: a kernel that obeys an ordered plan has written the first part of
  it, and on every output the words for that output.
- Theorem `weave_lanes`: the two streams of a tagged sequence, woven together, are the sequence.
- Theorem `Sequenced.isPrefix`: a merger that receives the streams of a tagged sequence lets the
  sequence through.
-/

namespace RidgeWalker.Dataflow

/-! ## Ordered plans -/

section Obedience

variable {In Out : Type} {α : In → Type} {β : Out → Type}
variable [DecidableEq In] [DecidableEq Out]

namespace Kernel

variable (K : Kernel α β)

/-- What one operation owes to an ordered plan `I`, when the words `X` are still to be received
and the writes `Y` still to be done. -/
def Obeys (I : K.σ → (∀ i, List (α i)) → List (Send β) → Prop) (X : ∀ i, List (α i))
    (Y : List (Send β)) : Op α β K.Ω K.σ → Prop
  | .read i k => ∀ a rest, X i = a :: rest → I (k a) (Function.update X i rest) Y
  | .readNb i k =>
      I (k none) X Y ∧ ∀ a rest, X i = a :: rest → I (k (some a)) (Function.update X i rest) Y
  | .look k => ∀ e f, I (k e f) X Y
  | .write o b k => ∃ rest, Y = ⟨o, b⟩ :: rest ∧ I k X rest
  | .writeNb o b k => I (k false) X Y ∧ ∃ rest, Y = ⟨o, b⟩ :: rest ∧ I (k true) X rest
  | .choose k => ∀ w, I (k w) X Y
  | .halt => True

variable {K}

omit [DecidableEq In] in
/-- One more write. -/
theorem sent_snoc {e : Event α β K.Ω} {S : ∀ o, List (β o)} {sends : List (Send β)} {o : Out}
    {b : β o} (he : e = .write o b) (hS : ∀ o, S o = sentTo o sends) (o' : Out) :
    e.sent S o' = sentTo o' (sends ++ [⟨o, b⟩]) := by
  subst he
  rw [sentTo_append, Event.sent]
  by_cases ho : o' = o
  · subst ho
    rw [Function.update_self, hS, sentTo_self]
    rfl
  · rw [Function.update_of_ne ho, hS, sentTo_of_ne (Ne.symm ho)]
    exact (List.append_nil _).symm

/-- A kernel that obeys an ordered plan has written the first part of it. -/
theorem Path.obeys {I : K.σ → (∀ i, List (α i)) → List (Send β) → Prop}
    (hobeys : ∀ r X Y, I r X Y → K.Obeys I X Y (K.op r)) {r₀ r : K.σ} {R : ∀ i, List (α i)}
    {S : ∀ o, List (β o)} (hp : K.Path r₀ r R S) {X₀ : ∀ i, List (α i)} {Y₀ : List (Send β)}
    (h₀ : I r₀ X₀ Y₀) (hR : ∀ i, R i <+: X₀ i) :
    ∃ X Y sends, (∀ i, X₀ i = R i ++ X i) ∧ Y₀ = sends ++ Y ∧ (∀ o, S o = sentTo o sends) ∧
      I r X Y := by
  induction hp with
  | refl => exact ⟨X₀, Y₀, [], fun _ => rfl, rfl, fun _ => rfl, h₀⟩
  | @step r R S e r' hp hl ih =>
      obtain ⟨X, Y, sends, hX, hY, hS, hahead⟩ := ih fun i => (received_mono e R i).trans (hR i)
      have hop := hobeys r X Y hahead
      -- The word read is the next one planned.
      have hread : ∀ i a, e = .read i a → ∃ rest, X i = a :: rest ∧
          ∀ j, X₀ j = e.received R j ++ Function.update X i rest j := by
        rintro i a rfl
        have hpre := hR i
        rw [Event.received, Function.update_self, hX i] at hpre
        obtain ⟨rest, hrest⟩ := (List.prefix_append_right_inj _).mp hpre
        refine ⟨rest, hrest.symm, fun j => ?_⟩
        rw [hX j]
        exact append_update hrest.symm R j
      cases hl with
      | @read i k heq a =>
          rw [heq] at hop
          obtain ⟨rest, hrest, hX'⟩ := hread i a rfl
          exact ⟨_, Y, sends, hX', hY, hS, hop a rest hrest⟩
      | @readNb i k heq a =>
          rw [heq] at hop
          obtain ⟨rest, hrest, hX'⟩ := hread i a rfl
          exact ⟨_, Y, sends, hX', hY, hS, hop.2 a rest hrest⟩
      | readNone heq =>
          rw [heq] at hop
          exact ⟨X, Y, sends, hX, hY, hS, hop.1⟩
      | look heq x f =>
          rw [heq] at hop
          exact ⟨X, Y, sends, hX, hY, hS, hop x f⟩
      | @write o b k heq =>
          rw [heq] at hop
          obtain ⟨rest, rfl, hI⟩ := hop
          exact ⟨X, rest, sends ++ [⟨o, b⟩], hX, by rw [hY, List.append_assoc]; rfl,
            sent_snoc rfl hS, hI⟩
      | @writeNb o b k heq =>
          rw [heq] at hop
          obtain ⟨-, rest, rfl, hI⟩ := hop
          exact ⟨X, rest, sends ++ [⟨o, b⟩], hX, by rw [hY, List.append_assoc]; rfl,
            sent_snoc rfl hS, hI⟩
      | writeFail heq =>
          rw [heq] at hop
          exact ⟨X, Y, sends, hX, hY, hS, hop.1⟩
      | choose heq w =>
          rw [heq] at hop
          exact ⟨X, Y, sends, hX, hY, hS, hop w⟩

end Kernel

end Obedience

/-! ## Tagged sequences -/

section Tagged

variable {α : Type}

/-- The items of a tagged sequence that one stream carries. -/
def laneOf (P : List (Tag × α)) (c : Fin 2) : List α :=
  (P.filter fun x => x.1.side = c).map Prod.snd

theorem laneOf_cons (t : Tag) (x : α) (P : List (Tag × α)) (c : Fin 2) :
    laneOf ((t, x) :: P) c = if t.side = c then x :: laneOf P c else laneOf P c := by
  by_cases h : t.side = c <;> simp [laneOf, h]

theorem laneOf_append (P Q : List (Tag × α)) (c : Fin 2) :
    laneOf (P ++ Q) c = laneOf P c ++ laneOf Q c := by
  simp [laneOf]

/-- Two streams woven together are the sequence that they carry. -/
theorem weave_lanes (P : List (Tag × α)) :
    weave (sides (P.map Prod.fst)) (laneOf P) = P.map Prod.snd := by
  induction P with
  | nil => rfl
  | cons x P ih =>
      obtain ⟨t, a⟩ := x
      have hhead : laneOf ((t, a) :: P) t.side = a :: laneOf P t.side := by
        rw [laneOf_cons, if_pos rfl]
      have hrest : Function.update (laneOf ((t, a) :: P)) t.side (laneOf P t.side) = laneOf P := by
        ext1 c
        by_cases hc : c = t.side
        · subst hc
          rw [Function.update_self]
        · rw [Function.update_of_ne hc, laneOf_cons, if_neg (Ne.symm hc)]
      simp only [List.map_cons, sides, weave, hhead, hrest]
      congr 1

/-- Weaving commutes with what is done to every item. -/
theorem weave_map {γ : Type} (f : α → γ) (T : List (Fin 2)) (q : Fin 2 → List α) :
    weave T (fun c => (q c).map f) = (weave T q).map f := by
  induction T generalizing q with
  | nil => rfl
  | cons c T ih =>
      have hupdate : ∀ rest : List α, Function.update (fun c => (q c).map f) c (rest.map f) =
          fun d => (Function.update q c rest d).map f := by
        intro rest
        ext1 d
        by_cases hd : d = c
        · subst hd
          rw [Function.update_self, Function.update_self]
        · rw [Function.update_of_ne hd, Function.update_of_ne hd]
      rcases hq : q c with _ | ⟨x, rest⟩
      · simp [weave, hq]
      · simp only [weave, hq, List.map_cons, hupdate, ih]

theorem laneOf_map {γ : Type} (f : α → γ) (P : List (Tag × α)) (c : Fin 2) :
    laneOf (P.map fun y => (y.1, f y.2)) c = (laneOf P c).map f := by
  rw [laneOf, laneOf, List.filter_map, List.map_map, List.map_map]
  rfl

/-- What a stream carries, if the items are made of their tags. -/
theorem laneOf_map_tag (f : Tag → α) (T : List Tag) (c : Fin 2) :
    laneOf (T.map fun t => (t, f t)) c = (T.filter fun t => t.side = c).map f := by
  rw [laneOf, List.filter_map, List.map_map]
  rfl

/-- Items taken from the streams of a tagged sequence at its first places are its first items. -/
theorem woven_isPrefix {γ : Type} {P : List (Tag × γ)} {n : ℕ} {R : Fin 2 → List α} {f : α → γ}
    (hcount : ∀ c, (sides ((P.map Prod.fst).take n)).count c ≤ (R c).length)
    (hR : ∀ c, (R c).map f <+: laneOf P c) :
    (weave (sides ((P.map Prod.fst).take n)) R).map f <+: P.map Prod.snd := by
  have hlen : ∀ c, (sides ((P.map Prod.fst).take n)).count c ≤ ((R c).map f).length := by
    intro c
    rw [List.length_map]
    exact hcount c
  have htake : sides ((P.map Prod.fst).take n) = (sides (P.map Prod.fst)).take n := List.map_take
  rw [← weave_map, ← weave_mono hR hlen, ← weave_lanes P, htake]
  exact weave_take _ _ _

/-- What a merger has let through of a tagged sequence. -/
theorem Sequenced.isPrefix {κ γ : Type} {ids : Numbers κ} {P : List (Tag × γ)}
    {m : Holding κ α} {R : Fin 2 → List α} {out : List α} {f : α → γ}
    (h : Sequenced ids (P.map Prod.fst) m R out) (hR : ∀ c, (R c).map f <+: laneOf P c) :
    out.map f <+: P.map Prod.snd := by
  rw [h.woven]
  exact woven_isPrefix h.count_le hR

/-- The groups that a merger has finished are those whose last item it has let through. -/
theorem Sequenced.ended_eq {κ : Type} {ids : Numbers κ} {T : List Tag} {m : Holding κ α}
    {R : Fin 2 → List α} {out : List α} {key : α → κ} {ends : α → Bool}
    (h : Sequenced ids T m R out) (hcarries : ∀ c, Carries ids key ends T c (R c)) :
    ended (T.take out.length) = out.countP ends := by
  have htags : (T.map fun t => (t, (ids.num t.group, t.ends))).map Prod.fst = T := by
    rw [List.map_map]
    exact List.map_id T
  have hout : out.map (fun x => (key x, ends x)) <+: T.map fun t => (ids.num t.group, t.ends) := by
    have hpre := Sequenced.isPrefix (P := T.map fun t => (t, (ids.num t.group, t.ends)))
      (f := fun x => (key x, ends x)) (by rw [htags]; exact h) fun c => by
        rw [laneOf_map_tag]
        exact hcarries c
    rwa [List.map_map] at hpre
  have hends := congrArg (List.countP Prod.snd) (List.prefix_iff_eq_take.mp hout)
  rw [List.length_map, ← List.map_take, List.countP_map, List.countP_map] at hends
  exact hends.symm

/-- The stream whose item is let through carries the next place of the sequence. -/
theorem Sequenced.side {κ : Type} {ids : Numbers κ} {T : List Tag} {m m' : Holding κ α}
    {R : Fin 2 → List α} {out : List α} {c : Fin 2} {x : α} (h : Sequenced ids T m R out)
    (h' : Sequenced ids T m' R (out ++ [x])) (hheld : m.held c = some x)
    (hfree : m'.held c = none) : (sides T)[out.length]? = some c := by
  obtain ⟨l, hl, hlen⟩ := h.received c
  obtain ⟨l', hl', hlen'⟩ := h'.received c
  have hcount : (sides (T.take (out.length + 1))).count c =
      (sides (T.take out.length)).count c + 1 := by
    rw [List.length_append, List.length_singleton] at hlen'
    rw [← hlen', ← hlen]
    have hboth := congrArg List.length (hl'.symm.trans hl)
    simpa [hheld, hfree] using hboth
  rw [List.take_add_one, sides, sides, List.map_append, List.count_append] at hcount
  rw [sides, List.getElem?_map]
  rcases ht : T[out.length]? with _ | t
  · simp [ht] at hcount
  · by_contra hne
    have hside : t.side ≠ c := by simpa using hne
    simp [ht, hside] at hcount

theorem length_laneOf (P : List (Tag × α)) (c : Fin 2) :
    (laneOf P c).length = (sides (P.map Prod.fst)).count c := by
  rw [count_sides, laneOf, List.filter_map, List.length_map, List.length_map]
  rfl

/-- A merger that waits holds no item of the stream that carries the next place. -/
theorem Sequenced.starved {κ : Type} [DecidableEq κ] {ids : Numbers κ} {key : α → κ}
    {ends : α → Bool} {T : List Tag} {m : Holding κ α} {R : Fin 2 → List α} {out : List α}
    (h : Sequenced ids T m R out) (hT : Grouped 0 T)
    (hcarries : ∀ c, Carries ids key ends T c (R c)) (hdue : m.due key = none) {c : Fin 2}
    (hside : (sides T)[out.length]? = some c) : m.held c = none := by
  rcases hheld : m.held c with _ | x
  · rfl
  · rw [sides, List.getElem?_map] at hside
    obtain ⟨t, ht, rfl⟩ := Option.map_eq_some_iff.mp hside
    obtain ⟨rest, hdrop⟩ : ∃ rest, T.drop out.length = t :: rest := by
      obtain ⟨hlt, rfl⟩ := List.getElem?_eq_some_iff.mp ht
      exact ⟨_, List.drop_eq_getElem_cons hlt⟩
    have hfirst := h.carries_held key (hcarries t.side)
    rw [hheld, hdrop, List.filter_cons_of_pos (by simp), List.map_cons, Option.toList_some,
      List.map_singleton] at hfirst
    have hgrouped := hT.drop out.length
    rw [Nat.zero_add, hdrop] at hgrouped
    have hkey : key x = ids.num t.group := by
      simpa using congrArg Prod.fst (List.cons_prefix_cons.mp hfirst).1
    exact absurd (hkey.trans (by rw [hgrouped.head_group, h.current])) (Holding.not_due hdue hheld)

/-- The stream of the next place has not delivered all that a longer part of the sequence asks
for. -/
theorem Sequenced.short {κ : Type} {ids : Numbers κ} {T T' : List Tag} {m : Holding κ α}
    {R : Fin 2 → List α} {out : List α} {c : Fin 2} (h : Sequenced ids T m R out)
    (hheld : m.held c = none) (hT' : T' <+: T) (hside : (sides T')[out.length]? = some c) :
    (R c).length < (sides T').count c := by
  obtain ⟨l, hR, hlen⟩ := h.received c
  obtain ⟨hlt, hget⟩ := List.getElem?_eq_some_iff.mp hside
  rw [sides, List.length_map] at hlt
  have htake : sides (T.take out.length) = (sides T').take out.length := by
    obtain ⟨t, rfl⟩ := hT'
    rw [List.take_append_of_le_length hlt.le]
    exact List.map_take
  have hsplit := List.take_append_drop out.length (sides T')
  have hdrop := List.drop_eq_getElem_cons (show out.length < (sides T').length by simpa [sides])
  rw [hR, hheld, Option.toList_none, List.append_nil, hlen, htake, ← hsplit, hdrop, hget,
    List.count_append, List.take_append_of_le_length (by simp [sides, hlt.le]), List.take_take,
    min_self, List.count_cons_self]
  omega

theorem length_count (T : List (Fin 2)) : T.length = T.count 0 + T.count 1 := by
  induction T with
  | nil => rfl
  | cons c T ih =>
      rw [List.length_cons, List.count_cons, List.count_cons, ih]
      fin_cases c <;> simp <;> omega

/-- Two streams that have no more than a part of the sequence asks for have been let through to its
end. -/
theorem Sequenced.drained {κ : Type} {ids : Numbers κ} {T T' : List Tag} {m : Holding κ α}
    {R : Fin 2 → List α} {out : List α} (h : Sequenced ids T m R out) (hT' : T' <+: T)
    (hlen : T'.length ≤ out.length) (hR : ∀ c, (R c).length ≤ (sides T').count c) :
    out.length = T'.length ∧ ∀ c, m.held c = none ∧
      (R c).length = (sides (T.take out.length)).count c ∧ (R c).length = (sides T').count c := by
  have hpre : T' <+: T.take out.length := by
    rw [List.prefix_take_iff]
    exact ⟨hT', hlen⟩
  have hmore : ∀ c, (sides T').count c ≤ (sides (T.take out.length)).count c := fun c =>
    (hpre.map _).sublist.count_le c
  have hall : ∀ c, m.held c = none ∧
      (R c).length = (sides (T.take out.length)).count c ∧ (R c).length = (sides T').count c := by
    intro c
    obtain ⟨l, hl, hcount⟩ := h.received c
    have hlength := congrArg List.length hl
    rw [List.length_append] at hlength
    have hle := hR c
    have hge := hmore c
    refine ⟨?_, by omega, by omega⟩
    rcases hheld : m.held c with _ | x
    · rfl
    · rw [hheld, Option.toList_some, List.length_singleton] at hlength
      omega
  refine ⟨?_, hall⟩
  have hout : (sides (T.take out.length)).length = out.length := by
    rw [sides, List.length_map, List.length_take, min_eq_left h.le]
  have hshort : (sides T').length = T'.length := List.length_map _
  obtain ⟨-, hfirst, hfirst'⟩ := hall 0
  obtain ⟨-, hsecond, hsecond'⟩ := hall 1
  rw [length_count] at hout hshort
  omega

/-- A woven list has an item for every place. -/
theorem length_weave {T : List (Fin 2)} {q : Fin 2 → List α}
    (hlen : ∀ c, T.count c ≤ (q c).length) : (weave T q).length = T.length := by
  induction T generalizing q with
  | nil => rfl
  | cons d T ih =>
      have hd := hlen d
      rcases hq : q d with _ | ⟨y, rest⟩
      · simp [hq] at hd
      · simp only [weave, hq, List.length_cons]
        rw [ih]
        intro e
        by_cases he : e = d
        · subst he
          simpa [hq] using hd
        · have hlen' := hlen e
          rwa [List.count_cons_of_ne (Ne.symm he), ← Function.update_of_ne he rest q] at hlen'

/-! ## Words that follow the items -/

/-- Words of two streams that have followed the first `n` items of a sequence, one for each. -/
structure Relayed (T : List Tag) (n : ℕ) (R : Fin 2 → List α) (out : List α) : Prop where
  count : ∀ c, (R c).length = (sides (T.take n)).count c
  woven : out = weave (sides (T.take n)) R

/-- One more word follows the next item. -/
theorem Relayed.snoc {T : List Tag} {n : ℕ} {R : Fin 2 → List α} {out : List α}
    (h : Relayed T n R out) {c : Fin 2} (hside : (sides T)[n]? = some c) (x : α) :
    Relayed T (n + 1) (Function.update R c (R c ++ [x])) (out ++ [x]) := by
  have hsides : sides (T.take (n + 1)) = sides (T.take n) ++ [c] := by
    have htake : sides (T.take (n + 1)) = (sides T).take (n + 1) := List.map_take
    rw [htake, List.take_add_one, hside]
    exact congrArg (· ++ [c]) List.map_take.symm
  have hgrow : ∀ d, R d <+: Function.update R c (R c ++ [x]) d := by
    intro d
    by_cases hd : d = c
    · subst hd
      rw [Function.update_self]
      exact List.prefix_append _ _
    · rw [Function.update_of_ne hd]
  refine ⟨fun d => ?_, ?_⟩
  · rw [hsides, List.count_append, ← h.count]
    by_cases hd : d = c
    · subst hd
      simp
    · rw [Function.update_of_ne hd]
      simp [Ne.symm hd]
  · rw [hsides, weave_snoc (x := x)]
    · rw [weave_mono hgrow fun d => (h.count d).ge, ← h.woven]
    · exact fun d => (h.count d).ge.trans (hgrow d).length_le
    · rw [Function.update_self, ← h.count, List.getElem?_append_right le_rfl, Nat.sub_self]
      rfl

/-- The sequence may be known farther than before. -/
theorem Relayed.grow {T : List Tag} {n : ℕ} {R : Fin 2 → List α} {out : List α}
    (h : Relayed T n R out) (hn : n ≤ T.length) {T' : List Tag} (hT : T <+: T') :
    Relayed T' n R out := by
  obtain ⟨t, rfl⟩ := hT
  have htake : (T ++ t).take n = T.take n := List.take_append_of_le_length hn
  exact ⟨fun c => by rw [htake, h.count], by rw [htake, ← h.woven]⟩

theorem Relayed.length {T : List Tag} {n : ℕ} {R : Fin 2 → List α} {out : List α}
    (h : Relayed T n R out) (hn : n ≤ T.length) : out.length = n := by
  rw [h.woven, length_weave fun c => (h.count c).ge, sides, List.length_map, List.length_take,
    min_eq_left hn]

/-- The words that have followed the items of a tagged sequence. -/
theorem Relayed.isPrefix {γ : Type} {P : List (Tag × γ)} {n : ℕ} {R : Fin 2 → List α}
    {out : List α} {f : α → γ} (h : Relayed (P.map Prod.fst) n R out)
    (hR : ∀ c, (R c).map f <+: laneOf P c) : out.map f <+: P.map Prod.snd := by
  rw [h.woven]
  exact woven_isPrefix (fun c => (h.count c).ge) hR

/-! ## Numbered groups -/

/-- The items of a group that one stream carries; the last of them ends it. -/
def tagGroup (c : Fin 2) (k : ℕ) : List α → List (Tag × α)
  | [] => []
  | [x] => [(⟨c, k, true⟩, x)]
  | x :: y :: rest => (⟨c, k, false⟩, x) :: tagGroup c k (y :: rest)

/-- Groups one after the other, numbered from `k` on. -/
def numbered : ℕ → List (Fin 2 × List α) → List (Tag × α)
  | _, [] => []
  | k, g :: G => tagGroup g.1 k g.2 ++ numbered (k + 1) G

theorem map_snd_tagGroup (c : Fin 2) (k : ℕ) (L : List α) : (tagGroup c k L).map Prod.snd = L := by
  induction L using tagGroup.induct with
  | case1 => rfl
  | case2 x => rfl
  | case3 x y rest ih => rw [tagGroup, List.map_cons, ih]

theorem side_tagGroup (c : Fin 2) (k : ℕ) (L : List α) : ∀ y ∈ tagGroup c k L, y.1.side = c := by
  induction L using tagGroup.induct with
  | case1 => simp [tagGroup]
  | case2 x => simp [tagGroup]
  | case3 x y rest ih =>
      rw [tagGroup]
      exact List.forall_mem_cons.mpr ⟨rfl, ih⟩

theorem laneOf_tagGroup (c d : Fin 2) (k : ℕ) (L : List α) :
    laneOf (tagGroup c k L) d = if c = d then L else [] := by
  rw [laneOf]
  split
  · rename_i hcd
    rw [List.filter_eq_self.mpr fun y hy => by simp [side_tagGroup c k L y hy, hcd],
      map_snd_tagGroup]
  · rename_i hcd
    rw [List.filter_eq_nil_iff.mpr fun y hy => by simp [side_tagGroup c k L y hy, hcd]]
    rfl

/-- A group and what goes on with the next one. -/
theorem tagGroup_grouped {c : Fin 2} {k : ℕ} {L : List α} (hL : L ≠ []) {T : List Tag}
    (hT : Grouped (k + 1) T) : Grouped k ((tagGroup c k L).map Prod.fst ++ T) := by
  induction L using tagGroup.induct with
  | case1 => exact absurd rfl hL
  | case2 x => exact .ends hT
  | case3 x y rest ih =>
      refine .stays (ih (by simp)) fun t ht => ?_
      have hhead : ((tagGroup c k (y :: rest)).map Prod.fst ++ T).head? =
          ((tagGroup c k (y :: rest)).map Prod.fst).head? := by
        cases rest <;> rfl
      have hmem := List.mem_of_mem_head? (hhead.symm.trans (Option.mem_def.mp ht))
      obtain ⟨z, hz, rfl⟩ := List.mem_map.mp hmem
      exact side_tagGroup c k _ z hz

theorem map_snd_numbered (k : ℕ) (G : List (Fin 2 × List α)) :
    (numbered k G).map Prod.snd = G.flatMap Prod.snd := by
  induction G generalizing k with
  | nil => rfl
  | cons g G ih => rw [numbered, List.map_append, map_snd_tagGroup, ih, List.flatMap_cons]

theorem laneOf_numbered (k : ℕ) (G : List (Fin 2 × List α)) (c : Fin 2) :
    laneOf (numbered k G) c = (G.filter fun g => g.1 = c).flatMap Prod.snd := by
  induction G generalizing k with
  | nil => rfl
  | cons g G ih =>
      rw [numbered, laneOf_append, laneOf_tagGroup, ih, List.filter_cons]
      by_cases hc : g.1 = c <;> simp [hc]

theorem numbered_append (k : ℕ) (G G' : List (Fin 2 × List α)) :
    numbered k (G ++ G') = numbered k G ++ numbered (k + G.length) G' := by
  induction G generalizing k with
  | nil => rfl
  | cons g G ih =>
      rw [List.cons_append, numbered, ih, numbered, List.append_assoc, List.length_cons,
        Nat.add_assoc, Nat.add_comm 1]

theorem numbered_isPrefix (k : ℕ) {G G' : List (Fin 2 × List α)} (h : G <+: G') :
    numbered k G <+: numbered k G' := by
  obtain ⟨t, rfl⟩ := h
  rw [numbered_append]
  exact List.prefix_append _ _

/-- Groups that are not empty follow each other. -/
theorem numbered_grouped (k : ℕ) {G : List (Fin 2 × List α)} (hG : ∀ g ∈ G, g.2 ≠ []) :
    Grouped k ((numbered k G).map Prod.fst) := by
  induction G generalizing k with
  | nil => exact .nil k
  | cons g G ih =>
      obtain ⟨hg, hG⟩ := List.forall_mem_cons.mp hG
      rw [numbered, List.map_append]
      exact tagGroup_grouped hg (ih (k + 1) hG)

/-- The items of a group carry its number, and only the last of them ends it. -/
def CarriesGroup {κ : Type} (key : α → κ) (ends : α → Bool) (n : κ) (L : List α) : Prop :=
  ∀ j x, L[j]? = some x → key x = n ∧ ends x = decide (j + 1 = L.length)

section Labels

variable {κ : Type} {ids : Numbers κ} {key : α → κ} {ends : α → Bool}

theorem tagGroup_labelled {c : Fin 2} {k : ℕ} {L : List α}
    (hL : CarriesGroup key ends (ids.num k) L) :
    ∀ y ∈ tagGroup c k L, y.1.group = k ∧ key y.2 = ids.num y.1.group ∧ ends y.2 = y.1.ends := by
  induction L using tagGroup.induct with
  | case1 => simp [tagGroup]
  | case2 x =>
      obtain ⟨hkey, hends⟩ := hL 0 x rfl
      simpa [tagGroup] using ⟨hkey, hends⟩
  | case3 x y rest ih =>
      obtain ⟨hkey, hends⟩ := hL 0 x rfl
      rw [tagGroup]
      refine List.forall_mem_cons.mpr ⟨⟨rfl, hkey, ?_⟩, ih fun j z hz => ?_⟩
      · simpa using hends
      · simpa using hL (j + 1) z hz

/-- Every item of numbered groups carries its tag. -/
theorem numbered_labelled {k : ℕ} {G : List (Fin 2 × List α)}
    (hG : ∀ i g, G[i]? = some g → CarriesGroup key ends (ids.num (k + i)) g.2) :
    ∀ y ∈ numbered k G, y.1.group < k + G.length ∧
      key y.2 = ids.num y.1.group ∧ ends y.2 = y.1.ends := by
  induction G generalizing k with
  | nil => simp [numbered]
  | cons g G ih =>
      intro y hy
      rcases List.mem_append.mp hy with hy | hy
      · obtain ⟨hgroup, hkey, hends⟩ := tagGroup_labelled (hG 0 g rfl) y hy
        refine ⟨?_, hkey, hends⟩
        rw [hgroup, List.length_cons]
        omega
      · obtain ⟨hgroup, hkey, hends⟩ := ih (k := k + 1) (fun i g' hg' => by
          have hnext := hG (i + 1) g' hg'
          rwa [show k + (i + 1) = k + 1 + i by omega] at hnext) y hy
        refine ⟨?_, hkey, hends⟩
        rw [List.length_cons]
        omega

/-- A stream whose words belong to items of a sequence that carry their tags. -/
theorem carries_of_isPrefix {β γ : Type} {P : List (Tag × γ)} {f : β → α} {g : γ → α} {c : Fin 2}
    {l : List β} (hP : ∀ y ∈ P, key (g y.2) = ids.num y.1.group ∧ ends (g y.2) = y.1.ends)
    (hl : l.map f <+: (laneOf P c).map g) :
    Carries ids (fun x => key (f x)) (fun x => ends (f x)) (P.map Prod.fst) c l := by
  have hlane : ((laneOf P c).map g).map (fun x => (key x, ends x)) =
      ((P.map Prod.fst).filter fun t => t.side = c).map fun t => (ids.num t.group, t.ends) := by
    rw [laneOf, List.filter_map, List.map_map, List.map_map, List.map_map]
    refine List.map_congr_left fun y hy => ?_
    obtain ⟨hkey, hends⟩ := hP y (List.mem_of_mem_filter hy)
    exact Prod.ext hkey hends
  rw [Carries, ← hlane]
  have hmap := hl.map fun x => (key x, ends x)
  rwa [List.map_map] at hmap

end Labels

end Tagged

end RidgeWalker.Dataflow
