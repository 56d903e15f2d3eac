import RidgeWalker.Bits.Numerals
import RidgeWalker.Dataflow.Interleave

/-!
# Frames

A stream is cut into frames by a flag on the last word of each.  A merge of two streams keeps
frames whole if it changes over to the other stream only at the end of a frame.

Main results:

- Definition `frames`: the frames of a stream.
- Theorem `frames_snoc_le`: what one more word does to the lengths of the frames.
- Theorem `Whole.single`: the words of a frame have one key, if neighbours inside a frame have.
- Theorem `FrameMerge.whole`: a merge that changes over only between frames keeps frames whole.
- Theorem `FrameMerge.interleave`: it neither loses nor repeats nor reorders a word.
-/

namespace RidgeWalker.Dataflow

variable {w κ : Type} (last : w → Bool) (key : w → κ)

/-! ## The frames of a stream -/

/-- The maximal runs of words up to and including one that is last. -/
def frames : List w → List (List w)
  | [] => []
  | a :: l =>
      if last a then [a] :: frames l
      else
        match frames l with
        | [] => [[a]]
        | f :: fs => (a :: f) :: fs

/-- The frames make up the stream. -/
theorem frames_flatten (l : List w) : (frames last l).flatten = l := by
  induction l with
  | nil => rfl
  | cons a l ih =>
      unfold frames
      split
      · simp [ih]
      · split <;> simp_all

/-- The frames begin where the stream does. -/
theorem head_frames {l f : List w} {fs : List (List w)} (h : frames last l = f :: fs) :
    ∃ a f', f = a :: f' ∧ l.head? = some a := by
  cases l with
  | nil => cases h
  | cons a l =>
      unfold frames at h
      split at h
      · cases h
        exact ⟨a, [], rfl, rfl⟩
      · split at h
        · cases h
          exact ⟨a, [], rfl, rfl⟩
        · cases h
          exact ⟨a, _, rfl, rfl⟩

/-! ## The lengths of the frames -/

/-- The lengths of the frames, when `k` words of the first one are behind. -/
def frameLengths : ℕ → List w → List ℕ
  | k, [] => if k = 0 then [] else [k]
  | k, a :: l => if last a then (k + 1) :: frameLengths 0 l else frameLengths (k + 1) l

/-- The words of the frame that is under way at the end, when `k` words are behind. -/
def underWay (k : ℕ) (l : List w) : ℕ := l.foldl (fun n a => if last a then 0 else n + 1) k

@[simp] theorem underWay_snoc (k : ℕ) (l : List w) (a : w) :
    underWay last k (l ++ [a]) = if last a then 0 else underWay last k l + 1 := by
  simp [underWay]

theorem underWay_append (k : ℕ) (l m : List w) :
    underWay last k (l ++ m) = underWay last (underWay last k l) m := by
  simp [underWay]

/-- Words that end no frame all belong to the frame that is under way. -/
theorem underWay_of_forall (k : ℕ) {l : List w} (h : ∀ a ∈ l, ¬last a = true) :
    underWay last k l = k + l.length := by
  induction l generalizing k with
  | nil => rfl
  | cons a l ih =>
      have ha : ¬last a = true := h a List.mem_cons_self
      have hrest := ih (k + 1) fun b hb => h b (List.mem_cons_of_mem _ hb)
      rw [underWay, List.foldl_cons, if_neg ha, List.length_cons]
      exact hrest.trans (by omega)

/-- With `k` words behind, the first frame is longer by `k`. -/
theorem frameLengths_eq (k : ℕ) (l : List w) :
    frameLengths last k l =
      match (frames last l).map List.length with
      | [] => if k = 0 then [] else [k]
      | n :: ns => (k + n) :: ns := by
  induction l generalizing k with
  | nil => rfl
  | cons a l ih =>
      rw [frameLengths, frames]
      split
      · have hrest : frameLengths last 0 l = (frames last l).map List.length := by
          rw [ih]
          cases (frames last l).map List.length with
          | nil => rfl
          | cons n ns => simp
        rw [hrest]
        rfl
      · rw [ih]
        cases frames last l with
        | nil => simp
        | cons f fs =>
            simp only [List.map_cons, List.length_cons, List.cons.injEq, and_true]
            omega

/-- The lengths of the frames of a stream. -/
theorem map_length_frames (l : List w) :
    (frames last l).map List.length = frameLengths last 0 l := by
  rw [frameLengths_eq]
  cases (frames last l).map List.length with
  | nil => rfl
  | cons n ns => simp

/-- One more word makes the frame that is under way longer. -/
theorem frameLengths_snoc_le {k b : ℕ} {l : List w} {a : w} :
    (∀ n ∈ frameLengths last k (l ++ [a]), n ≤ b) ↔
      (∀ n ∈ frameLengths last k l, n ≤ b) ∧ underWay last k l + 1 ≤ b := by
  induction l generalizing k with
  | nil =>
      have hone : frameLengths last k [a] = [k + 1] := by
        rw [frameLengths]
        split
        · rfl
        · simp [frameLengths]
      rw [List.nil_append, hone, List.forall_mem_singleton, frameLengths]
      change k + 1 ≤ b ↔ _ ∧ k + 1 ≤ b
      split
      · simp
      · simp only [List.forall_mem_singleton]
        omega
  | cons x l ih =>
      have hcarry : underWay last k (x :: l) =
          if last x then underWay last 0 l else underWay last (k + 1) l := by
        rw [underWay, List.foldl_cons]
        split <;> rfl
      rw [List.cons_append, frameLengths, frameLengths, hcarry]
      split
      · rw [List.forall_mem_cons, List.forall_mem_cons, ih, and_assoc]
      · exact ih

/-- One more word keeps a bound on the frames exactly if the frame that is under way has room. -/
theorem frames_snoc_le {b : ℕ} {l : List w} {a : w} :
    (∀ f ∈ frames last (l ++ [a]), f.length ≤ b) ↔
      (∀ f ∈ frames last l, f.length ≤ b) ∧ underWay last 0 l + 1 ≤ b := by
  have h := frameLengths_snoc_le last (k := 0) (b := b) (l := l) (a := a)
  rw [← map_length_frames, ← map_length_frames, List.forall_mem_map, List.forall_mem_map] at h
  exact h

/-! ## Whole frames -/

/-- The words inside a frame have the same key as the word before. -/
def Whole (l : List w) : Prop := l.IsChain fun a b => last a = false → key b = key a

variable {last key}

/-- All words of a frame have one key. -/
theorem Whole.single {l : List w} (h : Whole last key l) :
    ∀ f ∈ frames last l, ∃ k, ∀ x ∈ f, key x = k := by
  induction l with
  | nil => exact fun f hf => absurd hf List.not_mem_nil
  | cons a l ih =>
      have htail : Whole last key l := h.tail
      intro f hf
      unfold frames at hf
      split at hf
      · rcases List.mem_cons.mp hf with rfl | hf
        · exact ⟨key a, by simp⟩
        · exact ih htail f hf
      · rename_i hlast
        split at hf
        · rw [List.mem_singleton.mp hf]
          exact ⟨key a, by simp⟩
        · rename_i f₀ fs hframes
          rcases List.mem_cons.mp hf with rfl | hf
          · -- The first frame of the rest begins with the key of `a`.
            obtain ⟨k, hk⟩ := ih htail f₀ (by simp [hframes])
            obtain ⟨b, f', rfl, hb⟩ := head_frames last hframes
            have hab : key b = key a := h.rel_head? hb (by simpa using hlast)
            refine ⟨k, fun x hx => ?_⟩
            rcases List.mem_cons.mp hx with rfl | hx
            · rw [← hab]
              exact hk b List.mem_cons_self
            · exact hk x hx
          · exact ih htail f (by simp [hframes, hf])

/-- The frames with a key are made of the words with that key. -/
theorem Whole.filter_frames [DecidableEq κ] {l : List w} (h : Whole last key l) (k : κ) :
    ((frames last l).filter fun f => f.all fun x => key x = k).flatten =
      l.filter fun x => key x = k := by
  have hsingle := h.single
  conv_rhs => rw [← frames_flatten last l]
  generalize frames last l = fs at hsingle
  induction fs with
  | nil => rfl
  | cons f fs ih =>
      have ih := ih fun g hg => hsingle g (List.mem_cons_of_mem _ hg)
      obtain ⟨k', hk'⟩ := hsingle f List.mem_cons_self
      rw [List.flatten_cons, List.filter_append, ← ih, List.filter_cons]
      split
      · rename_i hall
        have hself : f.filter (fun x => key x = k) = f :=
          List.filter_eq_self.mpr (List.all_eq_true.mp hall)
        rw [List.flatten_cons, hself]
      · rename_i hall
        have hnil : f.filter (fun x => key x = k) = [] := by
          refine List.filter_eq_nil_iff.mpr fun x hx hkey => hall ?_
          refine List.all_eq_true.mpr fun y hy => ?_
          simpa [hk' y hy, ← hk' x hx] using hkey
        rw [hnil, List.nil_append]

/-! ## Merging whole frames -/

section Merge

variable (last)

/-- `FrameMerge L m o`: the list `m` merges the two lists `L`, changing over only at the end of
a frame; `o` is the list whose frame is under way. -/
inductive FrameMerge : (Fin 2 → List w) → List w → Option (Fin 2) → Prop where
  | nil : FrameMerge (fun _ => []) [] none
  | snoc {L m o} (h : FrameMerge L m o) {i : Fin 2} (ho : o = none ∨ o = some i) (a : w) :
      FrameMerge (Function.update L i (L i ++ [a])) (m ++ [a]) (if last a then none else some i)

/-- The last word of a list, if there is one, ends a frame. -/
def Closed (l : List w) : Prop := ∀ x ∈ l.getLast?, last x = true

variable {last} {L : Fin 2 → List w} {m : List w} {o : Option (Fin 2)}

/-- A merge of whole frames is a merge. -/
theorem FrameMerge.interleave (h : FrameMerge last L m o) : Interleave (L 0) (L 1) m := by
  induction h with
  | nil => exact .nil
  | @snoc L m o _ i _ a ih =>
      rcases Fin.exists_fin_two.mp ⟨i, rfl⟩ with rfl | rfl
      · simpa using ih.left a
      · simpa using ih.right a

/-- A class of words that only one of the two lists has comes from it in order. -/
theorem FrameMerge.filter_eq (h : FrameMerge last L m o) {q : w → Bool} {i : Fin 2}
    (hq : ∀ j ≠ i, (L j).filter q = []) : m.filter q = (L i).filter q := by
  have hmerge := h.interleave.filter q
  rcases Fin.exists_fin_two.mp ⟨i, rfl⟩ with rfl | rfl
  · rw [hq 1 (by decide)] at hmerge
    exact hmerge.eq_left
  · rw [hq 0 (by decide)] at hmerge
    exact hmerge.comm.eq_left

/-- Between frames the merge is closed, and inside a frame it ends like the list of the frame. -/
theorem FrameMerge.owner (h : FrameMerge last L m o) :
    (o = none → Closed last m) ∧ ∀ i, o = some i → m.getLast? = (L i).getLast? := by
  cases h with
  | nil => simp [Closed]
  | @snoc L m o _ i _ a =>
      by_cases ha : last a
      · simp [ha, Closed]
      · simp [ha]

/-- A further word of the frame that is under way has the key of the word before. -/
theorem Whole.snoc {a : w} (h : Whole last key m)
    (ha : ∀ x ∈ m.getLast?, last x = false → key a = key x) : Whole last key (m ++ [a]) := by
  refine List.IsChain.append h (List.isChain_singleton a) fun x hx y hy => ?_
  cases hy
  exact ha x hx

theorem Whole.of_snoc {a : w} (h : Whole last key (m ++ [a])) :
    Whole last key m ∧ ∀ x ∈ m.getLast?, last x = false → key a = key x := by
  refine ⟨h.left_of_append, fun x hx => ?_⟩
  exact (List.isChain_append.mp h).2.2 x hx a (by simp)

theorem Whole.of_isPrefix {l : List w} (h : Whole last key l) (hm : m <+: l) :
    Whole last key m := h.prefix hm

/-- Words that all have one key make whole frames. -/
theorem Whole.of_forall {k : κ} (h : ∀ x ∈ m, key x = k) : Whole last key m := by
  induction m with
  | nil => exact List.isChain_nil
  | cons a m ih =>
      refine List.isChain_cons.mpr ⟨fun b hb _ => ?_, ih fun x hx => h x (.tail a hx)⟩
      rw [h b (.tail a (List.mem_of_mem_head? hb)), h a List.mem_cons_self]

/-- A merge that changes over only between frames keeps frames whole. -/
theorem FrameMerge.whole (h : FrameMerge last L m o) (hL : ∀ i, Whole last key (L i)) :
    Whole last key m := by
  induction h with
  | nil => exact hL 0
  | @snoc L m o h i ho a ih =>
      have hi := hL i
      rw [Function.update_self] at hi
      obtain ⟨hwhole, hnext⟩ := hi.of_snoc
      have hbefore : ∀ j, Whole last key (L j) := by
        intro j
        by_cases hj : j = i
        · exact hj ▸ hwhole
        · simpa [Function.update_of_ne hj] using hL j
      refine (ih hbefore).snoc fun x hx hopen => ?_
      obtain ⟨hclosed, howner⟩ := h.owner
      rcases ho with rfl | rfl
      · rw [hclosed rfl x hx] at hopen
        cases hopen
      · exact hnext x (howner i rfl ▸ hx) hopen

end Merge

end RidgeWalker.Dataflow
