import RidgeWalker.Dataflow.Stillness

/-!
# Lanes

A fork gives every word to each of `n` lanes, one lane after the other.  A join takes a word of each
lane, one lane after the other, and sends what it makes of them.

Main results:

- Theorem `join_history`: what a join has received and sent.
- Theorem `fork_lengths`: the lanes behind a fork differ by one word at most, and the first ones are
  not the shorter ones.
- Theorem `join_still`: what a join waits for at a standstill.
-/

namespace RidgeWalker.Dataflow

variable {n : ℕ} {a b : Type}

/-! ## The join -/

/-- Registers of a join: the lane it reads next, the words it has read. -/
inductive JoinRegs (n : ℕ) (a : Type) where
  | read (i : Fin n) (v : Fin n → a)
  | write (v : Fin n → a)

/-- A join of `n` lanes. -/
def joinKernel [NeZero n] (f : (Fin n → a) → b) (v : Fin n → a) :
    Kernel (fun _ : Fin n => a) (fun _ : Unit => b) where
  σ := JoinRegs n a
  Ω := Empty
  start := .read 0 v
  op
    | .read i v => .read i fun x =>
        if h : i.val + 1 < n then .read ⟨i + 1, h⟩ (Function.update v i x)
        else .write (Function.update v i x)
    | .write v => .write () (f v) (.read 0 v)

section Join

variable [NeZero n] {f : (Fin n → a) → b} {v : Fin n → a}

/-- A round of a join takes a word of each lane. -/
def joinRounds (f : (Fin n → a) → b) (v : Fin n → a) : Rounds (joinKernel f v) (Fin n → a) where
  ins rounds i := rounds.map fun v => v i
  outs rounds _ := rounds.map f
  got
    | .read i v => fun j => if j.val < i.val then [v j] else []
    | .write _ => fun _ => []
  owes
    | .read _ _ => fun _ => []
    | .write v => fun _ => [f v]
  agrees _ _ := True

theorem joinRounds_sound : (joinRounds f v).Sound := by
  refine ⟨⟨trivial, fun i => ?_, fun _ => rfl⟩, fun rounds r R S h => ?_⟩
  · simp [joinRounds, joinKernel]
  cases r with
  | read i v =>
      intro x
      by_cases hi : i.val + 1 < n
      · refine ⟨rounds, ?_⟩
        simp only [hi, dite_true]
        refine h.take trivial (funext fun j => ?_) rfl
        by_cases hj : j = i
        · subst hj
          simp [joinRounds, -Fin.val_fin_lt]
        · have hlt : j.val < i.val + 1 ↔ j.val < i.val := by omega
          simp [joinRounds, hj, hlt, -Fin.val_fin_lt]
      · refine ⟨rounds ++ [Function.update v i x], ?_⟩
        simp only [hi, dite_false]
        refine h.round _ trivial (fun j => ?_) (fun _ => rfl) (fun _ => rfl) fun _ => ?_
        · by_cases hj : j = i
          · subst hj
            simp [joinRounds]
          · have hlt : j.val < i.val := by omega
            simp [joinRounds, hj, hlt, -Fin.val_fin_lt]
        · simp [joinRounds]
  | write v =>
      refine ⟨rounds, h.give trivial ?_ ?_⟩
      · funext j
        simp [joinRounds]
      · funext o
        simp [joinRounds]

/-- The lane that a join reads next, if it reads. -/
def JoinRegs.lane : JoinRegs n a → ℕ
  | .read i _ => i
  | .write _ => n

/-- What a join has received and sent after some rounds. -/
structure Joined (f : (Fin n → a) → b) (rounds : List (Fin n → a)) (r : JoinRegs n a)
    (R : Fin n → List a) (S : List b) : Prop where
  received : ∀ i, rounds.map (fun v => v i) <+: R i
  sent : S <+: rounds.map f
  length : ∀ i v, r = .read i v → S = rounds.map f ∧
    ∀ j, (R j).length = rounds.length + if j < i then 1 else 0

theorem join_history {r : (joinKernel f v).σ} {R : Fin n → List a} {S : Unit → List b}
    (hp : (joinKernel f v).Path (joinKernel f v).start r R S) :
    ∃ rounds, Joined f rounds r R (S ()) := by
  obtain ⟨rounds, -, hreceived, hsent⟩ := Rounds.history joinRounds_sound hp
  refine ⟨rounds, fun i => ⟨_, (hreceived i).symm⟩, ⟨_, hsent ()⟩, fun i w hr => ?_⟩
  subst hr
  have hall : S () ++ [] = rounds.map f := hsent ()
  refine ⟨(List.append_nil _).symm.trans hall, fun j => ?_⟩
  have hj : R j = rounds.map (fun v => v j) ++ if j.val < i.val then [w j] else [] := hreceived j
  rw [hj, List.length_append, List.length_map]
  by_cases hlt : j < i
  · simp [hlt]
  · simp [hlt]

/-- Rounds whose lanes are the first words of those of a list are the first ones of it. -/
theorem rounds_isPrefix {rounds L : List (Fin n → a)}
    (h : ∀ i, rounds.map (fun v => v i) <+: L.map fun v => v i) : rounds <+: L := by
  have hle : rounds.length ≤ L.length := by
    have h0 := (h 0).length_le
    rwa [List.length_map, List.length_map] at h0
  refine List.prefix_iff_getElem.mpr ⟨hle, fun k hk => funext fun i => ?_⟩
  have hi := (List.prefix_iff_getElem.mp (h i)).2 k (by rwa [List.length_map])
  rwa [List.getElem_map, List.getElem_map] at hi

end Join

/-! ## The fork -/

/-- A fork to `n` lanes. -/
def forkEmitter (n : ℕ) (a : Type) : Emitter a fun _ : Fin n => a where
  σ := Unit
  start := ()
  answer _ x := ((), (List.finRange n).map fun i => ⟨i, x⟩)

/-- Every lane gets all words. -/
theorem sentTo_forkEmitter (i : Fin n) (xs : List a) :
    sentTo i ((forkEmitter n a).answers () xs) = xs := by
  induction xs with
  | nil => rfl
  | cons x xs ih =>
      have hone := sentTo_map_mk (fun _ : Fin n => x) (List.nodup_finRange n) (List.mem_finRange i)
      show sentTo i (((List.finRange n).map fun i => (⟨i, x⟩ : Send fun _ : Fin n => a)) ++
        (forkEmitter n a).answers () xs) = _
      rw [sentTo_append, hone, ih]
      rfl

theorem sentTo_map_of_notMem {x : a} {l : List (Fin n)} {i : Fin n} (hi : i ∉ l) :
    sentTo i (l.map fun i => (⟨i, x⟩ : Send fun _ : Fin n => a)) = [] := by
  induction l with
  | nil => rfl
  | cons j l ih =>
      rw [List.map_cons, sentTo_of_ne (List.ne_of_not_mem_cons hi).symm]
      exact ih (List.not_mem_of_not_mem_cons hi)

/-- What a fork has still to send for a word goes to the last lanes. -/
theorem sentTo_suffix {x : a} {q : List (Send fun _ : Fin n => a)}
    (hq : q <:+ (List.finRange n).map fun i => ⟨i, x⟩) {i j : Fin n} (hij : i ≤ j) :
    (sentTo i q).length ≤ (sentTo j q).length ∧ (sentTo j q).length ≤ 1 := by
  obtain ⟨t, ht⟩ := hq
  obtain ⟨before, rest, hrange, -, rfl⟩ := List.append_eq_map_iff.mp ht
  have hsorted := List.pairwise_lt_finRange n
  have hnodup := List.nodup_finRange n
  rw [hrange] at hsorted hnodup
  have hlanes := (List.pairwise_append.mp hsorted).2.2
  have hone : ∀ k ∈ rest, sentTo k (rest.map fun i => (⟨i, x⟩ : Send fun _ : Fin n => a)) = [x] :=
    fun k hk => sentTo_map_mk (fun _ : Fin n => x) (List.nodup_append.mp hnodup).2.1 hk
  by_cases hj : j ∈ rest
  · rw [hone j hj]
    refine ⟨?_, le_rfl⟩
    by_cases hi : i ∈ rest
    · rw [hone i hi]
    · rw [sentTo_map_of_notMem hi]
      exact Nat.zero_le _
  · have hi : i ∉ rest := by
      intro hi
      have hmem : j ∈ before ++ rest := hrange ▸ List.mem_finRange j
      have hbefore := (List.mem_append.mp hmem).resolve_right hj
      exact absurd hij (not_le.mpr (hlanes j hbefore i hi))
    rw [sentTo_map_of_notMem hi, sentTo_map_of_notMem hj]
    exact ⟨le_rfl, Nat.zero_le _⟩

/-- The lanes behind a fork differ by one word at most. -/
theorem fork_lengths {r : (forkEmitter n a).σ × List (Send fun _ : Fin n => a)}
    {R : Unit → List a} {S : Fin n → List a}
    (hp : (emitterKernel (forkEmitter n a)).Path (emitterKernel (forkEmitter n a)).start r R S)
    {i j : Fin n} (hij : i ≤ j) :
    (S j).length ≤ (S i).length ∧ (S i).length ≤ (S j).length + 1 := by
  have hi := congrArg List.length ((emitter_path _ hp i).trans (sentTo_forkEmitter i (R ())))
  have hj := congrArg List.length ((emitter_path _ hp j).trans (sentTo_forkEmitter j (R ())))
  rw [List.length_append] at hi hj
  rcases emitter_pending _ hp with hnil | ⟨_, x, hsuffix⟩
  · rw [hnil] at hi hj
    simp [sentTo] at hi hj
    omega
  · obtain ⟨hle, hone⟩ := sentTo_suffix hsuffix hij
    omega

/-! ## At a standstill -/

section Still

variable {P S : Type} {C : S → Type} {word : S → Type}
variable [DecidableEq S] [∀ s, DecidableEq (C s)]

/-- A join with room behind it waits for a word of a lane. -/
theorem join_still [NeZero n] {depth : Chan C → ℕ} {x y : S} {lanes : Fin n → C x} {out : C y}
    {f : (Fin n → word x) → word y} {v : Fin n → word x} {r : JoinRegs n (word x)}
    {g : Network.Fifos C word}
    (h : Network.CallStill depth
      ⟨Fin n, Unit, fun i => ⟨x, lanes i⟩, fun _ => ⟨y, out⟩, joinKernel f v⟩ r g)
    (hroom : (g ⟨y, out⟩).queue.length < depth ⟨y, out⟩) :
    ∃ i w, r = .read i w ∧ (g ⟨x, lanes i⟩).queue = [] := by
  cases r with
  | read i w => exact ⟨i, w, rfl, Network.CallStill.of_read (i := i) h rfl⟩
  | write w => exact absurd hroom (not_lt.mpr (Network.CallStill.of_write (o := ()) h rfl))

/-- A join whose next lane is empty stands still. -/
theorem join_idle [NeZero n] {depth : Chan C → ℕ} {x y : S} {lanes : Fin n → C x} {out : C y}
    {f : (Fin n → word x) → word y} {v : Fin n → word x} {r : JoinRegs n (word x)}
    {g : Network.Fifos C word} {i : Fin n} (hr : r.lane = i)
    (hqueue : (g ⟨x, lanes i⟩).queue = []) :
    Network.CallStill depth
      ⟨Fin n, Unit, fun i => ⟨x, lanes i⟩, fun _ => ⟨y, out⟩, joinKernel f v⟩ r g := by
  refine Network.CallStill.of_idles (fun r : JoinRegs n (word x) => r.lane = i) hr fun r hr => ?_
  cases r with
  | read j w =>
      obtain rfl : j = i := Fin.ext hr
      exact ⟨_, rfl, hqueue⟩
  | write w => exact absurd hr i.isLt.ne'

end Still

end RidgeWalker.Dataflow
