import RidgeWalker.Bits.Affine
import RidgeWalker.Dataflow.Draining
import RidgeWalker.Dataflow.Streams

/-!
# Parallel random states

`irsgu` runs nine copies of one linear congruential generator, each nine steps at a time, and
merges their states in turn.

Main results:

- Theorem `ssrngUpdate_eq`: the nine generators leapfrog the base sequence.
- Theorem `mergeRounds_sound`: what `ssrng_merge` sends.
- Theorem `irsgu_leapfrog`: the merged stream is the base sequence.
-/

namespace RidgeWalker.Rng

open Dataflow Bits

/-! ## The generators -/

/-- `BREAK_NUM`. -/
abbrev breakNum : ℕ := 9

/-- `RNG_A`. -/
def rngA : BitVec 64 := 0x5851f42d4c957f2d

/-- `RNG_INC`. -/
def rngInc : BitVec 64 := 0x000000000000006d

/-- `RNG_A_SEEKED`. -/
def rngASeeked : BitVec 64 := 0x5b5fee90a1001dcd

/-- `RNG_INC_SEEKED`. -/
def rngIncSeeked : BitVec 64 := 0x219b40fff5054705

/-- `init_state_array`. -/
def initStateArray : Fin breakNum → BitVec 64 := ![
  0x185706b82c2e03f8,
  0x2b47fed88766bb05,
  0x8b33296d19bf5b4e,
  0xf7079824c154bf23,
  0xebbf9e97aa16f694,
  0x8303569fbe80c471,
  0xbeb6d0b73fdb974a,
  0xed81149f2fb94e6f,
  0x0730f84eec16daf0]

/-- The base sequence. -/
def baseSequence : ℕ → BitVec 64
  | 0 => initStateArray 0
  | n + 1 => rngA * baseSequence n + rngInc

/-- The update of `state` in `ssrng_update`. -/
def seekedStep (oldstate : BitVec 64) : BitVec 64 := oldstate * rngASeeked + rngIncSeeked

/-- `ssrng_update`. -/
def ssrngUpdate (id : Fin breakNum) :
    Kernel (fun _ : Empty => BitVec 64) (fun _ : Unit => BitVec 64) where
  σ := BitVec 64
  Ω := Empty
  start := initStateArray id
  op oldstate := .write () oldstate (seekedStep oldstate)

theorem baseSequence_eq (n : ℕ) : baseSequence n = (affine rngA rngInc)^[n] (initStateArray 0) := by
  induction n with
  | zero => rfl
  | succ n ih => rw [Function.iterate_succ_apply', ← ih, baseSequence, affine, mul_comm]

/-- The seeked constants are nine steps of the base generator. -/
theorem seekedStep_eq (oldstate : BitVec 64) :
    seekedStep oldstate = (affine rngA rngInc)^[breakNum] oldstate := by
  have hskip : skip rngA rngInc breakNum = (rngASeeked, rngIncSeeked) := by decide
  rw [iterate_affine, hskip]
  rfl

/-- The generators start at the first nine terms. -/
theorem initStateArray_eq (id : Fin breakNum) : initStateArray id = baseSequence id := by
  revert id
  decide

/-- The generators leapfrog the base sequence. -/
theorem ssrngUpdate_eq (id : Fin breakNum) (k : ℕ) :
    seekedStep^[k] (initStateArray id) = baseSequence (breakNum * k + id) := by
  have hleapfrog := leapfrog (f := affine rngA rngInc) (g := seekedStep)
    (y := baseSequence) (m := breakNum) (x := initStateArray 0) (by decide) seekedStep_eq
    (fun i _ => baseSequence_eq i) (breakNum * k + id)
  rw [Nat.mul_add_div (by decide), Nat.div_eq_of_lt id.isLt, Nat.mul_add_mod,
    Nat.mod_eq_of_lt id.isLt, Nat.add_zero, ← baseSequence_eq] at hleapfrog
  rw [initStateArray_eq, hleapfrog]

/-- What a generator sends is its orbit. -/
theorem ssrngUpdate_sends {id : Fin breakNum} {r : BitVec 64} {R S}
    (hp : (ssrngUpdate id).Path (ssrngUpdate id).start r R S) :
    ∃ k, r = seekedStep^[k] (initStateArray id) ∧
      S () = (List.range k).map fun n => baseSequence (breakNum * n + id) := by
  refine hp.induct (I := fun r _ S => ∃ k, r = seekedStep^[k] (initStateArray id) ∧
    S () = (List.range k).map fun n => baseSequence (breakNum * n + id)) ⟨0, rfl, rfl⟩ ?_
  rintro r R S ⟨k, rfl, hS⟩
  refine ⟨k + 1, (Function.iterate_succ_apply' _ _ _).symm, ?_⟩
  rw [Function.update_self, hS, List.range_succ, List.map_append, ssrngUpdate_eq]
  rfl

/-! ## The merge -/

/-- Registers of `ssrng_merge`: the loop it is in, the array `v`. -/
inductive MergeRegs where
  | read (i : Fin breakNum) (v : Fin breakNum → BitVec 64)
  | write (i : Fin breakNum) (v : Fin breakNum → BitVec 64)

/-- `ssrng_merge`. -/
def ssrngMerge : Kernel (fun _ : Fin breakNum => BitVec 64) (fun _ : Unit => BitVec 64) where
  σ := MergeRegs
  Ω := Empty
  start := .read 0 fun _ => 0
  op
    | .read i v => .read i fun a =>
        if h : i.val + 1 < breakNum then .read ⟨i + 1, h⟩ (Function.update v i a)
        else .write 0 (Function.update v i a)
    | .write i v => .write () (v i)
        (if h : i.val + 1 < breakNum then .write ⟨i + 1, h⟩ v else .read 0 v)

/-- A round of `ssrng_merge` takes a state from every generator and gives them in turn. -/
def mergeRounds : Rounds ssrngMerge (Fin breakNum → BitVec 64) where
  ins rounds i := rounds.map fun v => v i
  outs rounds _ := rounds.flatMap List.ofFn
  got
    | .read i v => fun j => if j.val < i.val then [v j] else []
    | .write _ _ => fun _ => []
  owes
    | .read _ _ => fun _ => []
    | .write i v => fun _ => (List.ofFn v).drop i
  agrees _ _ := True

theorem mergeRounds_sound : mergeRounds.Sound := by
  refine ⟨⟨trivial, fun i => ?_, fun _ => rfl⟩, fun rounds r R S h => ?_⟩
  · simp [mergeRounds, ssrngMerge]
  cases r with
  | read i v =>
      intro a
      by_cases hi : i.val + 1 < breakNum
      · refine ⟨rounds, ?_⟩
        simp only [hi, dite_true]
        refine h.take trivial (funext fun j => ?_) rfl
        by_cases hj : j = i
        · subst hj
          simp [mergeRounds, -Fin.val_fin_lt]
        · have hlt : j.val < i.val + 1 ↔ j.val < i.val := by omega
          simp [mergeRounds, hj, hlt, -Fin.val_fin_lt]
      · refine ⟨rounds ++ [Function.update v i a], ?_⟩
        simp only [hi, dite_false]
        refine h.round _ trivial (fun j => ?_) (fun _ => rfl) (fun _ => rfl) fun _ => ?_
        · by_cases hj : j = i
          · subst hj
            simp [mergeRounds]
          · have hlt : j.val < i.val := by omega
            simp [mergeRounds, hj, hlt, -Fin.val_fin_lt]
        · simp [mergeRounds]
  | write i v =>
      refine ⟨rounds, ?_⟩
      have hdrop : (List.ofFn v).drop i = v i :: (List.ofFn v).drop (i + 1) := by
        have hlength : i.val < (List.ofFn v).length := by
          rw [List.length_ofFn]
          exact i.isLt
        rw [List.drop_eq_getElem_cons hlength, List.getElem_ofFn]
      by_cases hi : i.val + 1 < breakNum
      · simp only [hi, dite_true]
        refine h.give trivial rfl (funext fun _ => ?_)
        rw [Function.update_self]
        exact hdrop
      · simp only [hi, dite_false]
        refine h.give trivial (funext fun _ => ?_) (funext fun _ => ?_)
        · simp [mergeRounds]
        · rw [Function.update_self]
          refine hdrop.trans ?_
          have hend : (List.ofFn v).length ≤ i.val + 1 := by
            rw [List.length_ofFn]
            exact not_lt.mp hi
          rw [List.drop_eq_nil_of_le hend]
          rfl

/-! ## The network -/

/-- The processes of `irsgu`. -/
inductive Proc where
  | update (id : Fin breakNum)
  | merge
deriving DecidableEq

/-- The streams of `irsgu`. -/
inductive Stream where
  | s (i : Fin breakNum)
  | out
deriving DecidableEq

/-- The call of each process. -/
def call : Proc → Call (fun _ : Unit => Stream) fun _ => BitVec 64
  | .update id => {
      In := Empty
      Out := Unit
      src := fun i => nomatch i
      dst := fun _ => ⟨(), .s id⟩
      kernel := ssrngUpdate id }
  | .merge => {
      In := Fin breakNum
      Out := Unit
      src := fun i => ⟨(), .s i⟩
      dst := fun _ => ⟨(), .out⟩
      kernel := ssrngMerge }

/-- `irsgu`, with streams of any depth. -/
def irsgu (depth : Stream → ℕ) : Network Proc (fun _ : Unit => Stream) fun _ => BitVec 64 where
  node := call
  depth c := depth c.2

/-- The stream of a name. -/
abbrev chan (c : Stream) : Chan fun _ : Unit => Stream := ⟨(), c⟩

variable {depth : Stream → ℕ}

theorem pointToPoint : (irsgu depth).PointToPoint := by
  constructor
  · rintro ⟨p, i⟩ ⟨q, j⟩ h
    cases p <;> cases q <;> first | exact i.elim | exact j.elim | (cases h; rfl)
  · rintro ⟨p, i⟩ ⟨q, j⟩ h
    cases p <;> cases q <;> cases h <;> rfl

/-- Rounds of states that leapfrog the base sequence give an initial part of it. -/
theorem flatMap_rounds (rounds : List (Fin breakNum → BitVec 64))
    (h : ∀ i : Fin breakNum, (rounds.map fun v => v i) =
      (List.range rounds.length).map fun n => baseSequence (breakNum * n + i)) :
    rounds.flatMap List.ofFn =
      (List.range (breakNum * rounds.length)).map baseSequence := by
  induction rounds using List.reverseRecOn with
  | nil => rfl
  | append_singleton rounds v ih =>
      have hsplit : ∀ i : Fin breakNum, (rounds.map fun v => v i) =
          (List.range rounds.length).map (fun n => baseSequence (breakNum * n + i)) ∧
            v i = baseSequence (breakNum * rounds.length + i) := by
        intro i
        have hi := h i
        rw [List.length_append, List.length_singleton, List.range_succ, List.map_append,
          List.map_append] at hi
        obtain ⟨hinit, hlast⟩ := List.append_inj' hi rfl
        exact ⟨hinit, by simpa using hlast⟩
      have hv : List.ofFn v = (List.range breakNum).map
          fun i => baseSequence (breakNum * rounds.length + i) := by
        rw [funext fun i => (hsplit i).2]
        rfl
      rw [List.flatMap_append, ih fun i => (hsplit i).1, List.length_append, List.length_singleton,
        Nat.mul_succ, List.range_add, List.map_append, List.flatMap_singleton, hv, List.map_map]
      rfl

/-- Whatever is merged is an initial part of the base sequence. -/
theorem written_out {s : (irsgu depth).State} (hs : (irsgu depth).Reachable s) :
    s.written (chan .out) = (List.range (s.written (chan .out)).length).map baseSequence := by
  obtain ⟨rounds, hfires⟩ := hs.fires pointToPoint .merge mergeRounds_sound
  have hround : ∀ i : Fin breakNum, (rounds.map fun v => v i) =
      (List.range rounds.length).map fun n => baseSequence (breakNum * n + i) := by
    intro i
    obtain ⟨k, -, hsent⟩ := ssrngUpdate_sends (hs.path pointToPoint (.update i))
    have hpre : (rounds.map fun v => v i) <+:
        (List.range k).map fun n => baseSequence (breakNum * n + i) := by
      rw [← hsent]
      exact (hfires.received i).trans (s.taken_isPrefix (chan (.s i)))
    have hle := hpre.length_le
    rw [List.length_map, List.length_map, List.length_range] at hle
    rw [List.prefix_iff_eq_take.mp hpre, List.length_map, ← List.map_take, List.take_range,
      Nat.min_eq_left hle]
  have hout := hfires.sent ()
  have hwords : mergeRounds.outs rounds () = _ := flatMap_rounds rounds hround
  rw [hwords] at hout
  have hle := hout.length_le
  rw [List.length_map, List.length_range] at hle
  have htake := List.prefix_iff_eq_take.mp hout
  rw [← List.map_take, List.take_range, Nat.min_eq_left hle] at htake
  exact htake

/-! ## Progress -/

section Progress

variable (hdepth : ∀ c, 1 ≤ depth c)

include hdepth

/-- The merge can always read the next state: its generator writes one if there is none. -/
theorem merge_reads {s : (irsgu depth).State} {i : Fin breakNum} {v : Fin breakNum → BitVec 64}
    (hregs : s.regs Proc.merge = MergeRegs.read i v) :
    ∃ tr s' a, (irsgu depth).Run s tr s' ∧ s'.regs Proc.merge =
      (if h : i.val + 1 < breakNum then MergeRegs.read ⟨i + 1, h⟩ (Function.update v i a)
        else MergeRegs.write 0 (Function.update v i a)) := by
  have hqueued : ∃ tr s' a q, (irsgu depth).Run s tr s' ∧
      s'.regs Proc.merge = MergeRegs.read i v ∧ (s'.fifo (chan (.s i))).queue = a :: q := by
    rcases hqueue : (s.fifo (chan (.s i))).queue with _ | ⟨a, q⟩
    · have hroom : (s.fifo (chan (.s i))).queue.length < depth (.s i) := by
        rw [hqueue]
        exact hdepth _
      obtain ⟨l, s', hstep, hmoved⟩ := Network.Step.exists_write (N := irsgu depth)
        (p := .update i) (o := ()) (s := s) rfl hroom
      refine ⟨_, s', s.regs (.update i), [], Network.Run.nil.snoc hstep, ?_, ?_⟩
      · exact (hmoved.others .merge Proc.noConfusion).trans hregs
      · exact (congrArg Fifo.queue hmoved.fifo).trans (congrArg (· ++ [_]) hqueue)
    · exact ⟨[], s, a, q, .nil, hregs, hqueue⟩
  obtain ⟨tr, s', a, q, hrun, hregs', hqueue⟩ := hqueued
  have hop : ((irsgu depth).node .merge).kernel.op (s'.regs Proc.merge) = .read i fun a =>
      if h : i.val + 1 < breakNum then MergeRegs.read ⟨i + 1, h⟩ (Function.update v i a)
      else MergeRegs.write 0 (Function.update v i a) := by
    rw [hregs']
    rfl
  obtain ⟨l, t, hstep, hmoved⟩ := Network.Step.exists_read hop hqueue
  exact ⟨_, t, a, hrun.snoc hstep, hmoved.regs⟩

/-- The merge can always get to its writes. -/
theorem merge_fills (n : ℕ) {s : (irsgu depth).State} {i : Fin breakNum}
    {v : Fin breakNum → BitVec 64} (hn : breakNum - i.val = n)
    (hregs : s.regs Proc.merge = MergeRegs.read i v) :
    ∃ tr s' j w, (irsgu depth).Run s tr s' ∧ s'.regs Proc.merge = MergeRegs.write j w := by
  induction n generalizing s i v with
  | zero => exact absurd i.isLt (by omega)
  | succ n ih =>
      obtain ⟨tr, s', a, hrun, hregs'⟩ := merge_reads hdepth hregs
      by_cases hi : i.val + 1 < breakNum
      · rw [dif_pos hi] at hregs'
        obtain ⟨tr', t, j, w, hrun', ht⟩ := ih (by simp only; omega) hregs'
        exact ⟨_, t, j, w, hrun.trans hrun', ht⟩
      · rw [dif_neg hi] at hregs'
        exact ⟨tr, s', _, _, hrun, hregs'⟩

/-- A state can leave whenever the merge is at its writes. -/
theorem merge_writes {s : (irsgu depth).State} {i : Fin breakNum} {v : Fin breakNum → BitVec 64}
    (hregs : s.regs Proc.merge = MergeRegs.write i v) :
    ∃ tr s', (irsgu depth).Run s tr s' ∧
      (s.written (chan .out)).length < (s'.written (chan .out)).length := by
  have hread : ∀ p i, ((irsgu depth).node p).src i ≠ chan .out := by
    rintro (id | _) i h
    · exact i.elim
    · cases h
  obtain ⟨tr, s', hrun, hkept, hroom⟩ := Network.exists_room hread (hdepth .out) s
  have hop : ((irsgu depth).node .merge).kernel.op (s'.regs Proc.merge) = .write () (v i)
      (if h : i.val + 1 < breakNum then MergeRegs.write ⟨i + 1, h⟩ v else MergeRegs.read 0 v) := by
    rw [hkept, hregs]
    rfl
  obtain ⟨l, t, hstep, hmoved⟩ := Network.Step.exists_write hop hroom
  refine ⟨_, t, hrun.snoc hstep, ?_⟩
  have hbefore := (hrun.written_mono (chan .out)).length_le
  have hafter : t.written (chan .out) = s'.written (chan .out) ++ [v i] :=
    (congrArg Fifo.written hmoved.fifo).trans (Fifo.push_written _ _)
  rw [hafter, List.length_append, List.length_singleton]
  exact Nat.lt_succ_of_le hbefore

/-- From every state the network can send any number of states. -/
theorem exists_written (s : (irsgu depth).State) (n : ℕ) :
    ∃ tr s', (irsgu depth).Run s tr s' ∧ n ≤ (s'.written (chan .out)).length := by
  induction n with
  | zero => exact ⟨[], s, .nil, Nat.zero_le _⟩
  | succ n ih =>
      obtain ⟨tr, t, hrun, hn⟩ := ih
      have hwriting : ∃ tr t' j w, (irsgu depth).Run t tr t' ∧
          t'.regs Proc.merge = MergeRegs.write j w := by
        rcases hregs : t.regs Proc.merge with ⟨i, v⟩ | ⟨i, v⟩
        · exact merge_fills hdepth _ rfl hregs
        · exact ⟨[], t, i, v, .nil, hregs⟩
      obtain ⟨tr', t', j, w, hrun', hregs⟩ := hwriting
      obtain ⟨tr'', t'', hrun'', hlt⟩ := merge_writes hdepth hregs
      have hmono := (hrun'.written_mono (chan .out)).length_le
      exact ⟨_, t'', (hrun.trans hrun').trans hrun'', by omega⟩

end Progress

/-- For all depths of the streams, every interleaving and every `n`: word `n` of the stream that
leaves `irsgu` is term `n` of the base sequence, and from every reachable state the network can
get to send it. -/
theorem irsgu_leapfrog (depth : Stream → ℕ) (hdepth : ∀ c, 1 ≤ depth c)
    {s : (irsgu depth).State} (hs : (irsgu depth).Reachable s) (n : ℕ) :
    (∀ x, (s.written (chan .out))[n]? = some x → x = baseSequence n) ∧
      ∃ tr s', (irsgu depth).Run s tr s' ∧
        (s'.written (chan .out))[n]? = some (baseSequence n) := by
  have hword : ∀ {s : (irsgu depth).State}, (irsgu depth).Reachable s →
      ∀ x, (s.written (chan .out))[n]? = some x → x = baseSequence n := by
    intro s hs x hx
    obtain ⟨hn, -⟩ := List.getElem?_eq_some_iff.mp hx
    rw [written_out hs, List.getElem?_map, List.getElem?_range hn] at hx
    exact (Option.some.inj hx).symm
  obtain ⟨tr, s', hrun, hn⟩ := exists_written hdepth s (n + 1)
  refine ⟨hword hs, tr, s', hrun, ?_⟩
  rw [List.getElem?_eq_getElem hn]
  exact congrArg some (hword (hs.run hrun) _ (List.getElem?_eq_getElem hn))

/-- With the depth that `irsgu` asks for, the first state can leave. -/
theorem irsgu_leapfrog_first :
    ∃ tr s', (irsgu fun _ => 2).Run (irsgu fun _ => 2).init tr s' ∧
      (s'.written (chan .out))[0]? = some 0x185706b82c2e03f8#64 :=
  (irsgu_leapfrog (fun _ => 2) (fun _ => by decide) ⟨[], .nil⟩ 0).2

end RidgeWalker.Rng
