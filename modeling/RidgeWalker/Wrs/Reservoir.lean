import Mathlib

/-!
# Weighted reservoir sampling

A list of weighted lanes is sampled in one pass: a lane replaces the current choice when its
random word, scaled by the prefix sum up to it, stays below its weight.  So the choice is the
last lane for which that is the case.

Main results:

- Theorem `drawn_snoc`: one more lane either is drawn or leaves the choice alone.
- Theorem `reservoir_eq`: the one-pass choice is the lane that is drawn.
- Theorems `drawn_weight_pos` and `drawn_isSome`: a lane without weight is never drawn, and
  some lane is drawn when one has weight.
-/

namespace RidgeWalker.Wrs

/-- A lane: its address, its weight and the random word it meets. -/
structure Lane where
  addr : BitVec 32
  weight : ℕ
  random : BitVec 32

/-- The weight of a list of lanes. -/
def total (lanes : List Lane) : ℕ := (lanes.map Lane.weight).sum

/-- The inclusive prefix sum up to lane `i`. -/
def prefixSum (lanes : List Lane) (i : ℕ) : ℕ := total (lanes.take (i + 1))

/-- Lane `i` takes the place of the choices before it. -/
def Selects (lanes : List Lane) (i : ℕ) : Prop :=
  ∃ lane ∈ lanes[i]?, lane.random.toNat * prefixSum lanes i / 2 ^ 32 < lane.weight

instance (lanes : List Lane) (i : ℕ) : Decidable (Selects lanes i) := by
  unfold Selects
  infer_instance

/-- The last lane that takes the place of the choices before it. -/
def drawn (lanes : List Lane) : Option ℕ :=
  ((List.range lanes.length).filter fun i => Selects lanes i).getLast?

/-! ## Lane by lane -/

@[simp] theorem total_append (lanes lanes' : List Lane) :
    total (lanes ++ lanes') = total lanes + total lanes' := by
  simp [total]

@[simp] theorem total_singleton (x : Lane) : total [x] = x.weight := by
  simp [total]

/-- Whether a lane is selected does not depend on the lanes after it. -/
theorem selects_append {lanes : List Lane} {i : ℕ} (hi : i < lanes.length)
    (lanes' : List Lane) : Selects (lanes ++ lanes') i ↔ Selects lanes i := by
  have htake : (lanes ++ lanes').take (i + 1) = lanes.take (i + 1) :=
    List.take_append_of_le_length hi
  rw [Selects, Selects, prefixSum, prefixSum, htake, List.getElem?_append_left hi]

/-- The condition under which the lane after `lanes` is selected. -/
theorem selects_snoc (lanes : List Lane) (x : Lane) :
    Selects (lanes ++ [x]) lanes.length ↔
      x.random.toNat * (total lanes + x.weight) / 2 ^ 32 < x.weight := by
  have htake : (lanes ++ [x]).take (lanes.length + 1) = lanes ++ [x] := by
    apply List.take_of_length_le
    simp
  rw [Selects, prefixSum, htake, total_append, total_singleton, List.getElem?_append_right le_rfl]
  simp

/-- One more lane either is drawn or leaves the choice alone. -/
theorem drawn_snoc (lanes : List Lane) (x : Lane) :
    drawn (lanes ++ [x]) =
      if x.random.toNat * (total lanes + x.weight) / 2 ^ 32 < x.weight then some lanes.length
      else drawn lanes := by
  have hsame : (List.range lanes.length).filter (fun i => Selects (lanes ++ [x]) i) =
      (List.range lanes.length).filter fun i => Selects lanes i := by
    apply List.filter_congr
    intro i hi
    rw [decide_eq_decide]
    exact selects_append (List.mem_range.mp hi) [x]
  rw [drawn, List.length_append, List.length_singleton, List.range_succ, List.filter_append, hsame]
  by_cases hx : x.random.toNat * (total lanes + x.weight) / 2 ^ 32 < x.weight
  · rw [if_pos hx]
    have hsel : Selects (lanes ++ [x]) lanes.length := (selects_snoc lanes x).mpr hx
    simp [hsel]
  · rw [if_neg hx]
    have hsel : ¬Selects (lanes ++ [x]) lanes.length := fun h => hx ((selects_snoc lanes x).mp h)
    simp [hsel, drawn]

/-! ## One pass -/

/-- The address when no lane is drawn. -/
def noVertex : BitVec 32 := 0x80000000#32

/-- The address of the lane that is drawn. -/
def drawnAddr (lanes : List Lane) : BitVec 32 :=
  match (drawn lanes).bind (lanes[·]?) with
  | some lane => lane.addr
  | none => noVertex

/-- The weight seen so far and the address of the current choice, after one more lane. -/
def reservoirStep (s : ℕ × BitVec 32) (x : Lane) : ℕ × BitVec 32 :=
  (s.1 + x.weight,
    if x.random.toNat * (s.1 + x.weight) / 2 ^ 32 < x.weight then x.addr else s.2)

theorem drawn_lt {lanes : List Lane} {i : ℕ} (h : drawn lanes = some i) : i < lanes.length := by
  have hmem := List.mem_of_getLast? h
  exact List.mem_range.mp (List.mem_of_mem_filter hmem)

theorem drawnAddr_snoc (lanes : List Lane) (x : Lane) :
    drawnAddr (lanes ++ [x]) =
      if x.random.toNat * (total lanes + x.weight) / 2 ^ 32 < x.weight then x.addr
      else drawnAddr lanes := by
  rw [drawnAddr, drawn_snoc]
  by_cases hx : x.random.toNat * (total lanes + x.weight) / 2 ^ 32 < x.weight
  · rw [if_pos hx, if_pos hx]
    simp
  · rw [if_neg hx, if_neg hx]
    cases hd : drawn lanes with
    | none => simp [drawnAddr, hd]
    | some i => simp [drawnAddr, hd, List.getElem?_append_left (drawn_lt hd)]

/-- The one-pass choice is the lane that is drawn. -/
theorem reservoir_eq (lanes : List Lane) :
    lanes.foldl reservoirStep (0, noVertex) = (total lanes, drawnAddr lanes) := by
  induction lanes using List.reverseRecOn with
  | nil => rfl
  | append_singleton lanes x ih =>
      rw [List.foldl_append, ih, List.foldl_cons, List.foldl_nil, drawnAddr_snoc, total_append,
        total_singleton]
      rfl

/-! ## What is drawn -/

theorem selects_of_drawn {lanes : List Lane} {i : ℕ} (h : drawn lanes = some i) :
    Selects lanes i := by
  have hmem := List.mem_filter.mp (List.mem_of_getLast? h)
  simpa using hmem.2

/-- A lane without weight is never drawn. -/
theorem drawn_weight_pos {lanes : List Lane} {i : ℕ} {x : Lane} (h : drawn lanes = some i)
    (hx : lanes[i]? = some x) : 0 < x.weight := by
  obtain ⟨lane, hlane, hlt⟩ := selects_of_drawn h
  rw [hx, Option.mem_some_iff] at hlane
  subst hlane
  exact Nat.zero_lt_of_lt hlt

/-- The first lane with weight is selected, so that some lane is drawn. -/
theorem drawn_isSome {lanes : List Lane} (h : ∃ x ∈ lanes, 0 < x.weight) :
    (drawn lanes).isSome := by
  induction lanes using List.reverseRecOn with
  | nil => simp at h
  | append_singleton lanes x ih =>
      rw [drawn_snoc]
      split
      · rfl
      · rename_i hnot
        apply ih
        -- Otherwise `x` is the first lane with weight, and its random word stays below one.
        by_contra hall
        have hzero : total lanes = 0 := by
          rw [total, List.sum_eq_zero_iff]
          intro w hw
          obtain ⟨y, hy, rfl⟩ := List.mem_map.mp hw
          by_contra hpos
          exact hall ⟨y, hy, Nat.pos_of_ne_zero hpos⟩
        obtain ⟨y, hy, hpos⟩ := h
        rcases List.mem_append.mp hy with hy | hy
        · exact hall ⟨y, hy, hpos⟩
        · obtain rfl := List.mem_singleton.mp hy
          apply hnot
          rw [hzero, zero_add]
          apply Nat.div_lt_of_lt_mul
          exact Nat.mul_lt_mul_of_pos_right y.random.isLt hpos

end RidgeWalker.Wrs
