import Mathlib

/-!
# Rows of an array

Sequences of different lengths, one after another in one array: reading a slice, overwriting a
slice, and passes that rewrite the rows one by one.

Main results:

- Theorem `slice_overwrite`: what was written is read back.
- Theorem `slice_overwrite_of_disjoint`: the rest of the array stays.
- Theorem `slice_rewriteRows`: a pass over the rows, in any order, rewrites every row once.
- Theorem `slice_overwrite_flatMap`: rows written one after another are found at their starts.
-/

namespace RidgeWalker.Slices

variable {A B : Type}

/-! ## Slices -/

/-- The `len` cells of `f` from `base` on. -/
def slice (f : ℕ → A) (base len : ℕ) : List A :=
  (List.range len).map fun i => f (base + i)

@[simp]
theorem length_slice (f : ℕ → A) (base len : ℕ) : (slice f base len).length = len := by
  simp [slice]

@[simp]
theorem getElem_slice (f : ℕ → A) (base len i : ℕ) (h : i < (slice f base len).length) :
    (slice f base len)[i] = f (base + i) := by
  simp [slice]

@[simp]
theorem slice_zero (f : ℕ → A) (base : ℕ) : slice f base 0 = [] := rfl

theorem slice_succ (f : ℕ → A) (base len : ℕ) :
    slice f base (len + 1) = slice f base len ++ [f (base + len)] := by
  simp [slice, List.range_succ]

theorem mem_slice {f : ℕ → A} {base len : ℕ} {a : A} :
    a ∈ slice f base len ↔ ∃ i < len, f (base + i) = a := by
  simp [slice]

/-- A slice reads its own cells only. -/
theorem slice_congr {f g : ℕ → A} {base len : ℕ}
    (h : ∀ i, base ≤ i → i < base + len → f i = g i) : slice f base len = slice g base len := by
  apply List.map_congr_left
  intro i hi
  have hi : i < len := List.mem_range.mp hi
  exact h (base + i) (by omega) (by omega)

/-- Equal slices have equal cells. -/
theorem cell_eq_of_slice_eq {f g : ℕ → A} {base base' len : ℕ}
    (h : slice f base len = slice g base' len) {i : ℕ} (hi : i < len) :
    f (base + i) = g (base' + i) := by
  have hcell : (slice f base len)[i]? = (slice g base' len)[i]? := by rw [h]
  simpa [slice, hi] using hcell

/-- A cell of a slice that is known as a list read through a function. -/
theorem cell_of_slice_eq_map {f : ℕ → A} {base len : ℕ} {l : List B} {value : B → A}
    (h : slice f base len = l.map value) {i : ℕ} (hi : i < len) (hl : i < l.length) :
    f (base + i) = value l[i] := by
  have hcell : (slice f base len)[i]? = (l.map value)[i]? := by rw [h]
  simpa [slice, hi, hl] using hcell

theorem map_slice (h : A → B) (f : ℕ → A) (base len : ℕ) :
    (slice f base len).map h = slice (fun i => h (f i)) base len := by
  simp [slice, Function.comp_def]

/-- A sequence is the slice of any function that lists it. -/
theorem eq_slice {f : ℕ → A} {base : ℕ} {l : List A}
    (h : ∀ i (hi : i < l.length), f (base + i) = l[i]) : slice f base l.length = l := by
  apply List.ext_getElem
  · exact length_slice ..
  · intro i _ hi
    rw [getElem_slice]
    exact h i hi

/-! ## Overwriting -/

/-- `f` with the sequence `l` written from `base` on. -/
def overwrite (f : ℕ → A) (base : ℕ) (l : List A) : ℕ → A := fun i =>
  if base ≤ i then l.getD (i - base) (f i) else f i

@[simp]
theorem overwrite_nil (f : ℕ → A) (base : ℕ) : overwrite f base [] = f := by
  funext i
  simp [overwrite]

theorem overwrite_add (f : ℕ → A) (base : ℕ) (l : List A) (i : ℕ) (hi : i < l.length) :
    overwrite f base l (base + i) = l[i] := by
  simp [overwrite, hi]

theorem overwrite_of_outside (f : ℕ → A) (base : ℕ) (l : List A) (i : ℕ)
    (hi : i < base ∨ base + l.length ≤ i) : overwrite f base l i = f i := by
  unfold overwrite
  split
  · have hlen : l.length ≤ i - base := by omega
    simp [List.getD, hlen]
  · rfl

/-- A single cell. -/
theorem overwrite_singleton [DecidableEq ℕ] (f : ℕ → A) (base : ℕ) (a : A) :
    overwrite f base [a] = Function.update f base a := by
  funext i
  by_cases h : i = base
  · subst h
    simp [overwrite]
  · rw [Function.update_of_ne h, overwrite_of_outside]
    simp only [List.length_singleton]
    omega

/-- Writing one sequence behind another. -/
theorem overwrite_append (f : ℕ → A) (base : ℕ) (l m : List A) :
    overwrite (overwrite f base l) (base + l.length) m = overwrite f base (l ++ m) := by
  funext i
  by_cases hl : i < base + l.length
  · rw [overwrite_of_outside _ _ m i (Or.inl hl)]
    by_cases hb : i < base
    · rw [overwrite_of_outside _ _ _ _ (Or.inl hb), overwrite_of_outside _ _ _ _ (Or.inl hb)]
    · obtain ⟨j, rfl⟩ := Nat.exists_eq_add_of_le (not_lt.mp hb)
      have hj : j < l.length := by omega
      rw [overwrite_add _ _ _ _ hj, overwrite_add _ _ _ _ (by simp; omega),
        List.getElem_append_left hj]
  · obtain ⟨j, rfl⟩ := Nat.exists_eq_add_of_le (not_lt.mp hl)
    by_cases hj : j < m.length
    · have hlm : l.length + j < (l ++ m).length := by
        simp
        omega
      have hright := overwrite_add f base (l ++ m) (l.length + j) hlm
      rw [overwrite_add _ _ _ _ hj, Nat.add_assoc, hright]
      simp
    · rw [overwrite_of_outside _ _ _ _ (Or.inr (by omega)),
        overwrite_of_outside _ _ _ _ (Or.inr (by omega)),
        overwrite_of_outside _ _ _ _ (Or.inr (by simp; omega))]

/-- What was written is read back. -/
@[simp]
theorem slice_overwrite (f : ℕ → A) (base : ℕ) (l : List A) :
    slice (overwrite f base l) base l.length = l :=
  eq_slice fun i hi => overwrite_add f base l i hi

/-- The same with the length of the sequence under another name. -/
theorem slice_overwrite_of_length {f : ℕ → A} {base len : ℕ} {l : List A} (h : l.length = len) :
    slice (overwrite f base l) base len = l := by
  subst h
  exact slice_overwrite f base l

/-- The rest of the array stays. -/
theorem slice_overwrite_of_disjoint {f : ℕ → A} {base : ℕ} {l : List A} {start len : ℕ}
    (h : start + len ≤ base ∨ base + l.length ≤ start) :
    slice (overwrite f base l) start len = slice f start len := by
  apply slice_congr
  intro i hlo hhi
  apply overwrite_of_outside
  omega

/-! ## Rows -/

/-- Where row `v` starts, when row `u` has `d u` cells. -/
def starts (d : ℕ → ℕ) (v : ℕ) : ℕ := ∑ u ∈ Finset.range v, d u

@[simp]
theorem starts_zero (d : ℕ → ℕ) : starts d 0 = 0 := Finset.sum_range_zero d

theorem starts_succ (d : ℕ → ℕ) (v : ℕ) : starts d (v + 1) = starts d v + d v :=
  Finset.sum_range_succ d v

theorem starts_mono {d : ℕ → ℕ} {u v : ℕ} (h : u ≤ v) : starts d u ≤ starts d v :=
  Finset.sum_le_sum_of_subset (Finset.range_mono h)

/-- A row ends before a later one starts. -/
theorem starts_add_le {d : ℕ → ℕ} {u v : ℕ} (h : u < v) : starts d u + d u ≤ starts d v := by
  rw [← starts_succ]
  exact starts_mono h

theorem starts_congr {d e : ℕ → ℕ} {v : ℕ} (h : ∀ u < v, d u = e u) : starts d v = starts e v :=
  Finset.sum_congr rfl fun u hu => h u (Finset.mem_range.mp hu)

/-- Two rows do not meet. -/
theorem rows_disjoint {d : ℕ → ℕ} {u v : ℕ} (h : u ≠ v) :
    starts d u + d u ≤ starts d v ∨ starts d v + d v ≤ starts d u := by
  rcases Nat.lt_or_gt_of_ne h with h | h
  · exact Or.inl (starts_add_le h)
  · exact Or.inr (starts_add_le h)

/-- The rows of a list of lists, found at their starts. -/
theorem length_flatMap_rows {d : ℕ → ℕ} {rows : ℕ → List A} (n : ℕ)
    (h : ∀ v < n, (rows v).length = d v) :
    ((List.range n).flatMap rows).length = starts d n := by
  induction n with
  | zero => rfl
  | succ n ih =>
      have hn : (rows n).length = d n := h n (Nat.lt_succ_self n)
      have hlow := ih fun v hv => h v (Nat.lt_succ_of_lt hv)
      rw [List.range_succ, List.flatMap_append, List.length_append, hlow, starts_succ]
      simp [hn]

/-- A cell of a row. -/
theorem getElem?_flatMap_rows {d : ℕ → ℕ} {rows : ℕ → List A} {n : ℕ}
    (h : ∀ v < n, (rows v).length = d v) {v k : ℕ} (hv : v < n) (hk : k < d v) :
    ((List.range n).flatMap rows)[starts d v + k]? = (rows v)[k]? := by
  induction n with
  | zero => omega
  | succ n ih =>
      have hlow : ∀ v < n, (rows v).length = d v := fun v hv => h v (Nat.lt_succ_of_lt hv)
      have hlen := length_flatMap_rows n hlow
      rw [List.range_succ, List.flatMap_append]
      rcases Nat.lt_succ_iff_lt_or_eq.mp hv with hv | rfl
      · have hend : starts d v + d v ≤ starts d n := starts_add_le hv
        rw [List.getElem?_append_left (by omega), ih hlow hv]
      · rw [List.getElem?_append_right (by omega), hlen, Nat.add_sub_cancel_left]
        simp

/-- Rows written one after another are found at their starts. -/
theorem slice_overwrite_flatMap {d : ℕ → ℕ} {rows : ℕ → List A} (f : ℕ → A) {n : ℕ}
    (h : ∀ v < n, (rows v).length = d v) {v : ℕ} (hv : v < n) :
    slice (overwrite f 0 ((List.range n).flatMap rows)) (starts d v) (d v) = rows v := by
  induction n with
  | zero => omega
  | succ n ih =>
      have hlow : ∀ v < n, (rows v).length = d v := fun v hv => h v (Nat.lt_succ_of_lt hv)
      have hlen := length_flatMap_rows n hlow
      rw [List.range_succ, List.flatMap_append, ← overwrite_append, hlen, Nat.zero_add]
      rcases Nat.lt_succ_iff_lt_or_eq.mp hv with hv | rfl
      · rw [slice_overwrite_of_disjoint (Or.inl (starts_add_le hv)), ih hlow hv]
      · apply (slice_overwrite_of_length _).trans
        · simp
        · simpa using h v (Nat.lt_succ_self v)

theorem slice_add (f : ℕ → A) (base m n : ℕ) :
    slice f base (m + n) = slice f base m ++ slice f (base + m) n := by
  unfold slice
  rw [List.range_add, List.map_append, List.map_map]
  simp [Function.comp_def, Nat.add_assoc]

/-- An array is known row by row when it is known as a whole. -/
theorem rows_eq_iff {d : ℕ → ℕ} {rows : ℕ → List A} {f : ℕ → A} {n : ℕ}
    (h : ∀ v < n, (rows v).length = d v) :
    (∀ v < n, slice f (starts d v) (d v) = rows v) ↔
      slice f 0 (starts d n) = (List.range n).flatMap rows := by
  induction n with
  | zero => simp
  | succ n ih =>
      have hlow : ∀ v < n, (rows v).length = d v := fun v hv => h v (Nat.lt_succ_of_lt hv)
      have hlen : (slice f 0 (starts d n)).length = ((List.range n).flatMap rows).length := by
        rw [length_slice, length_flatMap_rows n hlow]
      rw [starts_succ, slice_add, List.range_succ, List.flatMap_append, Nat.zero_add]
      constructor
      · intro hrows
        rw [(ih hlow).mp fun v hv => hrows v (Nat.lt_succ_of_lt hv),
          hrows n (Nat.lt_succ_self n)]
        simp
      · intro heq
        obtain ⟨hinit, hlast⟩ := List.append_inj heq hlen
        intro v hv
        rcases Nat.lt_succ_iff_lt_or_eq.mp hv with hv | rfl
        · exact (ih hlow).mpr hinit v hv
        · simpa using hlast

/-! ## Groups of rows -/

/-- The numbers below `n`, cut at `a` and `b`. -/
theorem range_split {a b n : ℕ} (hab : a ≤ b) (hbn : b ≤ n) :
    List.range n = List.range a ++ (List.range' a (b - a) ++ List.range' b (n - b)) := by
  obtain ⟨m, rfl⟩ := Nat.exists_eq_add_of_le hab
  obtain ⟨k, rfl⟩ := Nat.exists_eq_add_of_le hbn
  rw [Nat.add_sub_cancel_left, Nat.add_sub_cancel_left, List.range'_append_1, Nat.add_assoc,
    List.range_add, List.range'_eq_map_range]

/-- The rows from `a` to before `b` are a segment of the sequence of all rows. -/
theorem take_drop_flatMap_rows {d : ℕ → ℕ} {rows : ℕ → List A} {n : ℕ}
    (h : ∀ v < n, (rows v).length = d v) {a b : ℕ} (hab : a ≤ b) (hbn : b ≤ n) :
    (((List.range n).flatMap rows).drop (starts d a)).take (starts d b - starts d a) =
      (List.range' a (b - a)).flatMap rows := by
  have hfirst : ((List.range a).flatMap rows).length = starts d a :=
    length_flatMap_rows a fun v hv => h v (by omega)
  have hmiddle : ((List.range' a (b - a)).flatMap rows).length = starts d b - starts d a := by
    have hboth : ((List.range b).flatMap rows).length = starts d b :=
      length_flatMap_rows b fun v hv => h v (by omega)
    rw [range_split hab le_rfl, Nat.sub_self, List.range'_zero, List.append_nil,
      List.flatMap_append, List.length_append, hfirst] at hboth
    omega
  rw [range_split hab hbn, List.flatMap_append, List.flatMap_append, ← hmiddle, ← hfirst,
    List.drop_left, List.take_left]

/-- A test that tells the rows from `a` to before `b` from the others selects them. -/
theorem filter_flatMap_rows {rows : ℕ → List A} {n a b : ℕ} (hab : a ≤ b) (hbn : b ≤ n)
    {q : A → Bool} (hq : ∀ j < n, ∀ e ∈ rows j, q e = true ↔ a ≤ j ∧ j < b) :
    ((List.range n).flatMap rows).filter q = (List.range' a (b - a)).flatMap rows := by
  have hfirst : ((List.range a).flatMap rows).filter q = [] := by
    rw [List.filter_eq_nil_iff]
    intro e he
    obtain ⟨j, hj, he⟩ := List.mem_flatMap.mp he
    have hj := List.mem_range.mp hj
    rw [hq j (by omega) e he]
    omega
  have hlast : ((List.range' b (n - b)).flatMap rows).filter q = [] := by
    rw [List.filter_eq_nil_iff]
    intro e he
    obtain ⟨j, hj, he⟩ := List.mem_flatMap.mp he
    have hj := List.mem_range'_1.mp hj
    rw [hq j (by omega) e he]
    omega
  have hmiddle : ((List.range' a (b - a)).flatMap rows).filter q =
      (List.range' a (b - a)).flatMap rows := by
    rw [List.filter_eq_self]
    intro e he
    obtain ⟨j, hj, he⟩ := List.mem_flatMap.mp he
    have hj := List.mem_range'_1.mp hj
    rw [hq j (by omega) e he]
    omega
  rw [range_split hab hbn, List.flatMap_append, List.flatMap_append, List.filter_append,
    List.filter_append, hfirst, hmiddle, hlast, List.append_nil, List.nil_append]

/-! ## Filling an array -/

/-- A loop that writes the cells below `n` in turn. -/
theorem foldl_update_range (value : ℕ → A) (f : ℕ → A) (n v : ℕ) :
    (List.range n).foldl (fun f i => Function.update f i (value i)) f v =
      if v < n then value v else f v := by
  induction n with
  | zero => simp
  | succ n ih =>
      rw [List.range_succ, List.foldl_append, List.foldl_cons, List.foldl_nil]
      by_cases h : v = n
      · subst h
        simp
      · have hlt : v < n + 1 ↔ v < n := by omega
        rw [Function.update_of_ne h, ih]
        simp only [hlt]

/-- A loop that writes one cell for every index, the index itself in a cell that depends on it. -/
theorem foldl_update_inverse {π : ℕ → ℕ} {n : ℕ} (hinj : Set.InjOn π (Set.Iio n)) (f : ℕ → ℕ)
    {v : ℕ} (hv : v < n) :
    (List.range n).foldl (fun f i => Function.update f (π i) i) f (π v) = v := by
  induction n with
  | zero => omega
  | succ n ih =>
      rw [List.range_succ, List.foldl_append, List.foldl_cons, List.foldl_nil]
      rcases Nat.lt_succ_iff_lt_or_eq.mp hv with hv | rfl
      · have hne : π v ≠ π n := by
          intro heq
          have hvn : v = n := hinj (Set.mem_Iio.mpr (by omega)) (Set.mem_Iio.mpr (by omega)) heq
          omega
        rw [Function.update_of_ne hne]
        exact ih (hinj.mono fun i hi => Set.mem_Iio.mpr (Nat.lt_succ_of_lt hi)) hv
      · exact Function.update_self ..

/-- Gathering: slices of one array, copied one cell after another to the front of `f`.  The second
component is the position of the next cell. -/
def gatherRows (base len : ℕ → ℕ) (value : ℕ → A) (n : ℕ) (f : ℕ → A) : (ℕ → A) × ℕ :=
  (List.range n).foldl (fun s v =>
    (List.range' (base v) (len v)).foldl (fun s i =>
      (Function.update s.1 s.2 (value i), s.2 + 1)) s) (f, 0)

/-- The copied cells are a sequence behind what was there before. -/
theorem foldl_update_push (value : ℕ → A) (l : List ℕ) (f : ℕ → A) (pos : ℕ) :
    l.foldl (fun s i => (Function.update s.1 s.2 (value i), s.2 + 1)) (f, pos) =
      (overwrite f pos (l.map value), pos + l.length) := by
  induction l generalizing f pos with
  | nil => simp
  | cons i l ih =>
      have happend := overwrite_append f pos [value i] (l.map value)
      rw [overwrite_singleton, List.length_singleton] at happend
      have hpos : pos + 1 + l.length = pos + (i :: l).length := by
        rw [List.length_cons]
        omega
      rw [List.foldl_cons, ih, happend, hpos]
      rfl

theorem map_range'_eq_slice (value : ℕ → A) (base len : ℕ) :
    (List.range' base len).map value = slice value base len := by
  rw [List.range'_eq_map_range, List.map_map]
  rfl

/-- Gathering puts the slices one after another. -/
theorem gatherRows_eq (base len : ℕ → ℕ) (value : ℕ → A) (n : ℕ) (f : ℕ → A) :
    gatherRows base len value n f =
      (overwrite f 0 ((List.range n).flatMap fun v => slice value (base v) (len v)),
        starts len n) := by
  unfold gatherRows
  induction n with
  | zero => simp
  | succ n ih =>
      have hlen : ((List.range n).flatMap fun v => slice value (base v) (len v)).length =
          starts len n := length_flatMap_rows n fun v _ => length_slice ..
      rw [List.range_succ, List.foldl_append, ih, List.foldl_cons, List.foldl_nil,
        foldl_update_push, map_range'_eq_slice, List.flatMap_append, ← overwrite_append, hlen,
        starts_succ]
      simp

/-- A gathered row is the slice it was copied from. -/
theorem slice_gatherRows (base len : ℕ → ℕ) (value : ℕ → A) {n v : ℕ} (hv : v < n) (f : ℕ → A) :
    slice (gatherRows base len value n f).1 (starts len v) (len v) =
      slice value (base v) (len v) := by
  rw [gatherRows_eq]
  exact slice_overwrite_flatMap f (fun v _ => length_slice ..) hv

/-! ## Passes over the rows -/

/-- One pass over the rows in the order `order`: row `v` is replaced by `g v` of the array. -/
def rewriteRows (base : ℕ → ℕ) (g : ℕ → (ℕ → A) → List A) (order : List ℕ) (f : ℕ → A) :
    ℕ → A :=
  order.foldl (fun f v => overwrite f (base v) (g v f)) f

/-- `g` replaces row `v` by as many cells, and looks at nothing but the row. -/
structure Rowwise (d : ℕ → ℕ) (g : ℕ → (ℕ → A) → List A) (order : List ℕ) : Prop where
  length_eq : ∀ v ∈ order, ∀ f, (g v f).length = d v
  congr : ∀ v ∈ order, ∀ f f',
    slice f (starts d v) (d v) = slice f' (starts d v) (d v) → g v f = g v f'

section Passes

variable {d : ℕ → ℕ} {g : ℕ → (ℕ → A) → List A} {order : List ℕ}

theorem Rowwise.tail {u : ℕ} (h : Rowwise d g (u :: order)) : Rowwise d g order where
  length_eq v hv := h.length_eq v (List.mem_cons_of_mem u hv)
  congr v hv := h.congr v (List.mem_cons_of_mem u hv)

/-- One row is replaced, and the others stay. -/
theorem Rowwise.slice_step {u v : ℕ} (h : Rowwise d g (u :: order)) (huv : v ≠ u) (f : ℕ → A) :
    slice (overwrite f (starts d u) (g u f)) (starts d v) (d v) =
      slice f (starts d v) (d v) := by
  apply slice_overwrite_of_disjoint
  rw [h.length_eq u List.mem_cons_self]
  exact rows_disjoint huv

/-- A row that the pass does not reach stays. -/
theorem slice_rewriteRows_of_notMem (h : Rowwise d g order) {v : ℕ} (hv : v ∉ order)
    (f : ℕ → A) :
    slice (rewriteRows (starts d) g order f) (starts d v) (d v) =
      slice f (starts d v) (d v) := by
  induction order generalizing f with
  | nil => rfl
  | cons u order ih =>
      have huv : v ≠ u := fun h => hv (h ▸ List.mem_cons_self)
      have hv : v ∉ order := fun h => hv (List.mem_cons_of_mem u h)
      exact (ih h.tail hv _).trans (h.slice_step huv f)

/-- Every row that the pass reaches is rewritten once, from what it held at first. -/
theorem slice_rewriteRows (h : Rowwise d g order) (hnodup : order.Nodup) {v : ℕ}
    (hv : v ∈ order) (f : ℕ → A) :
    slice (rewriteRows (starts d) g order f) (starts d v) (d v) = g v f := by
  induction order generalizing f with
  | nil => simp at hv
  | cons u order ih =>
      obtain ⟨hu, hnodup⟩ := List.nodup_cons.mp hnodup
      by_cases huv : v = u
      · subst huv
        exact (slice_rewriteRows_of_notMem h.tail hu _).trans
          (slice_overwrite_of_length (h.length_eq v hv f))
      · have hvorder : v ∈ order := (List.mem_cons.mp hv).resolve_left huv
        exact (ih h.tail hnodup hvorder _).trans (h.congr v hv _ _ (h.slice_step huv f))

end Passes

end RidgeWalker.Slices
