import Mathlib

/-!
# Programs with a log of their array accesses

A computation on arrays that keeps every index it has used, with the array and its size.  A read
outside an array returns whatever word lies there, so that a program is total and the log tells
whether it was a program on the arrays alone.

Main results:

- Theorem `Meets.bind`: the rule for one computation after another.
- Theorem `Meets.loop`: the invariant rule for a counting loop.
- Theorem `mem_accesses_loop`: an access of one turn is an access of the loop.
-/

namespace RidgeWalker.Tracing

/-- One use of an index. -/
structure Access (ι : Type) where
  array : ι
  index : ℤ
  size : ℕ
deriving DecidableEq

/-- The index is one of the array. -/
def Access.Inside {ι : Type} (a : Access ι) : Prop := 0 ≤ a.index ∧ a.index < a.size

instance {ι : Type} (a : Access ι) : Decidable a.Inside :=
  inferInstanceAs (Decidable (_ ∧ _))

/-- A result, and the accesses made for it. -/
structure Traced (ι α : Type) where
  value : α
  accesses : List (Access ι)

instance {ι : Type} : Monad (Traced ι) where
  pure a := ⟨a, []⟩
  bind t f := ⟨(f t.value).value, t.accesses ++ (f t.value).accesses⟩

variable {ι α β : Type}

/-- The access alone. -/
def touch (array : ι) (index : ℤ) (size : ℕ) : Traced ι Unit := ⟨(), [⟨array, index, size⟩]⟩

/-- Reading a cell.  `beyond` holds the words outside the arrays. -/
def read (beyond : ι → ℤ → ℤ) (array : ι) (cells : List ℤ) (index : ℤ) : Traced ι ℤ where
  value := if 0 ≤ index then cells.getD index.toNat (beyond array index) else beyond array index
  accesses := [⟨array, index, cells.length⟩]

/-- Writing a cell. -/
def write (array : ι) (cells : List ℤ) (index word : ℤ) : Traced ι (List ℤ) where
  value := if 0 ≤ index then cells.set index.toNat word else cells
  accesses := [⟨array, index, cells.length⟩]

/-- The loop `for (i = 0; i < n; i++)`. -/
def loop (step : ℕ → α → Traced ι α) : ℕ → α → Traced ι α
  | 0, s => pure s
  | n + 1, s => do
      let s ← loop step n s
      step n s

/-! ## Values and accesses -/

@[simp]
theorem value_pure (a : α) : (pure a : Traced ι α).value = a := rfl

@[simp]
theorem accesses_pure (a : α) : (pure a : Traced ι α).accesses = [] := rfl

@[simp]
theorem value_bind (t : Traced ι α) (f : α → Traced ι β) :
    (t >>= f).value = (f t.value).value := rfl

@[simp]
theorem accesses_bind (t : Traced ι α) (f : α → Traced ι β) :
    (t >>= f).accesses = t.accesses ++ (f t.value).accesses := rfl

@[simp]
theorem accesses_touch (array : ι) (index : ℤ) (size : ℕ) :
    (touch array index size).accesses = [⟨array, index, size⟩] := rfl

@[simp]
theorem accesses_read (beyond : ι → ℤ → ℤ) (array : ι) (cells : List ℤ) (index : ℤ) :
    (read beyond array cells index).accesses = [⟨array, index, cells.length⟩] := rfl

@[simp]
theorem accesses_write (array : ι) (cells : List ℤ) (index word : ℤ) :
    (write array cells index word).accesses = [⟨array, index, cells.length⟩] := rfl

/-- Inside the array a read returns the cell. -/
theorem value_read (beyond : ι → ℤ → ℤ) (array : ι) {cells : List ℤ} {index : ℤ} {i : ℕ}
    (hindex : index = i) (hi : i < cells.length) :
    (read beyond array cells index).value = cells[i] := by
  subst hindex
  simp [read, hi]

/-- Behind the array it returns what lies there. -/
theorem value_read_of_length_le (beyond : ι → ℤ → ℤ) (array : ι) {cells : List ℤ} {index : ℤ}
    (h : (cells.length : ℤ) ≤ index) :
    (read beyond array cells index).value = beyond array index := by
  have hpos : 0 ≤ index := by omega
  have hlen : cells.length ≤ index.toNat := by omega
  unfold read
  rw [if_pos hpos, List.getD_eq_default _ _ hlen]

/-- Inside the array a write replaces the cell. -/
theorem value_write (array : ι) (cells : List ℤ) {index : ℤ} {i : ℕ} (hindex : index = i)
    (word : ℤ) : (write array cells index word).value = cells.set i word := by
  subst hindex
  simp [write]

/-- An index of the array. -/
theorem inside_of_lt {array : ι} {index : ℤ} {size i : ℕ} (hindex : index = i) (hi : i < size) :
    (Access.mk array index size).Inside := by
  subst hindex
  exact ⟨Int.natCast_nonneg i, Int.ofNat_lt.mpr hi⟩

/-! ## Rules -/

/-- The value satisfies `post`, and every access is allowed. -/
structure Meets (t : Traced ι α) (post : α → Prop) (allowed : Access ι → Prop) : Prop where
  value : post t.value
  accesses : ∀ a ∈ t.accesses, allowed a

section Rules

variable {post : α → Prop} {allowed : Access ι → Prop}

/-- For straight-line code the rules are equivalences. -/
@[simp]
theorem meets_pure {a : α} : Meets (pure a : Traced ι α) post allowed ↔ post a :=
  ⟨fun h => h.value, fun h => ⟨h, by simp⟩⟩

theorem meets_bind {t : Traced ι α} {f : α → Traced ι β} {post : β → Prop} :
    Meets (t >>= f) post allowed ↔
      (∀ a ∈ t.accesses, allowed a) ∧ Meets (f t.value) post allowed := by
  constructor
  · rintro ⟨hvalue, haccesses⟩
    simp only [accesses_bind, List.mem_append] at haccesses
    exact ⟨fun a ha => haccesses a (Or.inl ha), hvalue, fun a ha => haccesses a (Or.inr ha)⟩
  · rintro ⟨hfirst, hvalue, hsecond⟩
    refine ⟨hvalue, fun a ha => ?_⟩
    rcases List.mem_append.mp ha with ha | ha
    · exact hfirst a ha
    · exact hsecond a ha

/-- One computation after another. -/
theorem Meets.bind {t : Traced ι α} {f : α → Traced ι β} {mid : α → Prop} {post : β → Prop}
    (ht : Meets t mid allowed) (hf : ∀ a, mid a → Meets (f a) post allowed) :
    Meets (t >>= f) post allowed :=
  meets_bind.mpr ⟨ht.accesses, hf _ ht.value⟩

theorem Meets.imp {t : Traced ι α} {post' : α → Prop} (h : Meets t post allowed)
    (himp : ∀ a, post a → post' a) : Meets t post' allowed :=
  ⟨himp _ h.value, h.accesses⟩

/-- A loop keeps what one turn keeps. -/
theorem Meets.loop {step : ℕ → α → Traced ι α} {I : ℕ → α → Prop} {n : ℕ} {s : α}
    (hstart : I 0 s)
    (hstep : ∀ i < n, ∀ s, I i s → Meets (step i s) (I (i + 1)) allowed) :
    Meets (loop step n s) (I n) allowed := by
  induction n with
  | zero => exact meets_pure.mpr hstart
  | succ n ih =>
      apply Meets.bind (ih fun i hi => hstep i (Nat.lt_succ_of_lt hi))
      exact hstep n (Nat.lt_succ_self n)

/-- An access of one turn is an access of the loop. -/
theorem mem_accesses_loop {step : ℕ → α → Traced ι α} {I : ℕ → α → Prop} {n i : ℕ} {s : α}
    {a : Access ι} (hloop : I i (loop step i s).value) (hi : i < n)
    (ha : ∀ s, I i s → a ∈ (step i s).accesses) : a ∈ (loop step n s).accesses := by
  induction n with
  | zero => omega
  | succ n ih =>
      rcases Nat.lt_succ_iff_lt_or_eq.mp hi with hi | rfl
      · exact List.mem_append_left _ (ih hi)
      · exact List.mem_append_right _ (ha _ hloop)

end Rules

end RidgeWalker.Tracing
