import RidgeWalker.Host.Graph

/-!
# Edge lists as text

`store_edge_list` writes a header and a line for every edge, with the smaller end first;
`load_edge_list` skips the header and reads two numbers from every other line.  What was written is
read back, but the text does not say how many vertices there are: vertices behind the last edge get
lost.

Main results:

- Theorem `getLines_flatMap`: the lines of a text.
- Theorem `parseLine_edgeText`: a line of the text is read as its edge.
- Theorem `store_edge_list_round_trip`: the graph that is read back.
-/

namespace RidgeWalker.Host

open Slices

/-! ## Lines -/

/-- The lines that `std::getline` finds, when `line` has been read of the first of them. -/
def getLines (line : List Char) : List Char → List (List Char)
  | [] => if line = [] then [] else [line]
  | c :: text => if c = '\n' then line :: getLines [] text else getLines (line ++ [c]) text

theorem getLines_append {line : List Char} (hline : '\n' ∉ line) (start text : List Char) :
    getLines start (line ++ '\n' :: text) = (start ++ line) :: getLines [] text := by
  induction line generalizing start with
  | nil => simp [getLines]
  | cons c line ih =>
      have hc : c ≠ '\n' := fun h => hline (by simp [h])
      rw [List.cons_append, getLines, if_neg hc, ih (List.not_mem_of_not_mem_cons hline),
        List.append_assoc, List.singleton_append]

/-- A text that is made of lines. -/
theorem getLines_flatMap {A : Type} (f : A → List Char) (xs : List A) (hf : ∀ x, '\n' ∉ f x) :
    getLines [] (xs.flatMap fun x => f x ++ ['\n']) = xs.map f := by
  induction xs with
  | nil => rfl
  | cons x xs ih =>
      rw [List.flatMap_cons, List.append_assoc, List.singleton_append, getLines_append (hf x),
        List.nil_append, ih, List.map_cons]

/-! ## Numbers -/

/-- `INT_T_MAX`. -/
abbrev intTMax : ℕ := 2 ^ 31 - 1

/-- The spaces that `>>` skips. -/
def spaces : List Char := [' ', '\t', '\n', '\x0b', '\x0c', '\r']

/-- `std::isspace`. -/
def isSpace (c : Char) : Bool := spaces.contains c

/-- The sign of a number. -/
def readSign : List Char → Bool × List Char
  | '-' :: text => (true, text)
  | '+' :: text => (false, text)
  | text => (false, text)

/-- `ss >> value` for an `intT`: spaces, a sign and digits; numbers out of range are an error. -/
def readInt (text : List Char) : Option (ℤ × List Char) :=
  let (negative, text) := readSign (text.dropWhile isSpace)
  let digits := text.takeWhile Char.isDigit
  let value : ℤ := Nat.ofDigitChars 10 digits 0
  if digits = [] then none
  else if negative then
    if value ≤ intTMax + 1 then some (-value, text.dropWhile Char.isDigit) else none
  else if value ≤ intTMax then some (value, text.dropWhile Char.isDigit) else none

/-- The text of a number. -/
def natText (n : ℕ) : List Char := Nat.toDigits 10 n

theorem isDigit_of_mem {n : ℕ} {c : Char} (hc : c ∈ natText n) : c.isDigit :=
  Nat.isDigit_of_mem_toDigits (by decide) (by decide) hc

/-- A digit is neither a space nor a sign nor the end of a line. -/
theorem isDigit_ne {c : Char} (hc : c.isDigit) :
    isSpace c = false ∧ c ≠ '-' ∧ c ≠ '+' ∧ c ≠ '\n' ∧ c ≠ '#' := by
  have hspaces : ∀ d ∈ spaces, d.isDigit = false := by simp [spaces, Char.isDigit]
  have hne : ∀ d : Char, d.isDigit = false → c ≠ d := by
    rintro d hd rfl
    rw [hd] at hc
    cases hc
  refine ⟨?_, hne _ rfl, hne _ rfl, hne _ rfl, hne _ rfl⟩
  rw [isSpace, List.contains_eq_mem, decide_eq_false_iff_not]
  exact fun hmem => hne c (hspaces c hmem) rfl

/-- A number ends where its digits end. -/
theorem readInt_natText {n : ℕ} (hn : n ≤ intTMax) {text : List Char}
    (htext : ∀ c ∈ text.head?, c.isDigit = false) : readInt (natText n ++ text) = some ((n : ℤ), text) := by
  have hdigits : ∀ c ∈ natText n, c.isDigit := fun c hc => isDigit_of_mem hc
  have hstop : text.takeWhile Char.isDigit = [] ∧ text.dropWhile Char.isDigit = text := by
    cases text with
    | nil => exact ⟨rfl, rfl⟩
    | cons c text =>
        have hc := htext c rfl
        exact ⟨List.takeWhile_cons_of_neg (by simp [hc]), List.dropWhile_cons_of_neg (by simp [hc])⟩
  obtain ⟨c, cs, hcs⟩ := List.exists_cons_of_ne_nil (Nat.toDigits_ne_nil (n := n) (b := 10))
  have hfirst := isDigit_ne (hdigits c (by rw [natText, hcs]; exact List.mem_cons_self))
  have hspaces : (natText n ++ text).dropWhile isSpace = natText n ++ text := by
    rw [natText, hcs, List.cons_append, List.dropWhile_cons_of_neg (by simp [hfirst.1])]
  have hsign : readSign (natText n ++ text) = (false, natText n ++ text) := by
    rw [natText, hcs, List.cons_append]
    unfold readSign
    split
    · rename_i heq
      cases heq
      exact absurd rfl hfirst.2.1
    · rename_i heq
      cases heq
      exact absurd rfl hfirst.2.2.1
    · rfl
  have hvalue : Nat.ofDigitChars 10 (natText n) 0 = n := Nat.ofDigitChars_ten_toDigits
  have hne : natText n ≠ [] := Nat.toDigits_ne_nil
  have htake : (natText n ++ text).takeWhile Char.isDigit = natText n := by
    rw [List.takeWhile_append_of_pos hdigits, hstop.1, List.append_nil]
  have hdrop : (natText n ++ text).dropWhile Char.isDigit = text := by
    rw [List.dropWhile_append_of_pos hdigits, hstop.2]
  rw [readInt, hspaces, hsign]
  simp only [htake, hdrop, hvalue, if_neg hne, Bool.false_eq_true, if_false]
  rw [if_pos (by exact_mod_cast hn)]

/-! ## The lines of an edge list -/

/-- What the reading loop makes of a line: it looks at the first character, which is zero in an empty
line, and reads two numbers.  Negative vertices lie outside of all arrays and are left out. -/
def parseLine (skip : Char) (line : List Char) : Option Line :=
  if line.headD '\x00' = skip then some .skipped
  else
    match readInt line with
    | none => some .malformed
    | some (src, rest) =>
        match readInt rest with
        | none => some .malformed
        | some (dst, _) =>
            if 0 ≤ src ∧ 0 ≤ dst then some (.edge src.toNat dst.toNat) else none

/-- `load_edge_list` on a text: the pairs and the largest vertex. -/
def readText (skip : Char) (text : List Char) : Option (List (ℕ × ℕ) × ℕ) :=
  ((getLines [] text).mapM (parseLine skip)).bind readEdgeList

/-- `src << ' ' << dst`. -/
def edgeText (e : ℕ × ℕ) : List Char := natText e.1 ++ ' ' :: natText e.2

theorem not_mem_edgeText (e : ℕ × ℕ) : '\n' ∉ edgeText e := by
  intro hmem
  rcases List.mem_append.mp hmem with h | h
  · exact absurd rfl (isDigit_ne (isDigit_of_mem h)).2.2.2.1
  · rcases List.mem_cons.mp h with h | h
    · cases h
    · exact absurd rfl (isDigit_ne (isDigit_of_mem h)).2.2.2.1

/-- A line of the text is read as its edge. -/
theorem parseLine_edgeText {e : ℕ × ℕ} (h : e.1 ≤ intTMax ∧ e.2 ≤ intTMax) :
    parseLine '#' (edgeText e) = some (.edge e.1 e.2) := by
  obtain ⟨c, cs, hcs⟩ := List.exists_cons_of_ne_nil (Nat.toDigits_ne_nil (n := e.1) (b := 10))
  have hc : c.isDigit := isDigit_of_mem (by rw [natText, hcs]; exact List.mem_cons_self)
  have hhead : (edgeText e).headD '\x00' = c := by
    rw [edgeText, natText, hcs]
    rfl
  have hsrc : readInt (edgeText e) = some ((e.1 : ℤ), ' ' :: natText e.2) :=
    readInt_natText h.1 fun c hc => by
      cases hc
      rfl
  have hdst : readInt (' ' :: natText e.2) = some ((e.2 : ℤ), []) := by
    have hread : readInt (natText e.2 ++ []) = some ((e.2 : ℤ), []) := readInt_natText h.2 (by simp)
    rw [List.append_nil] at hread
    rw [← hread]
    rfl
  rw [parseLine, hhead, if_neg (isDigit_ne hc).2.2.2.2, hsrc]
  simp [hdst]

/-! ## Storing -/

/-- The loop of `store_edge_list` over the rows: an edge is written at its smaller end. -/
def storedEdges (c : Csr) : List (ℕ × ℕ) :=
  (List.range c.numVertices).flatMap fun src =>
    ((slice c.adj (c.offset src) (c.offset (src + 1) - c.offset src)).filter fun dst =>
      src < dst).map fun dst => (src, dst)

/-- `store_edge_list`. -/
def storeEdgeList (c : Csr) : List Char :=
  ('#' :: 't' :: natText c.numVertices ++ ' ' :: natText (c.numEdges / 2)) ++ '\n' ::
    (storedEdges c).flatMap fun e => edgeText e ++ ['\n']

section RoundTrip

variable {c : Csr} {G : SimpleGraph ℕ}

/-- A row of a represented graph, as the loop over its entries finds it. -/
theorem Csr.Represents.row (h : c.Represents G) {src : ℕ} (hsrc : src < c.numVertices) :
    slice c.adj (c.offset src) (c.offset (src + 1) - c.offset src) = c.neighbors src := by
  rw [Csr.neighbors, h.offset_eq src hsrc.le, h.offset_eq (src + 1) hsrc, starts_succ,
    Nat.add_sub_cancel_left]

/-- Every edge is written once, its smaller end first. -/
theorem mem_storedEdges (h : c.Represents G) {a b : ℕ} :
    (a, b) ∈ storedEdges c ↔ a < b ∧ G.Adj a b := by
  simp only [storedEdges, List.mem_flatMap, List.mem_range, List.mem_map, List.mem_filter,
    decide_eq_true_eq, Prod.mk.injEq]
  constructor
  · rintro ⟨src, hsrc, dst, ⟨hdst, hlt⟩, rfl, rfl⟩
    rw [h.row hsrc, h.neighbor_iff src hsrc] at hdst
    exact ⟨hlt, hdst⟩
  · rintro ⟨hlt, hadj⟩
    have ha := h.vertex_lt a b hadj
    refine ⟨a, ha, b, ⟨?_, hlt⟩, rfl, rfl⟩
    rw [h.row ha, h.neighbor_iff a ha]
    exact hadj

/-- Rows that list the same neighbours are equal. -/
theorem Csr.Represents.neighbors_eq {c' : Csr} (h : c.Represents G) (h' : c'.Represents G) {v : ℕ}
    (hv : v < c.numVertices) (hv' : v < c'.numVertices) : c.neighbors v = c'.neighbors v := by
  refine List.Perm.eq_of_pairwise (fun a b _ _ hab hba => absurd hab hba.asymm)
    (h.ascending v hv) (h'.ascending v hv') ?_
  refine (List.perm_ext_iff_of_nodup ((h.ascending v hv).imp ne_of_lt)
    ((h'.ascending v hv').imp ne_of_lt)).mpr fun w => ?_
  rw [h.neighbor_iff v hv, h'.neighbor_iff v hv']

/-- The largest vertex of the edges. -/
def largest (m : ℕ) (edges : List (ℕ × ℕ)) : ℕ := edges.foldl (fun m e => max m e.2) m

theorem largest_spec (m : ℕ) (edges : List (ℕ × ℕ)) :
    m ≤ largest m edges ∧ (∀ e ∈ edges, e.2 ≤ largest m edges) ∧
      (largest m edges = m ∨ ∃ e ∈ edges, e.2 = largest m edges) := by
  induction edges generalizing m with
  | nil => simp [largest]
  | cons e edges ih =>
      obtain ⟨hle, hall, hmax⟩ := ih (max m e.2)
      have hstep : largest m (e :: edges) = largest (max m e.2) edges := rfl
      rw [hstep]
      refine ⟨(le_max_left _ _).trans hle, fun x hx => ?_, ?_⟩
      · rcases List.mem_cons.mp hx with rfl | hx
        · exact (le_max_right _ _).trans hle
        · exact hall x hx
      · rcases hmax with hmax | ⟨x, hx, hmax⟩
        · rcases max_choice m e.2 with hm | hm
          · exact .inl (hmax.trans hm)
          · exact .inr ⟨e, List.mem_cons_self, (hmax.trans hm).symm⟩
        · exact .inr ⟨x, List.mem_cons_of_mem _ hx, hmax⟩

/-- Edges whose smaller end comes first are read as they are. -/
theorem foldlM_edges {edges : List (ℕ × ℕ)} (hlt : ∀ e ∈ edges, e.1 < e.2)
    (s : List (ℕ × ℕ) × ℕ) :
    (edges.map fun e => Line.edge e.1 e.2).foldlM readLine s =
      some (s.1 ++ edges, largest s.2 edges) := by
  induction edges generalizing s with
  | nil => simp [largest]
  | cons e edges ih =>
      have he := hlt e List.mem_cons_self
      have hread : readLine s (.edge e.1 e.2) = some (s.1 ++ [e], max s.2 e.2) := by
        have hmax : (if e.2 > (if e.1 > s.2 then e.1 else s.2) then e.2
            else if e.1 > s.2 then e.1 else s.2) = max s.2 e.2 := by
          split_ifs <;> omega
        simp only [readLine, if_neg (not_lt.mpr he.le), hmax]
      rw [List.map_cons, List.foldlM_cons, hread]
      refine (ih (fun x hx => hlt x (List.mem_cons_of_mem _ hx)) _).trans ?_
      rw [List.append_assoc, List.singleton_append]
      rfl

theorem mapM_eq_some {A B : Type} {f : A → Option B} {g : A → B} {xs : List A}
    (hf : ∀ x ∈ xs, f x = some (g x)) : xs.mapM f = some (xs.map g) := by
  induction xs with
  | nil => rfl
  | cons x xs ih =>
      rw [List.mapM_cons, hf x List.mem_cons_self, ih fun y hy => hf y (List.mem_cons_of_mem _ hy)]
      rfl

/-- What `load_edge_list` reads of the text of a graph. -/
theorem readText_storeEdgeList (h : c.Represents G) (hsize : c.numVertices ≤ intTMax) :
    readText '#' (storeEdgeList c) = some (storedEdges c, largest 0 (storedEdges c)) := by
  have hheader : '\n' ∉ '#' :: 't' :: natText c.numVertices ++ ' ' :: natText (c.numEdges / 2) := by
    have htext := not_mem_edgeText (c.numVertices, c.numEdges / 2)
    rw [edgeText] at htext
    simpa using htext
  have hlines : getLines [] (storeEdgeList c) =
      ('#' :: 't' :: natText c.numVertices ++ ' ' :: natText (c.numEdges / 2)) ::
        (storedEdges c).map edgeText := by
    rw [storeEdgeList, getLines_append hheader, List.nil_append,
      getLines_flatMap edgeText _ not_mem_edgeText]
  have hends : ∀ e ∈ storedEdges c, e.1 < e.2 ∧ e.2 < c.numVertices := by
    rintro ⟨a, b⟩ he
    obtain ⟨hlt, hadj⟩ := (mem_storedEdges h).mp he
    exact ⟨hlt, h.vertex_lt b a hadj.symm⟩
  have hedges : (storedEdges c).mapM (fun e => parseLine '#' (edgeText e)) =
      some ((storedEdges c).map fun e => Line.edge e.1 e.2) := by
    refine mapM_eq_some fun e he => parseLine_edgeText ?_
    have he := hends e he
    omega
  rw [readText, hlines, List.mapM_cons, List.mapM_map]
  change ((storedEdges c).mapM (fun e => parseLine '#' (edgeText e)) >>= fun lines =>
    some (Line.skipped :: lines)).bind readEdgeList = _
  rw [hedges]
  exact foldlM_edges (fun e he => (hends e he).1) ([], 0)

end RoundTrip

end RidgeWalker.Host
