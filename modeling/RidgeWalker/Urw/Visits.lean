import RidgeWalker.Urw.Loop

/-!
# Visits of a query to the router state

Main results:

- Theorem `urw_closed_loop`: a query in the loop is in exactly one place; a query that has
  left it was counted once for every length from the one it was injected with down to
  zero and then retired once; and the counts of a drained loop add up.
-/

namespace RidgeWalker.Urw

open Dataflow Switch

variable {depth : Chan UrwChan → ℕ}

/-- Everything seen of any query in a run. -/
def observations (tr : List (urwLoop depth).Label) : List Obs := tr.filterMap obs

/-- How often a query is found in one stream or in the registers of one kernel. -/
def copies (s : (urwLoop depth).State) (t : ℕ) (pl : Chan UrwChan ⊕ UrwProc) : ℕ :=
  (tokensOf t (Network.inside token held s pl)).card

/-! ## Places -/

theorem sum_copies (s : (urwLoop depth).State) (t : ℕ) :
    ∑ pl, copies s t pl = (tokensOf t (tokens s)).card := by
  have hsum : ∀ (A : Finset (Chan UrwChan ⊕ UrwProc)) (f : _ → Multiset Token),
      ∑ pl ∈ A, (tokensOf t (f pl)).card = (tokensOf t (∑ pl ∈ A, f pl)).card := by
    intro A f
    induction A using Finset.induction_on with
    | empty => rfl
    | insert a A ha ih => rw [Finset.sum_insert ha, Finset.sum_insert ha, tokensOf_add,
        Multiset.card_add, ih]
  rw [tokens, ← Network.sum_inside, ← hsum]
  rfl

/-- A query with one token is in exactly one place. -/
theorem one_place {s : (urwLoop depth).State} {t : ℕ} (h : (tokensOf t (tokens s)).card = 1) :
    ∃ pl, copies s t pl = 1 ∧ ∀ pl', pl' ≠ pl → copies s t pl' = 0 := by
  have hsum := (sum_copies s t).trans h
  obtain ⟨pl, -, hpl⟩ := Finset.exists_ne_zero_of_sum_ne_zero (hsum ▸ one_ne_zero)
  rw [← Finset.add_sum_erase _ _ (Finset.mem_univ pl)] at hsum
  refine ⟨pl, by omega, fun pl' hne => ?_⟩
  have hle : copies s t pl' ≤ ∑ x ∈ Finset.univ.erase pl, copies s t x :=
    Finset.single_le_sum (fun _ _ => Nat.zero_le _)
      (Finset.mem_erase.mpr ⟨hne, Finset.mem_univ pl'⟩)
  omega

/-- A query without a token is nowhere, and conversely. -/
theorem no_place {s : (urwLoop depth).State} {t : ℕ} :
    (∀ pl, copies s t pl = 0) ↔ tokensOf t (tokens s) = 0 := by
  rw [← Multiset.card_eq_zero, ← sum_copies, Finset.sum_eq_zero_iff]
  simp

/-- A loop in which every query is nowhere has no tokens. -/
theorem drained {s : (urwLoop depth).State} (h : ∀ t pl, copies s t pl = 0) : tokens s = 0 := by
  refine Multiset.eq_zero_of_forall_notMem fun x hx => ?_
  have hnone := no_place.mp (h x.tag)
  have hmem : x ∈ tokensOf x.tag (tokens s) := Multiset.mem_filter.mpr ⟨hx, rfl⟩
  rw [hnone] at hmem
  exact Multiset.notMem_zero x hmem

/-! ## Counts -/

/-- The observation is a count of `router_state`. -/
def Obs.isVisited : Obs → Bool
  | .visited _ _ => true
  | _ => false

theorem sum_counted (h : List Obs) :
    (h.map Obs.counted).sum = (h.filter Obs.isVisited).length := by
  induction h with
  | nil => rfl
  | cons o h ih => cases o <;> simp [Obs.counted, Obs.isVisited, List.filter_cons, ih, add_comm]

theorem sum_ordered (h : List Obs) :
    (h.map Obs.ordered).sum = ((injections h).map fun x => x.2 + 1).sum := by
  induction h with
  | nil => rfl
  | cons o h ih => cases o <;> simpa [Obs.ordered, injections] using ih

/-! ## The closed loop -/

/-- In every reachable state of the loop: an injected query that is not yet retired is in
exactly one place; an injected query that is nowhere was counted with the lengths
`L, L - 1, …, 0` and then retired once; and once the loop has drained the number of counts
is the sum of `L + 1` over the queries. -/
theorem urw_closed_loop {tr : List (urwLoop depth).Label} {s : (urwLoop depth).State}
    (hr : (urwLoop depth).Run (urwLoop depth).init tr s) (hd : Distinct (observations tr)) :
    (∀ t L, (t, L) ∈ injections (observations tr) → .retired t ∉ observations tr →
      ∃ pl, copies s t pl = 1 ∧ ∀ pl', pl' ≠ pl → copies s t pl' = 0) ∧
    (∀ t L, (t, L) ∈ injections (observations tr) → (∀ pl, copies s t pl = 0) →
      historyOf t (observations tr) = .injected t L :: (visits t L (L + 1) ++ [.retired t])) ∧
    ((∀ t pl, copies s t pl = 0) → ((observations tr).filter Obs.isVisited).length =
      ((injections (observations tr)).map fun x => x.2 + 1).sum) := by
  have hit : Itinerary (observations tr) (tokens s) := urwLoop_run hr
  refine ⟨fun t L hin hnot => ?_, fun t L hin hnone => ?_, fun hall => ?_⟩
  · apply one_place
    obtain ⟨st, hB, hh⟩ := hit.life hd t
    rw [mem_injections, hh] at hin
    have hnot' : .retired t ∉ st.history t := by
      rw [← hh]
      exact fun hm => hnot (List.mem_filter.mp hm).1
    rw [hB]
    cases st with
    | unborn => simp [Stage.history] at hin
    | ahead L k hk => rfl
    | behind L k hk => rfl
    | done L => simp [Stage.history] at hnot'
  · obtain ⟨st, hB, hh⟩ := hit.life hd t
    rw [mem_injections, hh] at hin
    rw [no_place.mp hnone] at hB
    rw [hh]
    cases st with
    | unborn => simp [Stage.history] at hin
    | ahead L k hk => simp [Stage.tokens] at hB
    | behind L k hk => simp [Stage.tokens] at hB
    | done L' =>
        have hL : L = L' := by simpa [Stage.history, visits] using hin
        subst hL
        rfl
  · have htot := hit.total
    rw [drained hall, sum_counted, sum_ordered] at htot
    simpa using htot

/-- The surroundings may feed the streams of `query_loader`. -/
theorem loaded_unwritten (k : Fin 8) (p : UrwProc) (o : ((urwLoop depth).node p).Out) :
    ((urwLoop depth).node p).dst o ≠ (UrwStream.loaded k).chan := by
  intro he
  cases p with
  | wsScheduler p =>
      rcases rpaWsScheduler_wired.mem_writes.mp ⟨p, PackageCall.mem_outs.mpr ⟨o, he⟩⟩ with
        ⟨j, hj⟩ | ⟨x, hx⟩
      · exact nomatch hj
      · exact nomatch hx
  | queryMerge k => exact nomatch he
  | pipeline => exact nomatch he
  | routerState k =>
      cases o with
      | out => exact nomatch he
      | cnt => exact nomatch he
  | endWsScheduler p =>
      rcases rpaWsScheduler_wired.mem_writes.mp ⟨p, PackageCall.mem_outs.mpr ⟨o, he⟩⟩ with
        ⟨j, hj⟩ | ⟨x, hx⟩
      · exact nomatch hj
      · exact nomatch hx

/-- A query of length 2 that has just been loaded is in exactly one place. -/
theorem urw_closed_loop_loaded :
    ∃ s : (urwLoop fun _ => 1).State,
      ∃ pl, copies s 7 pl = 1 ∧ ∀ pl', pl' ≠ pl → copies s 7 pl' = 0 := by
  let q : Query := ⟨7, ⟨3, ⟨0, 0, 2⟩, false⟩⟩
  have hput := Network.Step.put (N := urwLoop fun _ => 1) (s := (urwLoop fun _ => 1).init)
    (c := (UrwStream.loaded 0).chan) (a := q) (loaded_unwritten 0) (by decide)
  have hloop := urw_closed_loop (Network.Run.nil.snoc hput) (List.nodup_singleton 7)
  exact ⟨_, hloop.1 7 2 (List.mem_singleton_self _) (by simp [observations, obs])⟩

end RidgeWalker.Urw
