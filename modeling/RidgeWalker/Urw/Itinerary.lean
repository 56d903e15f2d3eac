import Mathlib

/-!
# What the walk loop is for

The purpose of the closed loop, without any kernel or stream: a query that is injected
with length `L` is to be counted at the router state `L + 1` times, each time with a
length one smaller, and to be retired after that.  A token stands for a query in the loop;
it is ahead of its next count or behind its last one.

Main results:

- Theorem `Moves.total`: the counts still due decrease with every count and with nothing
  else.
- Theorem `Itinerary.life`: at every moment the history of a query and the token it has in
  the loop are those of one stage of its life.
-/

namespace RidgeWalker.Urw

/-! ## Tokens and moves -/

/-- Whether a query is on its way to the router state or has just passed it. -/
inductive Phase where
  | ahead
  | behind
deriving DecidableEq

/-- A query in the loop. -/
structure Token where
  tag : ℕ
  phase : Phase
  len : ℕ
deriving DecidableEq

/-- What can be observed of a query. -/
inductive Obs where
  | injected (tag len : ℕ)
  | visited (tag len : ℕ)
  | retired (tag : ℕ)
deriving DecidableEq

/-- The query an observation is about. -/
def Obs.tag : Obs → ℕ
  | injected t _ => t
  | visited t _ => t
  | retired t => t

/-- One move of one query. -/
inductive Moves : Multiset Token → Option Obs → Multiset Token → Prop where
  /-- Nothing that matters to a query happens. -/
  | rest (B) : Moves B none B
  | inject (B t n) : Moves B (some (.injected t n)) (B + {⟨t, .ahead, n⟩})
  | visit (B t n) : Moves (B + {⟨t, .ahead, n⟩}) (some (.visited t n)) (B + {⟨t, .behind, n⟩})
  /-- A query with steps left is sent round again. -/
  | spend (B t n) : Moves (B + {⟨t, .behind, n + 1⟩}) none (B + {⟨t, .ahead, n⟩})
  | retire (B t) : Moves (B + {⟨t, .behind, 0⟩}) (some (.retired t)) B

/-- The moves of any number of queries in any order, with the observations made. -/
inductive Itinerary : List Obs → Multiset Token → Prop where
  | start : Itinerary [] 0
  | move {h B o B'} (hi : Itinerary h B) (hm : Moves B o B') : Itinerary (h ++ o.toList) B'

/-! ## Counts still due -/

/-- How often a query has still to be counted. -/
def Token.due : Token → ℕ
  | ⟨_, .ahead, n⟩ => n + 1
  | ⟨_, .behind, n⟩ => n

/-- The counts an observation adds to those due in the whole history. -/
def Obs.ordered : Obs → ℕ
  | injected _ n => n + 1
  | _ => 0

/-- The counts an observation is. -/
def Obs.counted : Obs → ℕ
  | visited _ _ => 1
  | _ => 0

/-- Every move keeps the balance of counts ordered, made and still due. -/
theorem Moves.total {B B' : Multiset Token} {o : Option Obs} (hm : Moves B o B') :
    (B'.map Token.due).sum + (o.toList.map Obs.counted).sum =
      (B.map Token.due).sum + (o.toList.map Obs.ordered).sum := by
  cases hm with
  | rest => rfl
  | inject B t n => simp [Token.due, Obs.counted, Obs.ordered]
  | visit B t n => simp [Token.due, Obs.counted, Obs.ordered, add_assoc]
  | spend B t n => simp [Token.due]
  | retire B t => simp [Token.due, Obs.counted, Obs.ordered]

/-- The counts made and still due are those that the injected queries ordered. -/
theorem Itinerary.total {h : List Obs} {B : Multiset Token} (hi : Itinerary h B) :
    (B.map Token.due).sum + (h.map Obs.counted).sum = (h.map Obs.ordered).sum := by
  induction hi with
  | start => rfl
  | move _ hm ih =>
      have hstep := hm.total
      simp only [List.map_append, List.sum_append]
      omega

/-! ## The life of one query -/

/-- The first `k` counts of a query injected with length `L`. -/
def visits (t L k : ℕ) : List Obs := (List.range k).map fun i => .visited t (L - i)

theorem visits_succ (t L k : ℕ) : visits t L (k + 1) = visits t L k ++ [.visited t (L - k)] := by
  simp [visits, List.range_succ]

/-- A stage in the life of a query: how far it has got after `k` counts. -/
inductive Stage where
  | unborn
  | ahead (L k : ℕ) (hk : k ≤ L)
  | behind (L k : ℕ) (hk : k ≤ L)
  | done (L : ℕ)

/-- The token that a query has in the loop at a stage. -/
def Stage.tokens (t : ℕ) : Stage → Multiset Token
  | unborn => 0
  | ahead L k _ => {⟨t, .ahead, L - k⟩}
  | behind L k _ => {⟨t, .behind, L - k⟩}
  | done _ => 0

/-- What has been observed of a query at a stage. -/
def Stage.history (t : ℕ) : Stage → List Obs
  | unborn => []
  | ahead L k _ => .injected t L :: visits t L k
  | behind L k _ => .injected t L :: visits t L (k + 1)
  | done L => .injected t L :: (visits t L (L + 1) ++ [.retired t])

/-- The tokens of one query. -/
def tokensOf (t : ℕ) (B : Multiset Token) : Multiset Token := B.filter fun x => x.tag = t

/-- The observations of one query. -/
def historyOf (t : ℕ) (h : List Obs) : List Obs := h.filter fun o => o.tag = t

@[simp] theorem tokensOf_add (t : ℕ) (A B : Multiset Token) :
    tokensOf t (A + B) = tokensOf t A + tokensOf t B := Multiset.filter_add _ A B

@[simp] theorem tokensOf_self (t : ℕ) (ph : Phase) (n : ℕ) :
    tokensOf t {⟨t, ph, n⟩} = {⟨t, ph, n⟩} := by
  simp [tokensOf]

theorem tokensOf_other {t u : ℕ} (h : u ≠ t) (ph : Phase) (n : ℕ) :
    tokensOf t {⟨u, ph, n⟩} = 0 := by
  simp [tokensOf, h]

@[simp] theorem historyOf_append (t : ℕ) (h h' : List Obs) :
    historyOf t (h ++ h') = historyOf t h ++ historyOf t h' := List.filter_append h h'

/-- The query is at one stage of its life. -/
def Lives (t : ℕ) (h : List Obs) (B : Multiset Token) : Prop :=
  ∃ st : Stage, tokensOf t B = st.tokens t ∧ historyOf t h = st.history t

/-- The queries injected, with their lengths. -/
def injections (h : List Obs) : List (ℕ × ℕ) :=
  h.filterMap fun
    | .injected t n => some (t, n)
    | _ => none

/-- No query is injected twice. -/
def Distinct (h : List Obs) : Prop := ((injections h).map Prod.fst).Nodup

theorem mem_injections {h : List Obs} {t n : ℕ} :
    (t, n) ∈ injections h ↔ .injected t n ∈ historyOf t h := by
  constructor
  · intro hm
    obtain ⟨o, ho, heq⟩ := List.mem_filterMap.mp hm
    cases o with
    | injected u m =>
        obtain ⟨rfl, rfl⟩ := Prod.mk.inj (Option.some.inj heq)
        exact List.mem_filter.mpr ⟨ho, by simp [Obs.tag]⟩
    | visited u m => simp at heq
    | retired u => simp at heq
  · intro hm
    exact List.mem_filterMap.mpr ⟨_, (List.mem_filter.mp hm).1, rfl⟩

/-- A query that is injected for the first time was unborn. -/
theorem Stage.eq_unborn {t : ℕ} {st : Stage} (h : ∀ n, .injected t n ∉ st.history t) :
    st = .unborn := by
  cases st with
  | unborn => rfl
  | ahead L k hk => exact absurd List.mem_cons_self (h L)
  | behind L k hk => exact absurd List.mem_cons_self (h L)
  | done L => exact absurd List.mem_cons_self (h L)

/-- A query whose token is ahead of a count is at a stage ahead of it. -/
theorem Stage.ahead_of_tokens {t n : ℕ} {st : Stage} {A : Multiset Token}
    (h : A + {⟨t, .ahead, n⟩} = st.tokens t) :
    A = 0 ∧ ∃ L k hk, st = .ahead L k hk ∧ n = L - k := by
  have hcard := congrArg Multiset.card h
  have hmem : (⟨t, .ahead, n⟩ : Token) ∈ st.tokens t := h ▸ by simp
  cases st with
  | unborn => simp [tokens] at hcard
  | ahead L k hk =>
      simp only [tokens, Multiset.card_add, Multiset.card_singleton] at hcard
      simp only [tokens, Multiset.mem_singleton, Token.mk.injEq, true_and] at hmem
      exact ⟨Multiset.card_eq_zero.mp (by omega), L, k, hk, rfl, hmem⟩
  | behind L k hk => simp [tokens] at hmem
  | done L => simp [tokens] at hcard

/-- A query whose token is behind a count is at a stage behind it. -/
theorem Stage.behind_of_tokens {t n : ℕ} {st : Stage} {A : Multiset Token}
    (h : A + {⟨t, .behind, n⟩} = st.tokens t) :
    A = 0 ∧ ∃ L k hk, st = .behind L k hk ∧ n = L - k := by
  have hcard := congrArg Multiset.card h
  have hmem : (⟨t, .behind, n⟩ : Token) ∈ st.tokens t := h ▸ by simp
  cases st with
  | unborn => simp [tokens] at hcard
  | ahead L k hk => simp [tokens] at hmem
  | behind L k hk =>
      simp only [tokens, Multiset.card_add, Multiset.card_singleton] at hcard
      simp only [tokens, Multiset.mem_singleton, Token.mk.injEq, true_and] at hmem
      exact ⟨Multiset.card_eq_zero.mp (by omega), L, k, hk, rfl, hmem⟩
  | done L => simp [tokens] at hcard

/-- A move of another query leaves the stage of this one alone. -/
theorem Lives.frame {t u : ℕ} (hut : u ≠ t) {h : List Obs} {A B B' : Multiset Token}
    {o : Option Obs} (hl : Lives t h (A + B)) (hB : ∀ x ∈ B, x.tag = u)
    (hB' : ∀ x ∈ B', x.tag = u) (ho : ∀ x ∈ o, x.tag = u) : Lives t (h ++ o.toList) (A + B') := by
  have hnil : ∀ {D : Multiset Token}, (∀ x ∈ D, x.tag = u) → tokensOf t D = 0 := fun hD =>
    Multiset.filter_eq_nil.mpr fun x hx => by rw [hD x hx]; exact hut
  have hobs : historyOf t o.toList = [] := by
    rw [historyOf, List.filter_eq_nil_iff]
    intro x hx
    rw [ho x (by simpa using hx)]
    simpa using hut
  obtain ⟨st, hB₀, hh⟩ := hl
  rw [tokensOf_add, hnil hB, add_zero] at hB₀
  exact ⟨st, by rw [tokensOf_add, hnil hB', add_zero, hB₀],
    by rw [historyOf_append, hobs, List.append_nil, hh]⟩

/-- A move takes the life of the query it moves one stage further. -/
theorem Lives.step {t : ℕ} {h : List Obs} {B B' : Multiset Token} {o : Option Obs}
    (hl : Lives t h B) (hm : Moves B o B') (hd : Distinct (h ++ o.toList)) :
    Lives t (h ++ o.toList) B' := by
  cases hm with
  | rest => simpa using hl
  | inject B u n =>
      by_cases hut : u = t
      · subst hut
        obtain ⟨st, hB, hh⟩ := hl
        have hst : st = .unborn := by
          refine Stage.eq_unborn (t := u) fun m hmem => ?_
          rw [← hh] at hmem
          have hin := List.mem_map_of_mem (f := Prod.fst) (mem_injections.mpr hmem)
          simp only [Distinct, injections, Option.toList, List.filterMap_append, List.map_append,
            List.nodup_append] at hd
          exact hd.2.2 _ hin _ (by simp) rfl
        subst hst
        refine ⟨.ahead n 0 (Nat.zero_le n), ?_, ?_⟩
        · simp [hB, Stage.tokens]
        · rw [historyOf_append, hh]
          simp [Stage.history, historyOf, Obs.tag, visits]
      · exact Lives.frame hut (B := 0) (by simpa using hl) (by simp) (by simp) (by simp [Obs.tag])
  | visit B u n =>
      by_cases hut : u = t
      · subst hut
        obtain ⟨st, hB, hh⟩ := hl
        rw [tokensOf_add, tokensOf_self] at hB
        obtain ⟨h₀, L, k, hk, rfl, rfl⟩ := Stage.ahead_of_tokens hB
        refine ⟨.behind L k hk, ?_, ?_⟩
        · simp [h₀, Stage.tokens]
        · rw [historyOf_append, hh]
          simp [Stage.history, historyOf, Obs.tag, visits_succ]
      · exact hl.frame hut (by simp) (by simp) (by simp [Obs.tag])
  | spend B u n =>
      by_cases hut : u = t
      · subst hut
        obtain ⟨st, hB, hh⟩ := hl
        rw [tokensOf_add, tokensOf_self] at hB
        obtain ⟨h₀, L, k, hk, rfl, hn⟩ := Stage.behind_of_tokens hB
        refine ⟨.ahead L (k + 1) (by omega), ?_, ?_⟩
        · have hlen : L - (k + 1) = n := by omega
          simp [h₀, Stage.tokens, hlen]
        · rw [historyOf_append, hh]
          simp [Stage.history, historyOf]
      · exact hl.frame hut (by simp) (by simp) (by simp)
  | retire B u =>
      by_cases hut : u = t
      · subst hut
        obtain ⟨st, hB, hh⟩ := hl
        rw [tokensOf_add, tokensOf_self] at hB
        obtain ⟨h₀, L, k, hk, rfl, hn⟩ := Stage.behind_of_tokens hB
        obtain rfl : k = L := by omega
        refine ⟨.done k, ?_, ?_⟩
        · simp [h₀, Stage.tokens]
        · rw [historyOf_append, hh]
          simp [Stage.history, historyOf, Obs.tag]
      · have hframe : Lives t (h ++ (some (Obs.retired u)).toList) (B' + 0) :=
          hl.frame hut (by simp) (by simp) (by simp [Obs.tag])
        simpa using hframe

/-- At every moment every query is at one stage of its life. -/
theorem Itinerary.life {h : List Obs} {B : Multiset Token} (hi : Itinerary h B)
    (hd : Distinct h) (t : ℕ) : Lives t h B := by
  induction hi with
  | start => exact ⟨.unborn, rfl, rfl⟩
  | @move h B o B' _ hm ih =>
      have hpre : Distinct h := by
        simp only [Distinct, injections, List.filterMap_append, List.map_append] at hd
        exact (List.nodup_append.mp hd).1
      exact (ih hpre).step hm hd

end RidgeWalker.Urw
