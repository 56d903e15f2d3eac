import RidgeWalker.Switch.Draining
import RidgeWalker.Dataflow.Execution
import RidgeWalker.Dataflow.Streams

/-!
# Fair merging

`merge_package` alternates between two inputs that both hold packages, and takes from one alone
otherwise.  Its flag remembers the input served last, and every turn of the loop that serves an
input sets it.

Main results:

- Theorem `Owes.local`: after serving one input the merger owes the next turn to the other one, as
  long as that one holds packages.
- Theorem `serves_alternately`: so no run serves an input twice past one that holds packages.
- Theorem `merge_package_fair`: the merger interleaves its inputs, is held up by a full output only,
  and is fair.
-/

namespace RidgeWalker.Switch

open Dataflow Network

/-! ## A merger by itself -/

/-- The streams of a single merger. -/
inductive MergerChan : Unit → Type where
  | in1 : MergerChan ()
  | in2 : MergerChan ()
  | out : MergerChan ()
deriving DecidableEq

/-- The inputs by number. -/
def MergerChan.input (i : Fin 2) : Chan MergerChan := ⟨(), ![MergerChan.in1, MergerChan.in2] i⟩

/-- The output. -/
def MergerChan.output : Chan MergerChan := ⟨(), MergerChan.out⟩

/-- The call of `merge_package`. -/
def mergerCall (w : Type) : PackageCall MergerChan (fun _ => w) () :=
  .merge MergerChan.in1 MergerChan.in2 MergerChan.out

/-- `merge_package` between streams that the surroundings fill and empty as they like. -/
def merger (w : Type) (depth : Chan MergerChan → ℕ) : Network Unit MergerChan (fun _ => w) where
  node := fun _ => (mergerCall w).call
  depth := depth

variable {w : Type} {depth : Chan MergerChan → ℕ}

theorem merger_pointToPoint : (merger w depth).PointToPoint := by
  constructor
  · rintro ⟨p, i⟩ ⟨q, j⟩ h
    have hij : MergerChan.input i = MergerChan.input j := h
    revert hij
    fin_cases i <;> fin_cases j
    · exact fun _ => rfl
    · exact fun hij => absurd hij (by decide)
    · exact fun hij => absurd hij (by decide)
    · exact fun _ => rfl
  · rintro ⟨p, i⟩ ⟨q, j⟩ h
    rfl

/-- The registers of the merger. -/
def mergerRegs (s : (merger w depth).State) : MergeRegs w := s.regs ()

/-- The input whose packages an operation observes. -/
def MergeRegs.polls : MergeRegs w → Option (Fin 2)
  | .poll _ => some 0
  | .weigh .. => some 1
  | _ => none

/-- The input that a step serves. -/
def served : (merger w depth).Label → Option (Fin 2)
  | .fire _ _ (.read i _) => some i
  | _ => none

/-- Input `i` holds a package whenever it is polled. -/
def HoldsAtPolls (i : Fin 2) (s : (merger w depth).State) : (merger w depth).Label → Prop
  | .fire _ _ _ => (mergerRegs s).polls = some i → (s.fifo (MergerChan.input i)).queue ≠ []
  | _ => True

/-! ## Debts -/

/-- The merger has served the other input last, and will serve input `i` next if that holds
packages. -/
def Owes (i : Fin 2) : MergeRegs w → Prop
  | .poll flag => flag = decide (i = 0)
  | .weigh flag in1Empty => flag = decide (i = 0) ∧ (i = 0 → in1Empty = false)
  | .fetch k => k = i
  | .emit k _ => k ≠ i

/-- Serving the other input makes a debt, and the operations of the merger keep it until input `i`
is served, when its polls find packages. -/
theorem Owes.local {i : Fin 2} {r r' : MergeRegs w}
    {e : Event (fun _ : Fin 2 => w) (fun _ : Unit => w) Empty} (h : Owes i r)
    (hl : (mergePackageKernel w).Local r e r')
    (hlook : ∀ x y, e = .look x y → r.polls = some i → x i = false)
    (hother : ∀ a, e ≠ .read i a) : Owes i r' := by
  have hy := hl.yields
  cases r with
  | poll flag =>
      obtain ⟨x, y, rfl, rfl⟩ := hy
      refine ⟨h, ?_⟩
      rintro rfl
      exact hlook x y rfl rfl
  | weigh flag in1Empty =>
      obtain ⟨x, y, rfl, rfl⟩ := hy
      obtain ⟨hflag, hfirst⟩ := h
      fin_cases i
      · obtain rfl : flag = true := hflag
        obtain rfl : in1Empty = false := hfirst rfl
        cases hsecond : x 1 <;> simp [mergeSelect, Owes, hsecond]
      · obtain rfl : flag = false := hflag
        have hsecond : x 1 = false := hlook x y rfl rfl
        cases in1Empty <;> simp [mergeSelect, Owes, hsecond]
  | fetch k =>
      obtain ⟨a, rfl, rfl⟩ := hy
      obtain rfl : k = i := h
      exact absurd rfl (hother a)
  | emit k item =>
      obtain ⟨-, rfl⟩ := hy
      have hki : k ≠ i := h
      show decide (k = 1) = decide (i = 0)
      revert hki
      fin_cases k <;> fin_cases i <;> simp

/-- A step that serves an input was told to, and holds the package then. -/
theorem step_serves {k : Fin 2} {s s' : (merger w depth).State} {l : (merger w depth).Label}
    (hs : (merger w depth).Step s l s') (hk : served l = some k) :
    mergerRegs s = .fetch k ∧ ∃ item, mergerRegs s' = .emit k item := by
  cases l with
  | put c a => cases hk
  | take c a => cases hk
  | fire p r e =>
      obtain ⟨rfl, hl, -⟩ := hs.fire_effect
      have hy : (mergePackageKernel w).Local (mergerRegs s) e (mergerRegs s') := hl
      generalize mergerRegs s = r at hy ⊢
      generalize mergerRegs s' = r' at hy ⊢
      cases e with
      | read i a =>
          obtain rfl : i = k := Option.some.inj hk
          cases r with
          | fetch i' =>
              obtain ⟨a', heq, rfl⟩ := hy.yields
              cases heq
              exact ⟨rfl, a, rfl⟩
          | poll flag => obtain ⟨x, y, heq, -⟩ := hy.yields; cases heq
          | weigh flag in1Empty => obtain ⟨x, y, heq, -⟩ := hy.yields; cases heq
          | emit i' item => obtain ⟨heq, -⟩ := hy.yields; cases heq
      | _ => cases hk

/-- A step that does not serve input `i` keeps the debt to it. -/
theorem step_owes {i : Fin 2} {s s' : (merger w depth).State} {l : (merger w depth).Label}
    (hs : (merger w depth).Step s l s') (hok : HoldsAtPolls i s l) (hserved : served l ≠ some i)
    (h : Owes i (mergerRegs s)) : Owes i (mergerRegs s') := by
  cases l with
  | put c a =>
      have hregs : mergerRegs s' = mergerRegs s := congrFun hs.put_regs ()
      rw [hregs]
      exact h
  | take c a =>
      have hregs : mergerRegs s' = mergerRegs s := congrFun hs.take_regs ()
      rw [hregs]
      exact h
  | fire p r e =>
      obtain ⟨rfl, hl, he⟩ := hs.fire_effect
      refine h.local hl ?_ ?_
      · rintro x y rfl hpoll
        have hqueue := hok hpoll
        obtain ⟨-, rfl, -⟩ := he.of_look
        exact List.isEmpty_eq_false_iff.mpr hqueue
      · rintro a rfl
        exact hserved rfl

/-- Two equal members in a row of a list with one more member. -/
theorem pair_infix_concat {A : Type} {a b : A} {l : List A} (h : [a, a] <:+: l ++ [b]) :
    [a, a] <:+: l ∨ (l.getLast? = some a ∧ b = a) := by
  rcases List.infix_concat_iff.mp h with ⟨init, hsuffix⟩ | hinfix
  · right
    have hsplit : (init ++ [a]) ++ [a] = l ++ [b] := by
      rw [List.append_assoc]
      exact hsuffix
    obtain ⟨hl, hab⟩ := List.append_inj' hsplit rfl
    rw [← hl]
    exact ⟨List.getLast?_concat, (List.singleton_inj.mp hab).symm⟩
  · exact Or.inl hinfix

/-- While input `i` holds packages at its polls, the other one is not served twice in a row. -/
theorem serves_alternately {i j : Fin 2} (hij : i ≠ j) {s s' : (merger w depth).State}
    {tr : List (merger w depth).Label}
    (hr : (merger w depth).GuardedRun (HoldsAtPolls i) s tr s') :
    ¬ [j, j] <:+: tr.filterMap served ∧
    ((tr.filterMap served).getLast? = some j → Owes i (mergerRegs s')) := by
  induction hr with
  | nil => simp
  | @snoc tr s₁ l s₂ _ hok hs ih =>
      obtain ⟨hnot, howes⟩ := ih
      cases hk : served l with
      | none =>
          have hlog : (tr ++ [l]).filterMap served = tr.filterMap served := by simp [hk]
          rw [hlog]
          refine ⟨hnot, fun hlast => step_owes hs hok (by simp [hk]) (howes hlast)⟩
      | some k =>
          have hlog : (tr ++ [l]).filterMap served = tr.filterMap served ++ [k] := by simp [hk]
          obtain ⟨hfetch, item, hemit⟩ := step_serves hs hk
          rw [hlog]
          constructor
          · intro htwice
            rcases pair_infix_concat htwice with hbefore | ⟨hlast, rfl⟩
            · exact hnot hbefore
            · have hdebt := howes hlast
              rw [hfetch] at hdebt
              exact hij (Eq.symm hdebt)
          · intro hlast
            obtain rfl : k = j := by simpa using hlast
            rw [hemit]
            exact hij.symm

/-! ## Progress -/

/-- The merger never waits for a package that is not there. -/
theorem merger_sure {s : (merger w depth).State} (hs : (merger w depth).Reachable s) :
    (mergerRegs s).Sure fun i => (s.fifo (MergerChan.input i)).queue := by
  obtain ⟨tr, hr⟩ := hs
  suffices hsure : (mergerCall w).Sure s.fifo (s.regs ()) from hsure
  induction hr with
  | nil => exact PackageCall.Sure.start _ (mergerCall w)
  | @snoc tr s l s' _ hs ih =>
      cases l with
      | fire p r e =>
          obtain ⟨rfl, hl, he⟩ := hs.fire_effect
          exact ih.local hl he
      | put c a =>
          have hregs : s'.regs = s.regs := hs.put_regs
          rw [hregs]
          refine ih.grow fun i => ?_
          cases hs with
          | put hw h =>
              by_cases hc : (mergerCall w).call.src i = c
              · subst hc
                simp
              · simp [Function.update_of_ne hc]
      | take c a =>
          have hregs : s'.regs = s.regs := hs.take_regs
          rw [hregs]
          refine ih.grow fun i => ?_
          cases hs with
          | take hr h =>
              have hc : (mergerCall w).call.src i ≠ c := hr () i
              simp [Function.update_of_ne hc]

/-- A merger can always go on, unless it holds a package and its output is full. -/
theorem merger_progress {s : (merger w depth).State} (hs : (merger w depth).Reachable s) :
    (∃ r e s', (merger w depth).Step s (.fire () r e) s') ∨
    (∃ i item, mergerRegs s = .emit i item) ∧
      depth MergerChan.output ≤ (s.fifo MergerChan.output).queue.length := by
  have hsure := merger_sure hs
  have hfire : ∀ {e r' f}, (mergePackageKernel w).Local (mergerRegs s) e r' →
      Effect depth (mergerCall w).call s.fifo e f →
      ∃ r e s', (merger w depth).Step s (.fire () r e) s' :=
    fun hl he => ⟨_, _, _, Step.fire hl he⟩
  cases hr : mergerRegs s with
  | poll flag =>
      exact Or.inl (hfire (.look (by rw [hr]; rfl) _ _) .look)
  | weigh flag in1Empty =>
      exact Or.inl (hfire (.look (by rw [hr]; rfl) _ _) .look)
  | fetch i =>
      rw [hr] at hsure
      have hqueue : (s.fifo (MergerChan.input i)).queue ≠ [] := hsure
      obtain ⟨a, q, hq⟩ := List.exists_cons_of_ne_nil hqueue
      have hsrc : (s.fifo ((mergerCall w).call.src i)).queue = a :: q := hq
      exact Or.inl (hfire (.read (by rw [hr]; rfl) a) (.read hsrc))
  | emit i item =>
      by_cases hfull : depth MergerChan.output ≤ (s.fifo MergerChan.output).queue.length
      · exact Or.inr ⟨⟨i, item, rfl⟩, hfull⟩
      · exact Or.inl (hfire (.write (by rw [hr]; rfl)) (.write (not_le.mp hfull)))

/-- For every depth of the streams and everything the surroundings do: the merger has sent an
order-preserving interleaving of what it has received, apart from a package in its registers, and of
all that was written to its inputs once nothing is on the way.  It is held up by a full output only.
And from then on, as long as an input holds packages whenever it is polled, the other input is not
served twice in a row. -/
theorem merge_package_fair (depth : Chan MergerChan → ℕ) {s : (merger w depth).State}
    (hs : (merger w depth).Reachable s) :
    Interleave (s.taken (MergerChan.input 0)) (s.taken (MergerChan.input 1))
      (s.written MergerChan.output ++ (mergerRegs s).pending) ∧
    ((∀ i, (s.fifo (MergerChan.input i)).queue = []) → (mergerRegs s).pending = [] →
      Interleave (s.written (MergerChan.input 0)) (s.written (MergerChan.input 1))
        (s.written MergerChan.output)) ∧
    ((∃ r e s', (merger w depth).Step s (.fire () r e) s') ∨
      (∃ i item, mergerRegs s = .emit i item) ∧
        depth MergerChan.output ≤ (s.fifo MergerChan.output).queue.length) ∧
    ∀ i j, i ≠ j → ∀ tr s', (merger w depth).GuardedRun (HoldsAtPolls i) s tr s' →
      ¬ [j, j] <:+: tr.filterMap served := by
  have hmerged : Interleave (s.taken (MergerChan.input 0)) (s.taken (MergerChan.input 1))
      (s.written MergerChan.output ++ (mergerRegs s).pending) :=
    mergePackageKernel_path (hs.path merger_pointToPoint ())
  refine ⟨hmerged, ?_, merger_progress hs, fun i j hij tr s' hr => (serves_alternately hij hr).1⟩
  intro hqueues hpending
  rw [hpending, List.append_nil] at hmerged
  rwa [State.taken_eq_written (hqueues 0), State.taken_eq_written (hqueues 1)] at hmerged

/-- Two packages on each input, then turns of the merger until it has served both. -/
def bothInputs : List (merger ℕ fun _ => 2).Action :=
  [.put (MergerChan.input 0) 10, .put (MergerChan.input 0) 11,
    .put (MergerChan.input 1) 20, .put (MergerChan.input 1) 21] ++
    List.replicate 8 (.fire () none)

/-- With both inputs waiting the merger begins with the second one and alternates. -/
theorem merge_package_fair_both : ∃ s : (merger ℕ fun _ => 2).State,
    s.written MergerChan.output = [20, 10] ∧
    Interleave (s.taken (MergerChan.input 0)) (s.taken (MergerChan.input 1))
      (s.written MergerChan.output ++ (mergerRegs s).pending) ∧
    ∀ i j, i ≠ j → ∀ tr s', (merger ℕ fun _ => 2).GuardedRun (HoldsAtPolls i) s tr s' →
      ¬ [j, j] <:+: tr.filterMap served := by
  obtain ⟨tr, s, hs⟩ : ∃ tr s, Network.execute (fun _ _ => True) bothInputs []
      (merger ℕ fun _ => 2).init = some (tr, s) := ⟨_, _, rfl⟩
  have hout : s.written MergerChan.output = [20, 10] := by
    cases hs
    decide +kernel
  obtain ⟨hmerged, -, -, hfair⟩ :=
    merge_package_fair (fun _ => 2) ⟨tr, (Network.execute_run .nil hs).run⟩
  exact ⟨s, hout, hmerged, hfair⟩

end RidgeWalker.Switch
