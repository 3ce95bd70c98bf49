import Mathlib.Data.Nat.Find
import PointsTo.Proofs.Solver.Ranges

/-! What a budget changes. A run with a budget takes the steps of the run without one until it
stops, so the budget says only how many of them are taken. -/
namespace PointsTo

theorem Worklist.pop?_of_toList {w : Worklist} {b : Nat} {bs : List Nat} (h : w.toList = b :: bs) :
    ∃ v, w.pop? = some (b, v) ∧ v.toList = bs := by
  cases hpop : w.pop? with
  | none =>
    rw [pop?_eq_none.1 hpop] at h
    cases h
  | some next =>
    obtain ⟨rfl, hv⟩ := List.cons.inj ((pop?_eq_some hpop).symm.trans h)
    exact ⟨next.2, rfl, hv⟩

namespace Graph

variable {g : Graph} {seed : Facts} {budget : Option Nat} {p p' : Progress} {b k n fuel : Nat}
  {w : Worklist} {halt : Halt}

theorem step_of_empty (h : p.work.pop? = none) : g.step seed budget p = (some .settled, p) := by
  rw [step, h]

theorem step_of_spent (h : p.work.pop? = some (b, w)) (hk : k ≤ p.evaluations) :
    g.step seed (some k) p = (some .outOfBudget, p) := by
  simp [step, h, hk]

theorem step_of_pop (h : p.work.pop? = some (b, w)) (hbudget : ∀ k ∈ budget, p.evaluations < k) :
    g.step seed budget p = (none, g.evaluate seed b { p with work := w }) := by
  cases budget with
  | none => simp [step, h]
  | some k => simp [step, h, hbudget k rfl]

theorem iterate_of_empty (h : p.work.pop? = none) : (g.iterate seed budget n p).2 = p := by
  cases n with
  | zero => rfl
  | succ n => rw [iterate, step_of_empty h]

theorem evaluations_enqueueAll (xs : List Nat) (p : Progress) :
    (xs.foldl Progress.enqueue p).evaluations = p.evaluations := by
  induction xs generalizing p with
  | nil => rfl
  | cons x xs ih =>
    rw [List.foldl_cons, ih, Progress.enqueue]
    split <;> rfl

theorem evaluations_evaluate (g : Graph) (seed : Facts) (b : Nat) (p : Progress) :
    (g.evaluate seed b p).evaluations = p.evaluations + 1 := by
  rw [evaluate]
  split
  · rfl
  · exact evaluations_enqueueAll _ _

theorem iterate_some (fuel : Nat) (p : Progress) : (g.iterate seed (some k) fuel p).2 =
    (g.iterate seed none (min fuel (k - p.evaluations)) p).2 := by
  induction fuel generalizing p with
  | zero => rw [Nat.zero_min]; rfl
  | succ fuel ih =>
    cases hpop : p.work.pop? with
    | none => rw [iterate_of_empty hpop, iterate_of_empty hpop]
    | some next =>
      obtain ⟨b, w⟩ := next
      by_cases hk : k ≤ p.evaluations
      · rw [iterate, step_of_spent hpop hk, Nat.sub_eq_zero_of_le hk, Nat.min_zero]
        rfl
      · have hlt : p.evaluations < k := Nat.lt_of_not_le hk
        have hmin : min (fuel + 1) (k - p.evaluations) =
            min fuel (k - (p.evaluations + 1)) + 1 := by
          omega
        rw [iterate, step_of_pop hpop (by simpa using hlt), hmin, iterate,
          step_of_pop hpop (by simp)]
        simp only [ih, evaluations_evaluate]

/-- A run halts by itself exactly if no block is due. -/
theorem settled_iff (h : g.iterate seed budget fuel p = (some halt, p')) :
    halt = .settled ↔ p'.work.pop? = none := by
  induction fuel generalizing p with
  | zero => cases h
  | succ fuel ih =>
    rw [iterate, step] at h
    cases hpop : p.work.pop? with
    | none =>
      rw [hpop] at h
      cases h
      simp [hpop]
    | some next =>
      rw [hpop] at h
      by_cases hbudget : budget.any (· ≤ p.evaluations) = true
      · simp only [hbudget, if_true] at h
        cases h
        simp [hpop]
      · simp only [hbudget, Bool.false_eq_true, if_false] at h
        exact ih h

/-- How the run without a budget stands after so many steps; it stays as it is when it ends. -/
def after (g : Graph) (seed : Facts) (n : Nat) : Progress :=
  (g.iterate seed none n (.start g seed)).2

theorem iterate_succ (n : Nat) (p : Progress) : (g.iterate seed none (n + 1) p).2 =
    (g.step seed none (g.iterate seed none n p).2).2 := by
  induction n generalizing p with
  | zero =>
    cases hpop : p.work.pop? with
    | none => rw [iterate_of_empty hpop, iterate_of_empty hpop, step_of_empty hpop]
    | some next => simp [iterate, step_of_pop hpop]
  | succ n ih =>
    cases hpop : p.work.pop? with
    | none => rw [iterate_of_empty hpop, iterate_of_empty hpop, step_of_empty hpop]
    | some next =>
      have hstep : g.step seed none p =
          (none, g.evaluate seed next.1 { p with work := next.2 }) := step_of_pop hpop (by simp)
      rw [iterate, hstep, iterate, hstep]
      exact ih _

theorem after_succ_of_pop (h : (g.after seed n).work.pop? = some (b, w)) :
    g.after seed (n + 1) = g.evaluate seed b { g.after seed n with work := w } := by
  rw [after, iterate_succ]
  exact congrArg Prod.snd (step_of_pop h (by simp))

theorem after_of_empty (h : (g.after seed n).work.pop? = none) (hle : n ≤ k) :
    g.after seed k = g.after seed n := by
  induction k, hle using Nat.le_induction with
  | base => rfl
  | succ k _ ih =>
    rw [after, iterate_succ]
    change (g.step seed none (g.after seed k)).2 = _
    rw [ih, step_of_empty h]

theorem evaluations_after (h : ∀ j < n, (g.after seed j).work.pop? ≠ none) :
    (g.after seed n).evaluations = n := by
  induction n with
  | zero => rfl
  | succ n ih =>
    obtain ⟨⟨b, w⟩, hpop⟩ := Option.ne_none_iff_exists'.1 (h n (Nat.lt_succ_self n))
    rw [after_succ_of_pop hpop, evaluations_evaluate]
    exact congrArg (· + 1) (ih fun j hj => h j (Nat.lt_succ_of_lt hj))

theorem stepped_after (hg : g.WellFormed) (h : (g.after seed n).work.pop? = some (b, w)) :
    ∃ added, Progress.Stepped g seed (g.after seed n) b w added (g.after seed (n + 1)) := by
  obtain ⟨done, hinv⟩ : ∃ done, Progress.Invariant g seed done (g.after seed n) :=
    Progress.iterate_invariant hg seed none n
  rw [after_succ_of_pop h]
  exact hinv.stepped hg (Worklist.pop?_eq_some h)

/-- Every block is taken once before any block is taken again. -/
theorem pop_after (hg : g.WellFormed) (hn : n < g.size) :
    ∃ w, (g.after seed n).work.pop? = some (n, w) := by
  have hwork : ∀ k ≤ n, ∃ rest,
      (g.after seed k).work.toList = List.range' k (g.size - k) ++ rest := by
    intro k hk
    induction k with
    | zero => exact ⟨[], by simp [after, iterate, Progress.start, List.range_eq_range']⟩
    | succ k ih =>
      obtain ⟨rest, hrest⟩ := ih (Nat.le_of_succ_le hk)
      rw [show g.size - k = g.size - (k + 1) + 1 by omega, List.range'_succ] at hrest
      obtain ⟨w, hpop, hw⟩ := Worklist.pop?_of_toList hrest
      obtain ⟨added, hstep⟩ := stepped_after hg hpop
      exact ⟨rest ++ added, by rw [hstep.work, hw, List.append_eq, List.append_assoc]⟩
  obtain ⟨rest, hrest⟩ := hwork n (Nat.le_refl n)
  rw [show g.size - n = g.size - (n + 1) + 1 by omega, List.range'_succ] at hrest
  obtain ⟨w, hpop, -⟩ := Worklist.pop?_of_toList hrest
  exact ⟨w, hpop⟩

/-- The block that is taken gets what its copies make of the facts that enter it; the others keep
what they have. -/
theorem stateOf_after_succ (hg : g.WellFormed) (h : (g.after seed n).work.pop? = some (b, w)) :
    ∃ s, g.Enters seed (g.after seed n).stateOf b s ∧ (g.after seed (n + 1)).stateOf =
      Function.update (g.after seed n).stateOf b (s.run (g.copiesOf b)) := by
  obtain ⟨added, hstep⟩ := stepped_after hg h
  exact ⟨_, fun x l => Facts.holds_foldl_union, hstep.states⟩

theorem stateOf_after_of_le (hg : g.WellFormed) (hb : b < g.size) (hn : n ≤ b) :
    (g.after seed n).stateOf b = seed := by
  induction n with
  | zero => simp [after, iterate, Progress.stateOf, Progress.start, hb]
  | succ n ih =>
    obtain ⟨w, hpop⟩ := pop_after hg (Nat.lt_trans hn hb)
    obtain ⟨s, -, hstates⟩ := stateOf_after_succ hg hpop
    rw [hstates, Function.update_of_ne (Nat.ne_of_gt hn)]
    exact ih (Nat.le_of_succ_le hn)

/-- A block has what its copies made of the facts that entered it when it was last evaluated. -/
theorem stateOf_after (hg : g.WellFormed) (hb : b < g.size) (hn : b < n) :
    ∃ j < n, ∃ s, g.Enters seed (g.after seed j).stateOf b s ∧
      (g.after seed n).stateOf b = s.run (g.copiesOf b) := by
  induction n, hn using Nat.le_induction with
  | base =>
    obtain ⟨w, hpop⟩ := pop_after hg hb
    obtain ⟨s, hs, hstates⟩ := stateOf_after_succ hg hpop
    exact ⟨b, Nat.lt_succ_self b, s, hs, by rw [hstates, Function.update_self]⟩
  | succ n hn ih =>
    obtain ⟨j, hj, s, hs, hout⟩ := ih
    have hkept : (g.after seed (n + 1)).stateOf b = (g.after seed n).stateOf b →
        ∃ j < n + 1, ∃ s, g.Enters seed (g.after seed j).stateOf b s ∧
          (g.after seed (n + 1)).stateOf b = s.run (g.copiesOf b) :=
      fun hsame => ⟨j, Nat.lt_succ_of_lt hj, s, hs, hsame.trans hout⟩
    cases hpop : (g.after seed n).work.pop? with
    | none => exact hkept (by rw [after_of_empty hpop (Nat.le_succ n)])
    | some next =>
      obtain ⟨b', w⟩ := next
      obtain ⟨s', hs', hstates⟩ := stateOf_after_succ hg hpop
      by_cases hne : b = b'
      · subst hne
        exact ⟨n, Nat.lt_succ_self n, s', hs', by rw [hstates, Function.update_self]⟩
      · exact hkept (by rw [hstates, Function.update_of_ne hne])

structure EndsAfter (g : Graph) (seed : Facts) (e : Nat) : Prop where
  empty : (g.after seed e).work.pop? = none
  due : ∀ j < e, (g.after seed j).work.pop? ≠ none

variable {e : Nat}

theorem exists_endsAfter (hg : g.WellFormed) (seed : Facts) :
    ∃ e ≤ g.stepBound seed, g.EndsAfter seed e := by
  classical
  obtain ⟨halt, p, done, hrun, -, hsettled, hspent⟩ :=
    Progress.iterate_halts hg none _ (Progress.start_invariant g seed)
      (Progress.start_potential g seed)
  have hempty : (g.after seed (g.stepBound seed)).work.pop? = none := by
    rw [after, hrun]
    cases halt with
    | settled => exact Worklist.pop?_eq_none.2 (hsettled rfl)
    | outOfBudget => exact absurd rfl (hspent rfl)
  have hex : ∃ e, (g.after seed e).work.pop? = none := ⟨_, hempty⟩
  exact ⟨Nat.find hex, Nat.find_min' hex hempty, Nat.find_spec hex, fun j => Nat.find_min hex⟩

theorem EndsAfter.empty_iff (h : g.EndsAfter seed e) :
    (g.after seed k).work.pop? = none ↔ e ≤ k := by
  constructor
  · intro hempty
    by_contra hlt
    exact h.due k (Nat.lt_of_not_le hlt) hempty
  · intro hle
    rw [after_of_empty h.empty hle]
    exact h.empty

theorem EndsAfter.evaluations (h : g.EndsAfter seed e) (k : Nat) :
    (g.after seed k).evaluations = min k e := by
  by_cases hle : e ≤ k
  · rw [after_of_empty h.empty hle, evaluations_after h.due, Nat.min_eq_right hle]
  · have hlt : k < e := Nat.lt_of_not_le hle
    rw [evaluations_after fun j hj => h.due j (Nat.lt_trans hj hlt),
      Nat.min_eq_left (Nat.le_of_lt hlt)]

theorem EndsAfter.after_min (h : g.EndsAfter seed e) (k : Nat) :
    g.after seed k = g.after seed (min k e) := by
  rcases Nat.le_total k e with hle | hle
  · rw [Nat.min_eq_left hle]
  · rw [Nat.min_eq_right hle, after_of_empty h.empty hle]

theorem EndsAfter.size_le (hg : g.WellFormed) (h : g.EndsAfter seed e) : g.size ≤ e := by
  by_contra hlt
  obtain ⟨w, hpop⟩ := pop_after hg (Nat.lt_of_not_le hlt)
  rw [h.empty] at hpop
  cases hpop

/-- What a run with any budget returns, read off the run without one. -/
theorem EndsAfter.solve (hg : g.WellFormed) (h : g.EndsAfter seed e) (budget : Option Nat) :
    g.solve seed budget =
      ⟨(g.after seed (budget.getD e)).states, min (budget.getD e) e, e ≤ budget.getD e⟩ := by
  obtain ⟨halt, p, done, hrun, -⟩ :=
    Progress.iterate_halts hg budget _ (Progress.start_invariant g seed)
      (Progress.start_potential g seed)
  have hbound : e ≤ g.stepBound seed := by
    obtain ⟨e', hle, h'⟩ := exists_endsAfter hg seed
    exact Nat.le_trans (h.empty_iff.1 h'.empty) hle
  have hp : p = g.after seed (budget.getD e) := by
    have hsnd : p = (g.iterate seed budget (g.stepBound seed) (.start g seed)).2 := by rw [hrun]
    cases budget with
    | none => rw [hsnd, Option.getD_none]; exact after_of_empty h.empty hbound
    | some k =>
      rw [hsnd, iterate_some, Option.getD_some]
      change g.after seed (min (g.stepBound seed) (k - 0)) = _
      rw [Nat.sub_zero]
      rcases Nat.le_total k (g.stepBound seed) with hk | hk
      · rw [Nat.min_eq_right hk]
      · rw [Nat.min_eq_left hk, after_of_empty h.empty hbound,
          after_of_empty h.empty (Nat.le_trans hbound hk)]
  have hsettled : halt = .settled ↔ e ≤ budget.getD e := by
    rw [settled_iff hrun, hp, h.empty_iff]
  rw [Graph.solve, hrun, ← h.evaluations, ← hp]
  simp only [Option.some.injEq, hsettled]

end Graph

/-- What a run with any budget returns for a block: what the block made of the facts that entered it
at some moment of the run, or the seed if the budget was spent before. -/
theorem factsAfter_of_solve {g : Graph} (hg : g.WellFormed) (seed : Facts) (budget : Option Nat)
    {b : Nat} (hb : b < g.size) :
    let solution := g.solve seed budget
    (b < solution.evaluations → ∃ j < solution.evaluations, ∃ s,
      g.Enters seed (g.after seed j).stateOf b s ∧
        solution.factsAfter b = s.run (g.copiesOf b)) ∧
      (solution.evaluations ≤ b → solution.factsAfter b = seed) := by
  obtain ⟨e, -, hend⟩ := Graph.exists_endsAfter hg seed
  have hstate : (g.solve seed budget).factsAfter b =
      (g.after seed (min (budget.getD e) e)).stateOf b := by
    rw [hend.solve hg budget, ← hend.after_min]
    rfl
  have hcount : (g.solve seed budget).evaluations = min (budget.getD e) e := by
    rw [hend.solve hg budget]
  intro solution
  rw [show solution.factsAfter b = _ from hstate, show solution.evaluations = _ from hcount]
  exact ⟨fun hlt => Graph.stateOf_after hg hb hlt, fun hle => Graph.stateOf_after_of_le hg hb hle⟩

theorem size_le_evaluations {g : Graph} (hg : g.WellFormed) {seed : Facts} {budget : Option Nat}
    (h : (g.solve seed budget).converged = true) :
    g.size ≤ (g.solve seed budget).evaluations := by
  obtain ⟨e, -, hend⟩ := Graph.exists_endsAfter hg seed
  rw [hend.solve hg budget] at h ⊢
  rw [Nat.min_eq_right (of_decide_eq_true h)]
  exact hend.size_le hg

/-- At every moment of every run, a block that does not wait satisfies its own equation. -/
theorem iterate_settled {g : Graph} (hg : g.WellFormed) (seed : Facts) (budget : Option Nat)
    (n : Nat) {b : Nat} (hb : b < g.size) :
    let p := (g.iterate seed budget n (.start g seed)).2
    p.isQueued b = false →
      ∃ s, g.Enters seed p.stateOf b s ∧ p.stateOf b = s.run (g.copiesOf b) := by
  intro p hq
  obtain ⟨done, hinv⟩ := Progress.iterate_invariant hg seed budget n
  exact ⟨_, fun x l => Facts.holds_foldl_union, (hinv.settled b hb hq).2⟩

/-- How the runs with a budget stand to the run without one, which makes `e` evaluations. -/
structure Graph.BudgetCuts (g : Graph) (seed : Facts) (e : Nat) : Prop where
  full : g.solve seed none = ⟨(g.after seed e).states, e, true⟩
  ends : (g.after seed e).work.toList = []
  counts : ∀ k ≤ e, (g.after seed k).evaluations = k
  evaluations : ∀ k, (g.solve seed (some k)).evaluations = min k e
  converged : ∀ k, (g.solve seed (some k)).converged = true ↔ e ≤ k
  whole : ∀ k, e ≤ k → (g.solve seed (some k)).states = (g.solve seed none).states
  part : ∀ k < e, (g.solve seed (some k)).states = (g.after seed k).states
  settled : ∀ budget n, ∀ b < g.size,
    let p := (g.iterate seed budget n (.start g seed)).2
    p.isQueued b = false →
      ∃ s, g.Enters seed p.stateOf b s ∧ p.stateOf b = s.run (g.copiesOf b)
  fixpoint : ∀ budget, (g.solve seed budget).converged = true →
    g.Solves seed (g.solve seed budget).factsAfter

/-- A budget cuts the run short and changes nothing else. -/
theorem budget_cuts_short {g : Graph} (hg : g.WellFormed) (seed : Facts) :
    g.BudgetCuts seed (g.solve seed none).evaluations := by
  obtain ⟨e, -, hend⟩ := Graph.exists_endsAfter hg seed
  have hfull : g.solve seed none = ⟨(g.after seed e).states, e, true⟩ := by
    simpa using hend.solve hg none
  have hcut : ∀ k, g.solve seed (some k) = ⟨(g.after seed k).states, min k e, e ≤ k⟩ :=
    fun k => hend.solve hg (some k)
  have he : (g.solve seed none).evaluations = e := by rw [hfull]
  rw [he]
  constructor
  case full => exact hfull
  case ends => exact Worklist.pop?_eq_none.1 hend.empty
  case counts => exact fun k hk => (hend.evaluations k).trans (Nat.min_eq_left hk)
  case evaluations => exact fun k => by rw [hcut]
  case converged => exact fun k => by rw [hcut, decide_eq_true_iff]
  case whole =>
    intro k hk
    rw [hcut, hfull, Graph.after_of_empty hend.empty hk]
  case part => exact fun k _ => by rw [hcut]
  case settled => exact fun budget n b hb => iterate_settled hg seed budget n hb
  case fixpoint => exact fun budget hc => (converged_spec hg hc).1

theorem loop_budget_cuts_short : loopGraph.WellFormed ∧
    (loopGraph.solve loopSeed none).evaluations = 6 ∧
    (loopGraph.solve loopSeed (some 5)).converged = false ∧
    (loopGraph.solve loopSeed (some 5)).states = (loopGraph.after loopSeed 5).states ∧
    (loopGraph.solve loopSeed (some 6)).converged = true := by
  have hcuts := budget_cuts_short loopGraph_wellFormed loopSeed
  have he : (loopGraph.solve loopSeed none).evaluations = 6 := by decide +kernel
  rw [he] at hcuts
  refine ⟨loopGraph_wellFormed, he, ?_, hcuts.part 5 (by decide), (hcuts.converged 6).2 le_rfl⟩
  rw [Bool.eq_false_iff, ne_eq, hcuts.converged]
  decide

end PointsTo
