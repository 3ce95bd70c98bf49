import PointsTo.Proofs.Solver.Progress

/-! Pointers that no copy assigns. Every state of every run has for them what the seed has. -/
namespace PointsTo

namespace Graph

variable {g : Graph} {seed : Facts} {budget : Option Nat} {p : Progress} {n l : Nat}

theorem iterate_preserves {P : Progress → Prop} (hp : P p)
    (hstep : ∀ p b w, p.work.pop? = some (b, w) → P p → P (g.evaluate seed b { p with work := w }))
    (fuel : Nat) : P (g.iterate seed budget fuel p).2 := by
  induction fuel generalizing p with
  | zero => exact hp
  | succ fuel ih =>
    rw [iterate, step]
    cases hpop : p.work.pop? with
    | none => exact hp
    | some next =>
      obtain ⟨b, w⟩ := next
      by_cases hbudget : budget.any (· ≤ p.evaluations) = true
      · simp only [hbudget, if_true]
        exact hp
      · simp only [hbudget, Bool.false_eq_true, if_false]
        exact ih (hstep p b w hpop hp)

def Unassigned (g : Graph) (n : Nat) : Prop := ∀ b, ∀ c ∈ g.copiesOf b, c.target ≠ n

def KeepsSeed (g : Graph) (seed : Facts) (n : Nat) (p : Progress) : Prop :=
  p.states.size = g.size ∧ ∀ b < g.size, ∀ l, (p.stateOf b).Holds n l ↔ seed.Holds n l

theorem KeepsSeed.transfer (hn : g.Unassigned n) (h : g.KeepsSeed seed n p) (b l : Nat) :
    (g.transfer seed p.stateOf b).Holds n l ↔ seed.Holds n l := by
  rw [holds_transfer, sourceOf_of_not_target (hn b)]
  constructor
  · rintro (hs | ⟨q, -, hs⟩)
    · exact hs
    · by_cases hq : q < g.size
      · exact (h.2 q hq l).1 hs
      · have hempty : p.stateOf q = ∅ := by
          rw [Progress.stateOf, Array.getD_eq_getD_getElem?,
            Array.getElem?_eq_none (h.1 ▸ Nat.le_of_not_lt hq)]
          rfl
        rw [hempty] at hs
        exact absurd hs Facts.not_holds_empty
  · exact Or.inl

theorem states_enqueueAll (xs : List Nat) (p : Progress) :
    (xs.foldl Progress.enqueue p).states = p.states := by
  induction xs generalizing p with
  | nil => rfl
  | cons x xs ih =>
    rw [List.foldl_cons, ih, Progress.enqueue]
    split <;> rfl

theorem states_evaluate (g : Graph) (seed : Facts) (b : Nat) (p : Progress) :
    (g.evaluate seed b p).states = p.states ∨
      (g.evaluate seed b p).states = p.states.setIfInBounds b (g.transfer seed p.stateOf b) := by
  rw [evaluate]
  split
  · exact Or.inl rfl
  · exact Or.inr (states_enqueueAll _ _)

theorem KeepsSeed.evaluate (hn : g.Unassigned n) (h : g.KeepsSeed seed n p) (b : Nat)
    (w : Worklist) : g.KeepsSeed seed n (g.evaluate seed b { p with work := w }) := by
  have hsame : (g.evaluate seed b { p with work := w }).states = p.states →
      g.KeepsSeed seed n (g.evaluate seed b { p with work := w }) := by
    intro hs
    refine ⟨by rw [hs]; exact h.1, fun c hc l => ?_⟩
    have hstate : (g.evaluate seed b { p with work := w }).stateOf c = p.stateOf c := by
      simp only [Progress.stateOf, hs]
    rw [hstate]
    exact h.2 c hc l
  rcases states_evaluate g seed b { p with work := w } with hs | hs
  · exact hsame hs
  · by_cases hb : b < p.states.size
    · refine ⟨by rw [hs, Array.size_setIfInBounds]; exact h.1, fun c hc l => ?_⟩
      rw [Progress.stateOf_eq (p := p) hb hs, Function.update_apply]
      split
      · exact h.transfer hn b l
      · exact h.2 c hc l
    · apply hsame
      rw [hs]
      exact Array.setIfInBounds_eq_of_size_le (Nat.le_of_not_lt hb)

theorem start_keepsSeed (g : Graph) (seed : Facts) (n : Nat) :
    g.KeepsSeed seed n (.start g seed) := by
  refine ⟨by simp [Progress.start], fun b hb l => ?_⟩
  simp [Progress.stateOf, Progress.start, Array.getD_eq_getD_getElem?, hb]

/-- At every moment of a run, a pointer that no copy assigns has what the seed has. -/
theorem iterate_keepsSeed (hn : g.Unassigned n) (seed : Facts) (budget : Option Nat) (fuel : Nat) :
    g.KeepsSeed seed n (g.iterate seed budget fuel (.start g seed)).2 :=
  iterate_preserves (start_keepsSeed g seed n) (fun _ b w _ h => h.evaluate hn b w) fuel

end Graph

end PointsTo
