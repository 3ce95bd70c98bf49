import PointsTo.Proofs.Solver.LeastSolution
import PointsTo.Proofs.Solver.Unassigned

/-! The solver looks up blocks of its graph only, and its states never hold more pointers and sites
than the seed and the copies bring. -/
namespace PointsTo

def Facts.Within (s : Facts) (pointers sites : Nat) : Prop :=
  ∀ p l, s.Holds p l → p < pointers ∧ l < sites

variable {g : Graph} {seed : Facts} {n m : Nat}

namespace Progress

variable {done : Finset Nat} {p : Progress}

structure InRange (g : Graph) (p : Progress) : Prop where
  states : p.states.size = g.size
  queued : p.queued.size = g.size
  waiting : ∀ b ∈ p.work.toList, b < g.size

theorem Invariant.inRange (h : Invariant g seed done p) : p.InRange g where
  states := h.states_size
  queued := h.queued_size
  waiting := h.work_inside

theorem Invariant.within (h : Invariant g seed done p) (hseed : seed.Within n m)
    (hcopies : ∀ b, ∀ c ∈ g.copiesOf b, c.target < n) {b : Nat} (hb : b < g.size) :
    (p.stateOf b).Within n m := by
  have hclosed : g.Closed seed fun _ q l => q < n ∧ l < m := by
    intro b _ q l hq
    have hsource : sourceOf (g.copiesOf b) q < n ∧ l < m := by
      rcases hq with hs | ⟨_, -, hs⟩
      · exact hseed _ l hs
      · exact hs
    rcases sourceOf_eq_or_target (g.copiesOf b) q with heq | ⟨c, hc, rfl⟩
    · exact heq ▸ hsource
    · exact ⟨hcopies b c hc, hsource.2⟩
  by_cases hd : b ∈ done
  · exact h.least _ hclosed b hd
  · rw [h.fresh b hb hd]
    exact hseed

theorem iterate_invariant (hg : g.WellFormed) (seed : Facts) (budget : Option Nat) (fuel : Nat) :
    ∃ done, Invariant g seed done (g.iterate seed budget fuel (.start g seed)).2 := by
  refine Graph.iterate_preserves (P := fun p => ∃ done, Invariant g seed done p)
    ⟨∅, start_invariant g seed⟩ ?_ fuel
  rintro p b w hpop ⟨done, hp⟩
  exact ⟨_, step_preserves_invariant hg hp (Worklist.pop?_eq_some hpop)⟩

end Progress

theorem solve_within (hg : g.WellFormed) (budget : Option Nat) (hseed : seed.Within n m)
    (hcopies : ∀ b, ∀ c ∈ g.copiesOf b, c.target < n) :
    (g.solve seed budget).states.size = g.size ∧
      ∀ s ∈ (g.solve seed budget).states, s.Within n m := by
  obtain ⟨p, done, hp, -, hstates, -, -⟩ := solve_spec hg seed budget
  rw [hstates]
  refine ⟨hp.states_size, fun s hs => ?_⟩
  obtain ⟨b, hb, rfl⟩ := Array.mem_iff_getElem.1 hs
  have hstate : p.stateOf b = p.states[b] := by
    rw [Progress.stateOf, Array.getD_eq_getD_getElem?, Array.getElem?_eq_getElem hb,
      Option.getD_some]
  rw [← hstate]
  exact hp.within hseed hcopies (hp.states_size ▸ hb)

end PointsTo
