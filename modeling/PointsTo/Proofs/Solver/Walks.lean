import PointsTo.Proofs.Solver.LeastSolution

/-! The solution as a join over walks. Copies keep unions, so joining states at blocks loses
nothing against following each walk on its own. -/
namespace PointsTo

variable {g : Graph} {seed : Facts}

theorem edge_subset_of_solves (hg : g.WellFormed) {f : Nat → Facts} (h : g.Solves seed f)
    {b c : Nat} (hc : c ∈ g.successors b) : (f b).run (g.copiesOf c) ⊆ f c := by
  rintro ⟨p, l⟩ hp
  exact Graph.closed_of_solves h c (hg.edge_inside b c hc).2 p l
    (Or.inr ⟨b, (hg.transpose b c).2 hc, Facts.holds_run.1 hp⟩)

theorem walk_subset_of_solves (hg : g.WellFormed) {f : Nat → Facts} (h : g.Solves seed f)
    {bs : List Nat} {b : Nat} (hw : g.Walk bs b) : seed.run (g.copiesAlong bs) ⊆ f b := by
  induction hw with
  | start hb =>
    rintro ⟨p, l⟩ hp
    rw [Graph.copiesAlong_singleton] at hp
    exact Graph.closed_of_solves h _ hb p l (Or.inl (Facts.holds_run.1 hp))
  | @step bs b c hw hc ih =>
    rw [Graph.copiesAlong_append, Graph.copiesAlong_singleton, Facts.run_append]
    exact OrderedSet.subset_trans (Facts.run_subset_run ih _) (edge_subset_of_solves hg h hc)

/-- What walks bring to their last blocks is all that blocks hand on. -/
theorem closed_walks (hg : g.WellFormed) : g.Closed seed fun b p l =>
    ∃ bs, g.Walk bs b ∧ (seed.run (g.copiesAlong bs)).Holds p l := by
  rintro b hb p l (hs | ⟨q, hq, bs, hw, hs⟩)
  · refine ⟨[b], .start hb, ?_⟩
    rw [Graph.copiesAlong_singleton]
    exact Facts.holds_run.2 hs
  · refine ⟨bs ++ [b], .step hw ((hg.transpose q b).1 hq), ?_⟩
    rw [Graph.copiesAlong_append, Graph.copiesAlong_singleton, Facts.run_append]
    exact Facts.holds_run.2 hs

/-- A converged run finds exactly the facts that some walk brings along from the seed. -/
theorem converged_holds_iff_walk (hg : g.WellFormed) {budget : Option Nat}
    (hc : (g.solve seed budget).converged = true) {b : Nat} (hb : b < g.size) (p l : Nat) :
    ((g.solve seed budget).factsAfter b).Holds p l ↔
      ∃ bs, g.Walk bs b ∧ (seed.run (g.copiesAlong bs)).Holds p l := by
  obtain ⟨hsolves, hleast⟩ := converged_spec hg hc
  constructor
  · exact hleast _ (closed_walks hg) b hb p l
  · rintro ⟨bs, hw, hp⟩
    exact walk_subset_of_solves hg hsolves hw _ hp

/-- The solution is the join over all walks, for the run without a budget, which converges, and
for every run that converges within its budget. -/
theorem solution_holds_iff_walk (hg : g.WellFormed) (seed : Facts) {b : Nat} (hb : b < g.size)
    (p l : Nat) :
    (g.solve seed none).converged = true ∧
      ∀ budget, (g.solve seed budget).converged = true →
        (((g.solve seed budget).factsAfter b).Holds p l ↔
          ∃ bs, g.Walk bs b ∧ (seed.run (g.copiesAlong bs)).Holds p l) := by
  obtain ⟨_, _, -, -, -, -, hnone⟩ := solve_spec hg seed none
  exact ⟨hnone rfl, fun budget hc => converged_holds_iff_walk hg hc hb p l⟩

theorem loop_holds_iff_walk : loopGraph.WellFormed ∧ 0 < loopGraph.size ∧
    (((loopGraph.solve loopSeed none).factsAfter 0).Holds 0 9 ↔
      ∃ bs, loopGraph.Walk bs 0 ∧ (loopSeed.run (loopGraph.copiesAlong bs)).Holds 0 9) ∧
    ((loopGraph.solve loopSeed none).factsAfter 0).Holds 0 9 := by
  have hb : 0 < loopGraph.size := by decide +kernel
  obtain ⟨hc, h⟩ := solution_holds_iff_walk loopGraph_wellFormed loopSeed hb 0 9
  exact ⟨loopGraph_wellFormed, hb, h none hc, by decide +kernel⟩

end PointsTo
