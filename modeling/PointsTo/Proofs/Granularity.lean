import PointsTo.Proofs.Registered
import PointsTo.Proofs.Solver.Pieces

/-! Seeded at allocations only, an analysis does not depend on where blocks begin and end. The seed
is about the pointers of allocations, and no copy assigns those. -/
namespace PointsTo

open Inliner

variable {a : Analysis} {entry : MethodId} {i : Inlined} {c : Construction} {p l : Nat}

theorem collect_pieces {g : Graph} (cut : g.Cut) {s s' : Solution} {sites : Sites}
    (hids : ∀ (b : Nat) (block : Block), g.blocks[b]? = some block → block.id = b)
    (hstates : ∀ b < g.size, ∃ state, s.states[b]? = some state ∧
      s'.states[cut.last b]? = some state) (declared : OrderedSet Int) :
    collect cut.graph s' sites declared = collect g s sites declared := by
  have hmarked : markedAnswers cut.graph s' sites = markedAnswers g s sites := by
    rw [markedAnswers, markedAnswers, cut.testPoints_graph hids, List.foldlM_map]
    refine foldlM_congr ?_ ∅
    rintro ⟨b, mark⟩ hpoint answers
    obtain ⟨state, hstate, hstate'⟩ := hstates b (Graph.lt_size_of_testPoint hids hpoint)
    have hfound : s.stateOf b = .ok state := orFault_eq_ok.2 hstate
    have hfound' : s'.stateOf (cut.last b) = .ok state := orFault_eq_ok.2 hstate'
    simp only [hfound, hfound']
  rw [collect, hmarked]
  rfl

namespace Analysis

theorem complete_seed_unassigned (hrun : a.inliner.run entry = .ok (some i))
    (h : a.complete i = .ok c) (hp : (seed .atAllocation c.sites).Holds p l) :
    c.graph.Unassigned p := by
  obtain ⟨hs, hle, -⟩ := sites_enumerate hrun h
  obtain ⟨pts, fieldsAt, hsteps, hcopies⟩ := complete_edgesAreSteps hrun h
  obtain ⟨al, hal, hn⟩ := (hs.generators p l).1 hp
  exact hcopies.unassigned hsteps (PointerTable.get?_of_le hle hn)

/-- No copy of a constructed graph assigns a pointer that is seeded at an allocation. -/
theorem seed_unassigned (h : a.constructFrom entry = .ok c)
    (hp : (seed .atAllocation c.sites).Holds p l) : c.graph.Unassigned p := by
  rcases constructFrom_eq_ok h with ⟨-, events, rfl⟩ | ⟨i, c', hrun, hc, events, rfl⟩
  · exact absurd hp Facts.not_holds_empty
  · have hunassigned : c'.graph.Unassigned p := complete_seed_unassigned hrun hc hp
    exact hunassigned

def solvePieces (a : Analysis) (cut : c.graph.Cut) : Solution :=
  cut.graph.solve (seed a.config.seedPolicy c.sites) a.config.maxIterations

/-- After the last piece of every block there are the facts of the block, and the same answers are
read off the pieces. -/
structure SameInPieces (a : Analysis) (o : Outcome) (cut : o.construction.graph.Cut) : Prop where
  converged : o.solution.converged = true ∧ (a.solvePieces cut).converged = true
  states : ∀ b < o.construction.graph.size, ∃ s, o.solution.states[b]? = some s ∧
    (a.solvePieces cut).states[cut.last b]? = some s
  collected : collect cut.graph (a.solvePieces cut) o.construction.sites
    (a.program.declaredTests a.hooks) = .ok o.collected

theorem states_of_pieces (hpolicy : a.config.seedPolicy = .atAllocation)
    (hbudget : a.config.maxIterations = none) (h : a.constructFrom entry = .ok c)
    (cut : c.graph.Cut) {b : Nat} (hb : b < c.graph.size) :
    ∃ s, (c.graph.solve (seed a.config.seedPolicy c.sites) a.config.maxIterations).states[b]? =
      some s ∧ (a.solvePieces cut).states[cut.last b]? = some s := by
  obtain ⟨hg, -⟩ := constructFrom_registered h
  have hseed : ∀ p l, (seed .atAllocation c.sites).Holds p l → c.graph.Unassigned p :=
    fun _ _ hp => seed_unassigned h hp
  rw [solvePieces, hpolicy, hbudget]
  obtain ⟨hc, hsize, -⟩ := solve_least_solution hg (seed .atAllocation c.sites)
  obtain ⟨hc', hsize', -⟩ := solve_least_solution (cut.graph_wellFormed hg)
    (seed .atAllocation c.sites)
  have hlast : cut.last b < cut.graph.size := by
    rw [Graph.Cut.size_graph]
    exact cut.last_lt hb
  refine ⟨_, Solution.getElem?_states (hsize.symm ▸ hb), ?_⟩
  rw [Solution.getElem?_states (hsize'.symm ▸ hlast), cut.factsAfter_last hg hseed hc hc' hb]

/-- Whatever graph an analysis constructs, with the seed at allocations and without a budget its
outcome is the same however the blocks are cut, also with one copy at most in every piece. -/
theorem run_same_in_pieces (hpolicy : a.config.seedPolicy = .atAllocation)
    (hbudget : a.config.maxIterations = none) (hconstruct : a.construct = .ok c) :
    ∃ o, a.run = .ok o ∧ o.construction = c ∧ (Graph.Cut.singles o.construction.graph).Fine ∧
      ∀ cut : o.construction.graph.Cut, a.SameInPieces o cut := by
  obtain ⟨entry, -, hc⟩ := construct_eq_ok hconstruct
  obtain ⟨hg, hregistered⟩ := constructFrom_registered hc
  obtain ⟨o, ho, -⟩ := finish_ok (a := a) hg hregistered
  have hrun : a.run = .ok o := by
    rw [run, hconstruct, ok_bind, ho]
    rfl
  obtain ⟨collected, hcollected, heq⟩ := bind_eq_ok.1 ho
  obtain rfl := pure_eq_ok.1 heq
  refine ⟨_, hrun, rfl, Graph.Cut.singles_fine _, fun cut => ?_⟩
  have hstates := fun b hb => states_of_pieces hpolicy hbudget hc cut (b := b) hb
  constructor
  case converged =>
    simp only [solvePieces, hbudget]
    exact ⟨(solve_least_solution hg _).1, (solve_least_solution (cut.graph_wellFormed hg) _).1⟩
  case states => exact hstates
  case collected =>
    have hids := fun b block hb => (hregistered.blocks b block hb).1
    exact (collect_pieces cut hids hstates _).trans hcollected

def looping (policy : SeedPolicy) : Analysis :=
  .of ⟨[], [⟨"Main", "main", "", true, false, none, [], ["a", "b", "c"], [.new 0 "A", .new 1 "B",
    .copy 0 (.var 1), .copy 2 (.var 0), .branch [2], .ret none]⟩], none⟩
    { Config.default with
      maxIterations := none
      seedPolicy := policy }

theorem looping_same_in_pieces :
    ∃ o, (looping .atAllocation).run = .ok o ∧ o.construction.graph.size = 3 ∧
      (Graph.Cut.singles o.construction.graph).graph.size = 5 ∧
      (looping .atAllocation).SameInPieces o (.singles o.construction.graph) := by
  obtain ⟨c, hc, hsize, hpieces⟩ : ∃ c, (looping .atAllocation).construct = .ok c ∧
    c.graph.size = 3 ∧ (Graph.Cut.singles c.graph).graph.size = 5 := exists_ok (by decide +kernel)
  obtain ⟨o, ho, rfl, -, hsame⟩ := run_same_in_pieces rfl rfl hc
  exact ⟨o, ho, hsize, hpieces, hsame _⟩

/-- Seeded everywhere, `a` has its own object again in front of the second copy, and hands it on. -/
theorem everywhere_differs_in_pieces :
    ∃ o, (looping .everywhere).run = .ok o ∧
      let cut := Graph.Cut.singles o.construction.graph
      o.solution.states[1]? ≠ ((looping .everywhere).solvePieces cut).states[cut.last 1]? :=
  exists_ok (by decide +kernel)

end Analysis

end PointsTo
