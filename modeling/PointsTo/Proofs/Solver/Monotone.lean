import PointsTo.Proofs.Solver.LeastSolution

/-! More edges and more seeded facts never take a fact from a solution. Copies kill facts, but what
a pointer holds after them is what one other pointer held before. -/
namespace PointsTo

namespace Graph

structure EdgesWithin (g g' : Graph) : Prop where
  blocks : g'.blocks = g.blocks
  successors : ∀ b, g.successors b ⊆ g'.successors b

theorem EdgesWithin.refl (g : Graph) : g.EdgesWithin g := by
  constructor
  · rfl
  · intro b
    exact OrderedSet.subset_refl _

variable {g g' : Graph} {seed seed' : Facts}

theorem EdgesWithin.closed (h : g.EdgesWithin g') (hg : g.WellFormed) (hg' : g'.WellFormed)
    (hseed : seed ⊆ seed') {F : Nat → Nat → Nat → Prop} (hF : g'.Closed seed' F) :
    g.Closed seed F := by
  intro b hb p l hp
  have hcopies : g'.copiesOf b = g.copiesOf b := by rw [copiesOf, copiesOf, h.blocks]
  have hsize : g'.size = g.size := by rw [size, size, h.blocks]
  apply hF b (hsize ▸ hb)
  rw [hcopies]
  rcases hp with hp | ⟨q, hq, hp⟩
  · exact Or.inl (hseed _ hp)
  · have hedge : b ∈ g.successors q := (hg.transpose q b).1 hq
    exact Or.inr ⟨q, (hg'.transpose q b).2 (h.successors q b hedge), hp⟩

end Graph

/-- Converged runs are monotone in the edges and in the seed. -/
theorem converged_mono {g g' : Graph} (hg : g.WellFormed) (hg' : g'.WellFormed)
    (hedges : g.EdgesWithin g') {seed seed' : Facts} (hseed : seed ⊆ seed')
    {budget budget' : Option Nat} (hc : (g.solve seed budget).converged = true)
    (hc' : (g'.solve seed' budget').converged = true) {b : Nat} (hb : b < g.size) :
    (g.solve seed budget).factsAfter b ⊆ (g'.solve seed' budget').factsAfter b := by
  obtain ⟨-, hleast⟩ := converged_spec hg hc
  obtain ⟨hsolves, -⟩ := converged_spec hg' hc'
  have hclosed := hedges.closed hg hg' hseed (Graph.closed_of_solves hsolves)
  rintro ⟨p, l⟩ hp
  exact hleast _ hclosed b hb p l hp

end PointsTo
