import PointsTo.Proofs.Collected
import PointsTo.Proofs.Registered
import PointsTo.Proofs.Solver.Monotone

/-! The two seeds compared. Solutions are monotone, so what an analysis seeded at allocations finds,
it finds as well when it is seeded everywhere. Answers are monotone only where something is found:
a test point without labels is answered with all of them. -/
namespace PointsTo

def Solution.Below (n : Nat) (s s' : Solution) : Prop :=
  ∀ b < n, ∃ t t', s.states[b]? = some t ∧ s'.states[b]? = some t' ∧ t ⊆ t'

theorem solve_size {g : Graph} (hg : g.WellFormed) (seed : Facts) (budget : Option Nat) :
    (g.solve seed budget).states.size = g.size := by
  obtain ⟨p, done, hinvariant, -, hstates, -, -⟩ := solve_spec hg seed budget
  rw [hstates]
  exact hinvariant.states_size

theorem converged_below {g g' : Graph} (hg : g.WellFormed) (hg' : g'.WellFormed)
    (hedges : g.EdgesWithin g') {seed seed' : Facts} (hseed : seed ⊆ seed')
    {budget budget' : Option Nat} (hc : (g.solve seed budget).converged = true)
    (hc' : (g'.solve seed' budget').converged = true) :
    (g.solve seed budget).Below g.size (g'.solve seed' budget') := by
  intro b hb
  have hsize : g'.size = g.size := by rw [Graph.size, Graph.size, hedges.blocks]
  have hb₁ : b < (g.solve seed budget).states.size := by
    rw [solve_size hg]
    exact hb
  have hb₂ : b < (g'.solve seed' budget').states.size := by
    rw [solve_size hg', hsize]
    exact hb
  exact ⟨_, _, Solution.getElem?_states hb₁, Solution.getElem?_states hb₂,
    converged_mono hg hg' hedges hseed hc hc' hb⟩

section Answers

variable {g : Graph} {s s' : Solution} {sites : Sites} {declared : OrderedSet Int}
  {c c' : Collected} {id l : Int}

theorem FoundLabel.mono
    (hids : ∀ (b : Nat) (block : Block), g.blocks[b]? = some block → block.id = b)
    (hbelow : s.Below g.size s') (h : FoundLabel g s sites id l) : FoundLabel g s' sites id l := by
  obtain ⟨b, mark, hpoint, hid, state, hstate, site, hholds, hsite⟩ := h
  obtain ⟨t, t', ht, ht', hsub⟩ := hbelow b (Graph.lt_size_of_testPoint hids hpoint)
  obtain rfl := Option.some.inj (ht.symm.trans hstate)
  exact ⟨b, mark, hpoint, hid, t', ht', site, hsub _ hholds, hsite⟩

theorem fallbacks_anti
    (hids : ∀ (b : Nat) (block : Block), g.blocks[b]? = some block → block.id = b)
    (hbelow : s.Below g.size s') (h : collect g s sites declared = .ok c)
    (h' : collect g s' sites declared = .ok c') (hid : id ∈ c'.fallbacks) : id ∈ c.fallbacks := by
  obtain ⟨hanswered, hnone⟩ := (mem_fallbacks h').1 hid
  apply (mem_fallbacks h).2
  refine ⟨hanswered, ?_⟩
  intro l hl
  exact hnone l (hl.mono hids hbelow)

theorem answers_mono
    (hids : ∀ (b : Nat) (block : Block), g.blocks[b]? = some block → block.id = b)
    (hbelow : s.Below g.size s') (h : collect g s sites declared = .ok c)
    (h' : collect g s' sites declared = .ok c') {ls : OrderedSet Int}
    (hget : c.answers.get? id = some ls) (hid : id ∉ c.fallbacks) :
    ∃ ls', c'.answers.get? id = some ls' ∧ ls ⊆ ls' := by
  obtain ⟨hanswered, hlabels⟩ := (get?_collected h).1 hget
  rcases hlabels with ⟨⟨l, hl⟩, hall⟩ | ⟨hnone, -⟩
  · have hsome : (c'.answers.get? id).isSome = true := (isSome_collected h').2 hanswered
    obtain ⟨ls', hls'⟩ := Option.isSome_iff_exists.1 hsome
    refine ⟨ls', hls', ?_⟩
    rcases ((get?_collected h').1 hls').2 with ⟨-, hall'⟩ | ⟨hnone', -⟩
    · intro x hx
      exact (hall' x).2 (((hall x).1 hx).mono hids hbelow)
    · exact absurd (hl.mono hids hbelow) (hnone' l)
  · exact absurd ((mem_fallbacks h).2 ⟨hanswered, hnone⟩) hid

end Answers

namespace Analysis

variable {a : Analysis} {entry : MethodId} {c : Construction}

def withPolicy (a : Analysis) (policy : SeedPolicy) : Analysis :=
  { a with config.seedPolicy := policy }

theorem generators_within_seed (h : a.constructFrom entry = .ok c) :
    seed .atAllocation c.sites ⊆ seed .everywhere c.sites := by
  rcases constructFrom_eq_ok h with ⟨-, events, rfl⟩ | ⟨i, c', -, hc, events, rfl⟩
  · exact OrderedSet.subset_refl _
  · obtain ⟨fields, -, hsites, -⟩ := complete_eq_ok hc
    exact (Sites.ofMethods_spec hsites).2.1

/-- The second outcome is about the same graph and has all that the first one finds. -/
structure FindsMore (o o' : Outcome) : Prop where
  construction : o'.construction = o.construction
  converged : o.solution.converged = true ∧ o'.solution.converged = true
  states : o.solution.Below o.construction.graph.size o'.solution
  fallbacks : ∀ id ∈ o'.collected.fallbacks, id ∈ o.collected.fallbacks
  answers : ∀ id ls, o.answers.get? id = some ls → id ∉ o.collected.fallbacks →
    ∃ ls', o'.answers.get? id = some ls' ∧ ls ⊆ ls'

theorem finish_findsMore (hbudget : a.config.maxIterations = none)
    (hc : a.constructFrom entry = .ok c) {o o' : Outcome}
    (ho : (a.withPolicy .atAllocation).finish c = .ok o)
    (ho' : (a.withPolicy .everywhere).finish c = .ok o') : FindsMore o o' := by
  obtain ⟨hg, hregistered⟩ := constructFrom_registered hc
  have hids : ∀ (b : Nat) (block : Block), c.graph.blocks[b]? = some block → block.id = b :=
    fun b block hb => (hregistered.blocks b block hb).1
  obtain ⟨collected, hcollected, heq⟩ := bind_eq_ok.1 ho
  obtain rfl := pure_eq_ok.1 heq
  obtain ⟨collected', hcollected', heq⟩ := bind_eq_ok.1 ho'
  obtain rfl := pure_eq_ok.1 heq
  have hpolicies : ∀ policy, (a.withPolicy policy).config.maxIterations = none := fun _ => hbudget
  simp only [hpolicies] at hcollected hcollected' ⊢
  have hconverged : ∀ seed, (c.graph.solve seed none).converged = true :=
    fun seed => (solve_least_solution hg seed).1
  have hbelow := converged_below hg hg (.refl c.graph) (generators_within_seed hc)
    (hconverged _) (hconverged _)
  constructor
  case construction => rfl
  case converged => exact ⟨hconverged _, hconverged _⟩
  case states => exact hbelow
  case fallbacks =>
    intro id hid
    exact fallbacks_anti hids hbelow hcollected hcollected' hid
  case answers =>
    intro id ls hget hid
    exact answers_mono hids hbelow hcollected hcollected' hget hid

/-- Solutions are monotone in the edges and in the seed. So without a budget every analysis, if it
is seeded everywhere, finds all that it finds if it is seeded at allocations. It can fail only
before there is a graph. -/
theorem solutions_monotone :
    (∀ g g' : Graph, g.WellFormed → g'.WellFormed → g.EdgesWithin g' →
      ∀ seed seed' : Facts, seed ⊆ seed' →
        ((g.solve seed none).converged = true ∧ (g'.solve seed' none).converged = true) ∧
        ∀ budget budget', (g.solve seed budget).converged = true →
          (g'.solve seed' budget').converged = true →
            (g.solve seed budget).Below g.size (g'.solve seed' budget')) ∧
    ∀ a : Analysis, a.config.maxIterations = none →
      (∃ e, a.construct = .error e ∧ (a.withPolicy .atAllocation).run = .error e ∧
        (a.withPolicy .everywhere).run = .error e) ∨
      ∃ o o', (a.withPolicy .atAllocation).run = .ok o ∧
        (a.withPolicy .everywhere).run = .ok o' ∧ FindsMore o o' := by
  constructor
  · intro g g' hg hg' hedges seed seed' hseed
    refine ⟨⟨(solve_least_solution hg seed).1, (solve_least_solution hg' seed').1⟩, ?_⟩
    intro budget budget' hc hc'
    exact converged_below hg hg' hedges hseed hc hc'
  · intro a hbudget
    cases hconstruct : a.construct with
    | error e =>
      refine Or.inl ⟨e, rfl, ?_, ?_⟩
      · exact run_of_construct_error hconstruct
      · exact run_of_construct_error hconstruct
    | ok c =>
      obtain ⟨entry, -, hc⟩ := construct_eq_ok hconstruct
      obtain ⟨o, ho, hfinish⟩ := run_of_construct (a := a.withPolicy .atAllocation) hconstruct
      obtain ⟨o', ho', hfinish'⟩ := run_of_construct (a := a.withPolicy .everywhere) hconstruct
      exact Or.inr ⟨o, o', ho, ho', finish_findsMore hbudget hc hfinish hfinish'⟩

def earlyTest : Analysis :=
  .of ⟨[], [⟨"Main", "main", "", true, false, none, [], ["a", "b"], [.copy 1 (.var 0),
    .call (Hooks.default.testCall 1 1), .call (Hooks.default.allocCall 7), .new 0 "A",
    .call (Hooks.default.testCall 2 0), .ret none]⟩], none⟩
    { Config.default with maxIterations := none }

theorem earlyTest_findsMore :
    ∃ o o', (earlyTest.withPolicy .atAllocation).run = .ok o ∧
      (earlyTest.withPolicy .everywhere).run = .ok o' ∧ FindsMore o o' ∧
      o.collected.fallbacks = [1] ∧ o'.collected.fallbacks = [] := by
  obtain ⟨o, ho, hfallbacks⟩ : ∃ o, (earlyTest.withPolicy .atAllocation).run = .ok o ∧
    o.collected.fallbacks = [1] := exists_ok (by decide +kernel)
  obtain ⟨o', ho', hfallbacks'⟩ : ∃ o, (earlyTest.withPolicy .everywhere).run = .ok o ∧
    o.collected.fallbacks = [] := exists_ok (by decide +kernel)
  rcases solutions_monotone.2 earlyTest rfl with ⟨e, -, he, -⟩ | ⟨u, u', hu, hu', hmore⟩
  · rw [ho] at he
    cases he
  · cases ho.symm.trans hu
    cases ho'.symm.trans hu'
    exact ⟨o, o', ho, ho', hmore, hfallbacks, hfallbacks'⟩

end Analysis

end PointsTo
