import PointsTo.Proofs.Solver.Progress

/-! The solver halts, and without a budget it halts at the least solution of the graph's
equations. The steps are counted by a potential: the length of the queue, and for each edge how
many more times its source can change. -/
namespace PointsTo

def Solution.factsAfter (s : Solution) (b : Nat) : Facts := s.states.getD b ∅

theorem Solution.getElem?_states {s : Solution} {b : Nat} (hb : b < s.states.size) :
    s.states[b]? = some (s.factsAfter b) := by
  rw [factsAfter, Array.getD_eq_getD_getElem?, Array.getElem?_eq_getElem hb, Option.getD_some]

namespace Graph

def factBound (g : Graph) (seed : Facts) : Nat :=
  (g.copyCount + seed.size) * (seed.toList.map (·.site)).eraseDups.length

theorem stepBound_eq (g : Graph) (seed : Facts) :
    g.stepBound seed = g.size + g.edgeCount * (g.factBound seed + 1) + 1 := rfl

/-- The facts of copied or seeded pointers and seeded sites. -/
def conceivable (g : Graph) (seed : Facts) : List Fact :=
  ((g.blocks.toList.flatMap (·.copies)).map (·.target) ++ seed.toList.map (·.pointer)).flatMap
    fun p => (seed.toList.map (·.site)).eraseDups.map (⟨p, ·⟩)

theorem mem_conceivable {g : Graph} {seed : Facts} {p l : Nat} :
    ⟨p, l⟩ ∈ g.conceivable seed ↔
      ((∃ b ∈ g.blocks.toList, ∃ c ∈ b.copies, c.target = p) ∨ ∃ l', seed.Holds p l') ∧
        ∃ p', seed.Holds p' l := by
  simp only [conceivable, List.mem_flatMap, List.mem_append, List.mem_map, List.mem_eraseDups,
    Fact.mk.injEq]
  constructor
  · rintro ⟨q, hq, m, ⟨⟨p', _⟩, hm, rfl⟩, rfl, rfl⟩
    refine ⟨hq.imp ?_ ?_, p', hm⟩
    · rintro ⟨c, ⟨b, hb, hc⟩, rfl⟩
      exact ⟨b, hb, c, hc, rfl⟩
    · rintro ⟨⟨q, l'⟩, hs, rfl⟩
      exact ⟨l', hs⟩
  · rintro ⟨hp, p', hl⟩
    refine ⟨p, hp.imp ?_ ?_, l, ⟨_, hl, rfl⟩, rfl, rfl⟩
    · rintro ⟨b, hb, c, hc, rfl⟩
      exact ⟨c, ⟨b, hb, hc⟩, rfl⟩
    · rintro ⟨l', hs⟩
      exact ⟨_, hs, rfl⟩

theorem length_conceivable (g : Graph) (seed : Facts) :
    (g.conceivable seed).length = g.factBound seed := by
  simp only [conceivable, factBound, List.length_flatMap, List.length_map, copyCount]
  rw [List.map_const', List.sum_replicate, smul_eq_mul]
  simp [OrderedSet.size, List.length_flatMap]

theorem closed_conceivable (g : Graph) (seed : Facts) :
    g.Closed seed fun _ p l => ⟨p, l⟩ ∈ g.conceivable seed := by
  intro b _ p l h
  have hcase : ⟨sourceOf (g.copiesOf b) p, l⟩ ∈ g.conceivable seed := by
    rcases h with hs | ⟨_, _, hs⟩
    · exact mem_conceivable.2 ⟨Or.inr ⟨l, hs⟩, _, hs⟩
    · exact hs
  rcases sourceOf_eq_or_target (g.copiesOf b) p with he | ⟨c, hc, rfl⟩
  · rwa [he] at hcase
  · refine mem_conceivable.2 ⟨Or.inl ?_, (mem_conceivable.1 hcase).2⟩
    obtain ⟨block, hb, hc⟩ := mem_copiesOf.1 hc
    exact ⟨block, Array.mem_toList_iff.2 (Array.mem_of_getElem? hb), c, hc, rfl⟩

theorem sum_getD_le (xs : List Nat) (n : Nat) :
    ∑ i ∈ Finset.range n, xs.getD i 0 ≤ xs.sum := by
  induction xs generalizing n with
  | nil => simp
  | cons x xs ih =>
    cases n with
    | zero => simp
    | succ n =>
      rw [Finset.sum_range_succ', List.sum_cons]
      have := ih n
      simp only [List.getD_cons_succ, List.getD_cons_zero]
      omega

theorem sum_successors_le (g : Graph) :
    ∑ b ∈ Finset.range g.size, (g.successors b).size ≤ g.edgeCount := by
  have h := sum_getD_le (g.succs.toList.map fun s => s.toList.length) g.size
  rw [edgeCount, List.length_flatMap]
  refine le_trans (le_of_eq (Finset.sum_congr rfl fun b _ => ?_)) h
  rw [successors, OrderedSet.size, Array.getD_eq_getD_getElem?, List.getD_eq_getElem?_getD,
    List.getElem?_map, Array.getElem?_toList]
  cases g.succs[b]? <;> rfl

end Graph

namespace Progress

variable {g : Graph} {seed : Facts} {done : Finset Nat} {p : Progress}

def room (g : Graph) (seed : Facts) (done : Finset Nat) (p : Progress) (b : Nat) : Nat :=
  if b ∈ done then g.factBound seed - (p.stateOf b).size else g.factBound seed + 1

def potential (g : Graph) (seed : Facts) (done : Finset Nat) (p : Progress) : Nat :=
  p.work.toList.length + ∑ b ∈ Finset.range g.size, (g.successors b).size * room g seed done p b

theorem start_potential (g : Graph) (seed : Facts) :
    potential g seed ∅ (start g seed) < g.stepBound seed := by
  have hsum := Nat.mul_le_mul_right (g.factBound seed + 1) g.sum_successors_le
  rw [Finset.sum_mul] at hsum
  rw [Graph.stepBound_eq]
  simp only [potential, room, start, Worklist.toList_ofList, List.length_range,
    Finset.notMem_empty, if_false]
  omega

theorem Invariant.size_le (h : Invariant g seed done p) {b : Nat} (hb : b ∈ done) :
    (p.stateOf b).size ≤ g.factBound seed := by
  rw [← g.length_conceivable seed]
  exact OrderedSet.size_le_length fun ⟨q, l⟩ hq => h.least _ (g.closed_conceivable seed) b hb q l hq

theorem Stepped.room_of_ne {w : Worklist} {added : List Nat} {p' : Progress} {b c : Nat}
    (hstep : Stepped g seed p b w added p') (hc : c ≠ b) :
    room g seed (insert b done) p' c = room g seed done p c := by
  simp only [room, Finset.mem_insert, hc, false_or, hstep.states, Function.update_of_ne hc]

/-- The room that a block loses pays for the blocks that it wakes. -/
theorem Stepped.room_pays (hg : g.WellFormed) {w : Worklist} {added : List Nat} {p' : Progress}
    {b : Nat} (hstep : Stepped g seed p b w added p') (h : Invariant g seed done p)
    (hpop : p.work.toList = b :: w.toList) :
    added.length + (g.successors b).size * room g seed (insert b done) p' b ≤
      (g.successors b).size * room g seed done p b := by
  have hle := (hstep.invariant hg h hpop).size_le (Finset.mem_insert_self b done)
  have hself : p'.stateOf b = g.transfer seed p.stateOf b := by
    rw [hstep.states, Function.update_self]
  have hnew : room g seed (insert b done) p' b = g.factBound seed - (p'.stateOf b).size :=
    if_pos (Finset.mem_insert_self b done)
  have hlen := hstep.added_length
  rw [hself] at hle hnew
  rw [hnew]
  split at hlen
  · next heq =>
    refine le_trans (Nat.add_le_add_right hlen _) ?_
    rw [Nat.zero_add]
    refine Nat.mul_le_mul_left _ ?_
    rw [heq, room]
    split <;> omega
  · next hne =>
    have hgap : g.factBound seed - (g.transfer seed p.stateOf b).size + 1 ≤
        room g seed done p b := by
      rw [room]
      split
      · next hd =>
        have := OrderedSet.size_lt_size (h.ascending b hd) (Ne.symm hne)
        omega
      · omega
    calc added.length + (g.successors b).size * _
        ≤ (g.successors b).size + (g.successors b).size * _ := Nat.add_le_add_right hlen _
      _ = (g.successors b).size *
            (g.factBound seed - (g.transfer seed p.stateOf b).size + 1) := by
            rw [Nat.mul_succ, Nat.add_comm]
      _ ≤ _ := Nat.mul_le_mul_left _ hgap

theorem step_decreases_potential (hg : g.WellFormed) (h : Invariant g seed done p) {b : Nat}
    {w : Worklist} (hpop : p.work.toList = b :: w.toList) :
    potential g seed (insert b done) (g.evaluate seed b { p with work := w }) <
      potential g seed done p := by
  have hb : b < g.size := h.work_inside b (by simp [hpop])
  obtain ⟨added, hstep⟩ := h.stepped hg hpop
  have hother : ∀ c ∈ (Finset.range g.size).erase b, (g.successors c).size *
      room g seed (insert b done) (g.evaluate seed b { p with work := w }) c =
        (g.successors c).size * room g seed done p c := by
    intro c hc
    rw [hstep.room_of_ne (Finset.ne_of_mem_erase hc)]
  have hroom := hstep.room_pays hg h hpop
  have hlength := congrArg List.length hstep.work
  have hbefore := congrArg List.length hpop
  rw [List.length_append] at hlength
  rw [List.length_cons] at hbefore
  rw [potential, potential, ← Finset.add_sum_erase _ _ (Finset.mem_range.2 hb),
    ← Finset.add_sum_erase (Finset.range g.size) (fun c => _ * room g seed done p c)
      (Finset.mem_range.2 hb), Finset.sum_congr rfl hother]
  omega

theorem iterate_halts (hg : g.WellFormed) (budget : Option Nat) (fuel : Nat)
    (h : Invariant g seed done p) (hfuel : potential g seed done p < fuel) :
    ∃ halt p' done', g.iterate seed budget fuel p = (some halt, p') ∧ Invariant g seed done' p' ∧
      (halt = .settled → p'.work.toList = []) ∧ (halt = .outOfBudget → budget ≠ none) := by
  induction fuel generalizing p done with
  | zero => omega
  | succ fuel ih =>
    rw [Graph.iterate, Graph.step]
    cases hpop : p.work.pop? with
    | none =>
      exact ⟨.settled, p, done, rfl, h, fun _ => Worklist.pop?_eq_none.1 hpop, by simp⟩
    | some next =>
      obtain ⟨b, w⟩ := next
      by_cases hbudget : budget.any (· ≤ p.evaluations) = true
      · simp only [hbudget, if_true]
        refine ⟨.outOfBudget, p, done, rfl, h, by simp, fun _ => ?_⟩
        rintro rfl
        simp at hbudget
      · simp only [hbudget, Bool.false_eq_true, if_false]
        have hw := Worklist.pop?_eq_some hpop
        have hlt := step_decreases_potential hg h hw
        exact ih (step_preserves_invariant hg h hw) (by omega)

end Progress

/-- How every run ends. If it converged, no block waits any more. -/
theorem solve_spec {g : Graph} (hg : g.WellFormed) (seed : Facts) (budget : Option Nat) :
    ∃ p done, Progress.Invariant g seed done p ∧
      (g.solve seed budget).factsAfter = p.stateOf ∧ (g.solve seed budget).states = p.states ∧
      ((g.solve seed budget).converged = true → ∀ b, p.isQueued b = false) ∧
      (budget = none → (g.solve seed budget).converged = true) := by
  obtain ⟨halt, p, done, hrun, hinv, hsettled, hspent⟩ :=
    Progress.iterate_halts hg budget _ (Progress.start_invariant g seed)
      (Progress.start_potential g seed)
  have hsolve : g.solve seed budget = ⟨p.states, p.evaluations, some halt = some .settled⟩ := by
    rw [Graph.solve, hrun]
  refine ⟨p, done, hinv, by rw [hsolve]; rfl, by rw [hsolve], ?_, ?_⟩
  · intro hc
    rw [hsolve, decide_eq_true_eq, Option.some.injEq] at hc
    intro b
    by_contra hq
    have hmem := hinv.waiting b (by simpa using hq)
    simp [hsettled hc] at hmem
  · intro hb
    rw [hsolve]
    cases halt with
    | settled => rfl
    | outOfBudget => exact absurd hb (hspent rfl)

theorem converged_spec {g : Graph} (hg : g.WellFormed) {seed : Facts} {budget : Option Nat}
    (hc : (g.solve seed budget).converged = true) :
    g.Solves seed (g.solve seed budget).factsAfter ∧
      ∀ F, g.Closed seed F → ∀ b < g.size, ∀ q l,
        ((g.solve seed budget).factsAfter b).Holds q l → F b q l := by
  obtain ⟨p, done, hinv, hfacts, -, hsettled, -⟩ := solve_spec hg seed budget
  rw [hfacts]
  constructor
  · exact Graph.solves_iff.2 fun b hb => (hinv.settled b hb (hsettled hc b)).2
  · intro F hF b hb q l hq
    exact hinv.least F hF b (hinv.settled b hb (hsettled hc b)).1 q l hq

/-- A run without a budget converges, and it converges to the least solution. -/
theorem solve_least_solution {g : Graph} (hg : g.WellFormed) (seed : Facts) :
    (g.solve seed none).converged = true ∧ (g.solve seed none).states.size = g.size ∧
      g.IsLeastSolution seed (g.solve seed none).factsAfter := by
  obtain ⟨p, _, hinv, -, hstates, -, hnone⟩ := solve_spec hg seed none
  obtain ⟨hsolves, hleast⟩ := converged_spec hg (hnone rfl)
  refine ⟨hnone rfl, by rw [hstates]; exact hinv.states_size, hsolves, ?_⟩
  intro f' hf' b hb ⟨q, l⟩ hq
  exact hleast _ (Graph.closed_of_solves hf') b hb q l hq

/-- Two blocks in a loop, the second one also on its own. The first takes a fact of the seed
away, so the start lies above the solution. -/
def loopDraft : Draft :=
  (((Draft.empty.addBlock (.body 0 0 0 0) [⟨0, 1, .statement⟩] none).addBlock (.body 0 1 1 0)
    [⟨1, 2, .statement⟩] none).linkAll 0 [1]).linkAll 1 [0, 1]

def loopGraph : Graph := (loopDraft.close 0).toOption.getD .empty

def loopSeed : Facts := .ofList [⟨0, 7⟩, ⟨1, 8⟩, ⟨2, 9⟩]

theorem loopGraph_wellFormed : loopGraph.WellFormed := by
  have hd : loopDraft.WellFormed := rfl
  have hfreeze : loopDraft.freeze 0 [] = .ok loopGraph := by decide +kernel
  exact Draft.freeze_wellFormed hd hfreeze

theorem solve_loop_least : loopGraph.WellFormed ∧
    (loopGraph.solve loopSeed none).converged = true ∧
    (loopGraph.solve loopSeed none).states =
      #[.ofList [⟨0, 8⟩, ⟨0, 9⟩, ⟨1, 8⟩, ⟨1, 9⟩, ⟨2, 9⟩],
        .ofList [⟨0, 7⟩, ⟨0, 8⟩, ⟨0, 9⟩, ⟨1, 9⟩, ⟨2, 9⟩]] ∧
    loopGraph.IsLeastSolution loopSeed (loopGraph.solve loopSeed none).factsAfter := by
  obtain ⟨hc, _, hl⟩ := solve_least_solution loopGraph_wellFormed loopSeed
  exact ⟨loopGraph_wellFormed, hc, by decide +kernel, hl⟩

end PointsTo
