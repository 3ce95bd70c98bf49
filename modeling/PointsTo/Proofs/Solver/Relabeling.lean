import Mathlib.Data.List.Nodup
import Mathlib.Logic.Equiv.Defs
import PointsTo.Proofs.Facts
import PointsTo.Solver

/-! Giving the sites other numbers. Copies move sites without looking at them, so a run from a
relabeled seed goes through the relabeled states of the run from the seed itself, step by step. -/
namespace PointsTo

variable {τ : Equiv.Perm Nat}

namespace Facts

def relabel (τ : Equiv.Perm Nat) (s : Facts) : Facts :=
  .ofList (s.toList.map fun fact => ⟨fact.pointer, τ fact.site⟩)

variable {s t : Facts} {p l : Nat}

@[simp] theorem holds_relabel : (s.relabel τ).Holds p (τ l) ↔ s.Holds p l := by
  rw [Holds, relabel, OrderedSet.mem_ofList, List.mem_map]
  constructor
  · rintro ⟨⟨q, k⟩, hmem, heq⟩
    obtain ⟨hq, hk⟩ := Fact.mk.inj heq
    obtain rfl : q = p := hq
    obtain rfl : k = l := τ.injective hk
    exact hmem
  · intro hmem
    exact ⟨⟨p, l⟩, hmem, rfl⟩

theorem eq_relabel (h : ∀ p l, t.Holds p (τ l) ↔ s.Holds p l) : t = s.relabel τ := by
  apply ext
  intro p l
  obtain ⟨l, rfl⟩ := τ.surjective l
  rw [h, holds_relabel]

@[simp] theorem relabel_inj : s.relabel τ = t.relabel τ ↔ s = t := by
  constructor
  · intro heq
    apply ext
    intro p l
    rw [← holds_relabel (τ := τ), heq, holds_relabel]
  · rintro rfl
    rfl

theorem relabel_union (s t : Facts) : s.relabel τ ∪ t.relabel τ = (s ∪ t).relabel τ := by
  apply eq_relabel
  simp

theorem relabel_run (s : Facts) (cs : List Copy) :
    (s.relabel τ).run cs = (s.run cs).relabel τ := by
  apply List.foldl_hom (relabel τ)
  intro s c
  apply eq_relabel
  intro p l
  rw [holds_copy, holds_copy]
  by_cases hp : p = c.target
  · rw [if_pos hp, if_pos hp, holds_relabel]
  · rw [if_neg hp, if_neg hp, holds_relabel]

theorem relabel_perm (s : Facts) :
    (s.relabel τ).toList.Perm (s.toList.map fun fact => ⟨fact.pointer, τ fact.site⟩) := by
  apply (List.perm_ext_iff_of_nodup (OrderedSet.nodup_toList _) ?_).2
  · intro fact
    rw [← OrderedSet.mem_def, relabel, OrderedSet.mem_ofList]
  · apply (OrderedSet.nodup_toList s).map
    rintro ⟨p, l⟩ ⟨q, k⟩ heq
    obtain ⟨hp, hl⟩ := Fact.mk.inj heq
    rw [Fact.mk.injEq]
    exact ⟨hp, τ.injective hl⟩

theorem size_relabel (s : Facts) : (s.relabel τ).size = s.size := by
  rw [OrderedSet.size, (relabel_perm s).length_eq, List.length_map, OrderedSet.size]

theorem nodup_eraseDups (xs : List Nat) : xs.eraseDups.Nodup := by
  induction hn : xs.length using Nat.strongRecOn generalizing xs with
  | _ n ih =>
    cases xs with
    | nil => exact .nil
    | cons x xs =>
      rw [List.eraseDups_cons, List.nodup_cons]
      constructor
      · intro hmem
        simpa using (List.mem_filter.1 (List.mem_eraseDups.1 hmem)).2
      · have hle := List.length_filter_le (fun y => !y == x) xs
        rw [List.length_cons] at hn
        exact ih _ (by omega) _ rfl

theorem length_sites_relabel (s : Facts) : ((s.relabel τ).toList.map (·.site)).eraseDups.length =
    (s.toList.map (·.site)).eraseDups.length := by
  have hsites : ((s.relabel τ).toList.map (·.site)).Perm ((s.toList.map (·.site)).map τ) := by
    rw [List.map_map]
    have hperm := (relabel_perm (τ := τ) s).map (·.site)
    rwa [List.map_map] at hperm
  have hdistinct : ((s.relabel τ).toList.map (·.site)).eraseDups.Perm
      ((s.toList.map (·.site)).eraseDups.map τ) := by
    apply (List.perm_ext_iff_of_nodup (nodup_eraseDups _)
      ((nodup_eraseDups _).map τ.injective)).2
    intro l
    rw [List.mem_eraseDups, hsites.mem_iff]
    simp only [List.mem_map, List.mem_eraseDups]
  rw [hdistinct.length_eq, List.length_map]

end Facts

namespace Progress

def relabel (τ : Equiv.Perm Nat) (p : Progress) : Progress :=
  { p with states := p.states.map (Facts.relabel τ) }

variable (p : Progress) (b : Nat)

theorem stateOf_relabel : (p.relabel τ).stateOf b = (p.stateOf b).relabel τ := by
  rw [stateOf, stateOf, relabel, Array.getD_eq_getD_getElem?, Array.getD_eq_getD_getElem?,
    Array.getElem?_map]
  cases p.states[b]? <;> rfl

theorem enqueue_relabel : (p.relabel τ).enqueue b = (p.enqueue b).relabel τ := by
  have hqueued : (p.relabel τ).isQueued b = p.isQueued b := rfl
  unfold enqueue
  rw [hqueued]
  by_cases hb : p.isQueued b = true
  · rw [if_pos hb, if_pos hb]
  · rw [if_neg hb, if_neg hb]
    rfl

theorem start_relabel (g : Graph) (seed : Facts) :
    start g (seed.relabel τ) = (start g seed).relabel τ := by
  simp [start, relabel]

end Progress

namespace Graph

variable (g : Graph) (seed : Facts) (p : Progress) (b : Nat)

theorem transfer_relabel : g.transfer (seed.relabel τ) (p.relabel τ).stateOf b =
    (g.transfer seed p.stateOf b).relabel τ := by
  have hunion : (g.predecessors b).toList.foldl (fun s q => s ∪ (p.relabel τ).stateOf q)
      (seed.relabel τ) = ((g.predecessors b).toList.foldl (fun s q => s ∪ p.stateOf q)
        seed).relabel τ := by
    apply List.foldl_hom (Facts.relabel τ)
    intro s q
    rw [Progress.stateOf_relabel, Facts.relabel_union]
  rw [transfer, transfer, hunion, Facts.relabel_run]

theorem evaluate_relabel :
    g.evaluate (seed.relabel τ) b (p.relabel τ) = (g.evaluate seed b p).relabel τ := by
  have hwake : ∀ p : Progress, (g.successors b).toList.foldl Progress.enqueue (p.relabel τ) =
      ((g.successors b).toList.foldl Progress.enqueue p).relabel τ :=
    fun p => List.foldl_hom (Progress.relabel τ) fun p c => p.enqueue_relabel c
  unfold evaluate
  dsimp only
  -- the block is taken from the queue before its facts are looked at
  generalize htaken : ({ p with
    queued := p.queued.setIfInBounds b false
    evaluations := p.evaluations + 1 } : Progress) = taken
  have htaken' : ({ p.relabel τ with
      queued := (p.relabel τ).queued.setIfInBounds b false
      evaluations := (p.relabel τ).evaluations + 1 } : Progress) = taken.relabel τ := by
    rw [← htaken]
    rfl
  rw [htaken', transfer_relabel, Progress.stateOf_relabel]
  by_cases hsame : g.transfer seed taken.stateOf b = taken.stateOf b
  · rw [if_pos hsame, if_pos (Facts.relabel_inj.2 hsame)]
  · rw [if_neg hsame, if_neg fun heq => hsame (Facts.relabel_inj.1 heq), ← hwake]
    congr 1
    simp [Progress.relabel, Array.map_setIfInBounds]

theorem step_relabel (budget : Option Nat) : g.step (seed.relabel τ) budget (p.relabel τ) =
    ((g.step seed budget p).1, (g.step seed budget p).2.relabel τ) := by
  have hwork : (p.relabel τ).work.pop? = p.work.pop? := rfl
  have hspent : (p.relabel τ).evaluations = p.evaluations := rfl
  unfold step
  rw [hwork]
  cases p.work.pop? with
  | none => rfl
  | some next =>
    obtain ⟨b, work⟩ := next
    dsimp only
    rw [hspent]
    by_cases hbudget : budget.any (· ≤ p.evaluations) = true
    · rw [if_pos hbudget, if_pos hbudget]
    · rw [if_neg hbudget, if_neg hbudget]
      exact Prod.ext rfl (g.evaluate_relabel seed { p with work } b)

theorem iterate_relabel (budget : Option Nat) (fuel : Nat) :
    g.iterate (seed.relabel τ) budget fuel (p.relabel τ) =
      ((g.iterate seed budget fuel p).1, (g.iterate seed budget fuel p).2.relabel τ) := by
  induction fuel generalizing p with
  | zero => rfl
  | succ fuel ih =>
    rw [iterate, iterate, step_relabel]
    generalize g.step seed budget p = next
    obtain ⟨halt, p'⟩ := next
    cases halt with
    | some halt => rfl
    | none => exact ih p'

end Graph

def Solution.relabel (τ : Equiv.Perm Nat) (s : Solution) : Solution :=
  { s with states := s.states.map (Facts.relabel τ) }

/-- The solver evaluates the same blocks whatever numbers the sites have. -/
theorem Graph.solve_relabel (g : Graph) (seed : Facts) (budget : Option Nat) :
    g.solve (seed.relabel τ) budget = (g.solve seed budget).relabel τ := by
  have hbound : g.stepBound (seed.relabel τ) = g.stepBound seed := by
    rw [stepBound, stepBound, Facts.size_relabel, Facts.length_sites_relabel]
  unfold solve
  rw [hbound, Progress.start_relabel, iterate_relabel]
  rfl

end PointsTo
