import PointsTo.Proofs.Registered
import PointsTo.Proofs.Renaming.Sites

/-! The order of the methods. A program whose methods stand in another order is inlined to the same
graph with the methods renamed, and has the same sites under other numbers. So it gives the same
answers and the same statistics. -/
namespace PointsTo

open Inliner

variable {σ : Renaming} {τ : Equiv.Perm Nat} {p q : Program}

namespace Program.Reordered

variable (h : p.Reordered σ q)

include h

theorem declaredTests (hooks : Recognizer) : q.declaredTests hooks = p.declaredTests hooks := by
  apply OrderedSet.ext
  intro id
  rw [mem_declaredTests, mem_declaredTests]
  constructor
  · rintro ⟨m, method, hm, hdeclares⟩
    obtain ⟨m, rfl⟩ := σ.surjective m
    rw [h] at hm
    exact ⟨m, method, hm, hdeclares⟩
  · rintro ⟨m, method, hm, hdeclares⟩
    exact ⟨σ m, method, (h m).trans hm, hdeclares⟩

theorem method {m : MethodId} {method : Method} (hm : p.method m = .ok method) :
    q.method (σ m) = .ok method :=
  orFault_eq_ok.2 ((h m).trans (orFault_eq_ok.1 hm))

theorem findIdx? {f : Method → Bool} (hone : ∀ m m' method method',
    p.method? m = some method → p.method? m' = some method' → f method = true →
      f method' = true → m = m') : q.methods.findIdx? f = (p.methods.findIdx? f).map σ := by
  have hfound : ∀ r : Program, (∀ m m' method method', r.method? m = some method →
      r.method? m' = some method' → f method = true → f method' = true → m = m') →
      ∀ m, r.methods.findIdx? f = some m ↔
        ∃ method, r.method? m = some method ∧ f method = true := by
    intro r hr m
    rw [List.findIdx?_eq_some_iff_getElem]
    constructor
    · rintro ⟨hlt, hf, -⟩
      exact ⟨_, List.getElem?_eq_getElem hlt, hf⟩
    · rintro ⟨method, hm, hf⟩
      obtain ⟨hlt, rfl⟩ := List.getElem?_eq_some_iff.1 hm
      refine ⟨hlt, hf, ?_⟩
      intro m' hm' hf'
      have heq := hr m' m _ _ (List.getElem?_eq_getElem (Nat.lt_trans hm' hlt)) hm hf' hf
      exact Nat.ne_of_lt hm' heq
  have hone' : ∀ m m' method method', q.method? m = some method → q.method? m' = some method' →
      f method = true → f method' = true → m = m' := by
    intro m m' method method' hm hm' hf hf'
    rw [← h.symm] at hm hm'
    exact σ.symm.injective (hone _ _ _ _ hm hm' hf hf')
  apply Option.ext
  intro m
  obtain ⟨m, rfl⟩ := σ.surjective m
  rw [hfound q hone', h m, Option.map_eq_some_iff]
  constructor
  · intro hm
    exact ⟨m, (hfound p hone m).2 hm, rfl⟩
  · rintro ⟨m', hm', heq⟩
    rw [σ.injective heq] at hm'
    exact (hfound p hone m).1 hm'

/-- If no class has two methods of one name, looking along the superclasses finds the same methods
in any order. -/
theorem hierarchy (hclasses : q.classes = p.classes)
    (hnames : (p.methods.map fun m => (m.owner, m.name)).Nodup) (r : MethodRef) :
    Resolver.hierarchy q r = (Resolver.hierarchy p r).map σ := by
  have hsuper := Program.superclassOf_congr hclasses
  have hin : ∀ owner, q.methodIn r owner = (p.methodIn r owner).map σ := by
    intro owner
    apply h.findIdx?
    intro m m' method method' hm hm' hf hf'
    obtain ⟨howner, hname, -⟩ := of_decide_eq_true hf
    obtain ⟨howner', hname', -⟩ := of_decide_eq_true hf'
    have hlt := (List.getElem?_eq_some_iff.1 hm).1
    rw [← List.length_map (f := fun m : Method => (m.owner, m.name))] at hlt
    apply (List.getElem?_inj hlt hnames).1
    rw [List.getElem?_map, List.getElem?_map, show p.methods[m]? = some method from hm,
      show p.methods[m']? = some method' from hm', Option.map_some, Option.map_some, howner, hname,
      howner', hname']
  have hfrom : ∀ steps owner, q.resolveFrom r steps owner =
      (p.resolveFrom r steps owner).map σ := by
    intro steps
    induction steps with
    | zero => exact fun _ => rfl
    | succ steps ih =>
      intro owner
      rw [Program.resolveFrom, Program.resolveFrom, hin, hsuper]
      cases p.methodIn r owner with
      | some m => rfl
      | none =>
        cases p.superclassOf owner with
        | none => rfl
        | some parent => exact ih parent
  rw [Resolver.hierarchy, Resolver.hierarchy, hclasses, hfrom]

end Program.Reordered

structure Construction.Renamed (σ : Renaming) (τ : Equiv.Perm Nat) (c c' : Construction) :
    Prop where
  table : c'.table = c.table.rename σ
  graph : c'.graph = c.graph.rename σ
  sites : c.sites.Relabeled τ c'.sites
  stats : c'.stats = c.stats

structure Outcome.SameReport (o o' : Outcome) : Prop where
  answers : o'.answers = o.answers
  fallbacks : o'.collected.fallbacks = o.collected.fallbacks
  stats : o'.stats = o.stats

namespace Analysis

variable {a : Analysis} {entry : MethodId} {i : Inlined} {c c' : Construction}

theorem mirrors_of_reordered (hq : a.program.Reordered σ q)
    (hr : ∀ r, a.resolver q r = (a.resolver a.program r).map σ) :
    Mirrors σ (fun _ => True) a.inliner (a.onProgram q).inliner := by
  constructor
  case hooks => rfl
  case maxDepth => rfl
  case resolver => exact hr
  case outside => exact fun m method hm => ⟨method, (hq m).trans hm, .refl method⟩
  case inside => exact fun m method _ hm => (hq m).trans hm

theorem fields_rename {fields fields' : Propagated}
    (h : (a.config.fieldCopropagation = true ∧ propagateFields i.draft i.table = .ok fields) ∨
      (a.config.fieldCopropagation = false ∧ fields = ⟨i.draft, i.table, 0, []⟩))
    (h' : (a.config.fieldCopropagation = true ∧
        propagateFields (i.rename σ).draft (i.rename σ).table = .ok fields') ∨
      (a.config.fieldCopropagation = false ∧
        fields' = ⟨(i.rename σ).draft, (i.rename σ).table, 0, []⟩)) :
    fields' = fields.rename σ := by
  rcases h with ⟨hon, h⟩ | ⟨hoff, rfl⟩
  · rcases h' with ⟨-, h'⟩ | ⟨hoff', -⟩
    · exact Except.ok.inj (h'.symm.trans (propagateFields_rename h))
    · exact absurd (hon.symm.trans hoff') (by decide)
  · rcases h' with ⟨hon', -⟩ | ⟨-, rfl⟩
    · exact absurd (hon'.symm.trans hoff) (by decide)
    · rfl

theorem complete_rename (hq : a.program.Reordered σ q)
    (hrun : a.inliner.run entry = .ok (some i))
    (hrun' : (a.onProgram q).inliner.run (σ entry) = .ok (some (i.rename σ)))
    (hc : a.complete i = .ok c) :
    ∃ c' τ, (a.onProgram q).complete (i.rename σ) = .ok c' ∧ c.Renamed σ τ c' := by
  obtain ⟨c', hc'⟩ := complete_ok hrun'
  obtain ⟨fields, hfields, hsites, hgraph, hstats⟩ := complete_eq_ok hc
  obtain ⟨fields', hfields', hsites', hgraph', hstats'⟩ := complete_eq_ok hc'
  obtain rfl : fields' = fields.rename σ := fields_rename hfields hfields'
  obtain ⟨henumerates, -, -⟩ := sites_enumerate hrun hc
  obtain ⟨henumerates', -, -⟩ := sites_enumerate hrun' hc'
  obtain ⟨τ, hrelabeled⟩ := henumerates.relabeled henumerates' (Sites.allocationsOf_rename hq _ _)
  have htable : c'.table = c.table.rename σ := by
    rw [table_of_sites hrun' hc' hfields' hsites', table_of_sites hrun hc hfields hsites]
    rfl
  have hclose : c'.graph = c.graph.rename σ :=
    Except.ok.inj (hgraph'.symm.trans (Draft.close_rename hgraph))
  refine ⟨c', τ, hc', ?_⟩
  constructor
  case table => exact htable
  case graph => exact hclose
  case sites => exact hrelabeled
  case stats =>
    rw [hstats, hstats', counted, counted, hclose, htable, hrelabeled.size, Graph.size_rename,
      Graph.edgeCount_rename, Graph.copyCount_rename, PointerTable.size_rename]
    simp only [Inlined.rename, size_renameAll, Propagated.rename]

theorem constructFrom_rename (hq : a.program.Reordered σ q)
    (hr : ∀ r, a.resolver q r = (a.resolver a.program r).map σ)
    (hc : a.constructFrom entry = .ok c) :
    ∃ c' τ, (a.onProgram q).constructFrom (σ entry) = .ok c' ∧ c.Renamed σ τ c' := by
  obtain ⟨method, hm, hc⟩ := bind_eq_ok.1 hc
  obtain ⟨found, hrun, hc⟩ := bind_eq_ok.1 hc
  have hm' : (a.onProgram q).program.method (σ entry) = .ok method := hq.method hm
  have hrun' := run_rename (mirrors_of_reordered hq hr) hrun trivial fun _ _ _ _ => trivial
  cases found with
  | none =>
    cases hc
    refine ⟨_, .refl _, constructFrom_of_none hm' hrun', ?_⟩
    constructor
    case table => exact PointerTable.rename_empty.symm
    case graph => exact congrArg (Graph.mk · #[] #[] 0 ∅) Array.map_empty.symm
    case sites => exact .empty
    case stats => rfl
  | some i =>
    obtain ⟨c, hcomplete, hc⟩ := bind_eq_ok.1 hc
    cases hc
    obtain ⟨c', τ, hc', hrenamed⟩ := complete_rename hq hrun hrun' hcomplete
    refine ⟨_, τ, constructFrom_of_some hm' hrun' hc', ?_⟩
    exact ⟨hrenamed.table, hrenamed.graph, hrenamed.sites, hrenamed.stats⟩

/-- The first program is the second one with its methods put back, so both fail together. -/
theorem constructFrom_error_rename (hq : a.program.Reordered σ q)
    (hr : ∀ r, a.resolver q r = (a.resolver a.program r).map σ) {f : Fault}
    (h : a.constructFrom entry = .error f) :
    ∃ f', (a.onProgram q).constructFrom (σ entry) = .error f' := by
  cases h' : (a.onProgram q).constructFrom (σ entry) with
  | error f' => exact ⟨f', rfl⟩
  | ok c' =>
    have hr' : ∀ r, a.resolver a.program r = (a.resolver q r).map σ.symm := by
      intro r
      rw [hr, Option.map_map, σ.symm_comp_self, Option.map_id, id]
    obtain ⟨c, -, hc, -⟩ := constructFrom_rename (a := a.onProgram q) hq.symm hr' h'
    rw [σ.symm_apply_apply] at hc
    cases h.symm.trans hc

/-- The solver goes through the same states, with the sites under their other numbers. -/
theorem solve_renamed (hc : c.Renamed σ τ c') (policy : SeedPolicy) (budget : Option Nat) :
    c'.graph.solve (seed policy c'.sites) budget =
      (c.graph.solve (seed policy c.sites) budget).relabel τ := by
  have hseed : seed policy c'.sites = (seed policy c.sites).relabel τ := by
    cases policy with
    | everywhere => exact hc.sites.seed
    | atAllocation => exact hc.sites.generators
  rw [hc.graph, Graph.solve_rename, hseed, Graph.solve_relabel]

theorem finish_renamed (hq : a.program.Reordered σ q) (hc : c.Renamed σ τ c') {o o' : Outcome}
    (ho : a.finish c = .ok o) (ho' : (a.onProgram q).finish c' = .ok o') : o.SameReport o' := by
  obtain ⟨collected, hcollected, heq⟩ := bind_eq_ok.1 ho
  obtain rfl := pure_eq_ok.1 heq
  obtain ⟨collected', hcollected', heq⟩ := bind_eq_ok.1 ho'
  obtain rfl := pure_eq_ok.1 heq
  have hsolve := solve_renamed hc a.config.seedPolicy a.config.maxIterations
  have hpoints : c'.graph.testPoints = c.graph.testPoints := by
    rw [hc.graph, Graph.testPoints_rename]
  simp only [onProgram, hsolve, hq.declaredTests] at hcollected'
  obtain ⟨hanswers, hfallbacks⟩ := collected_relabel hpoints hc.sites hcollected hcollected'
  constructor
  case answers => exact hanswers
  case fallbacks => exact hfallbacks
  case stats => simp only [onProgram, hsolve, hfallbacks, hc.stats, Solution.relabel]

/-- Wherever the methods of a program stand, the analysis reports the same, as long as the entry and
the targets of calls are found as before. Refused settings and a missing entry are reported alike,
too. A fault may name another number, and there is none unless the resolver names a method that is
not there. -/
theorem run_reordered (hq : a.program.Reordered σ q)
    (hentry : q.entryMethod a.config.entry = (a.program.entryMethod a.config.entry).map σ)
    (hr : ∀ r, a.resolver q r = (a.resolver a.program r).map σ) :
    (∃ o o', a.run = .ok o ∧ (a.onProgram q).run = .ok o' ∧ o.SameReport o') ∨
    (((∃ e, a.config.validate = .error e) ∨
        ∃ e, a.program.entryMethod a.config.entry = .error e) ∧
      ∃ e, a.run = .error e ∧ (a.onProgram q).run = .error e) ∨
    ¬ a.resolver.Valid a.program ∧ ∃ f f', a.run = .error (.fault f) ∧
      (a.onProgram q).run = .error (.fault f') := by
  rcases a.construct_cases with ⟨e, hvalid, hc⟩ | ⟨e, hvalid, hfound, hc⟩ |
    ⟨entry, hvalid, hfound, hc⟩
  · right
    left
    refine ⟨Or.inl ⟨e, hvalid⟩, _, run_of_construct_error hc, ?_⟩
    exact run_of_construct_error (construct_of_config_error (a := a.onProgram q) hvalid)
  · right
    left
    rw [hfound] at hentry
    refine ⟨Or.inr ⟨e, hfound⟩, _, run_of_construct_error hc, ?_⟩
    apply run_of_construct_error
    exact construct_of_entry_error (a := a.onProgram q) hvalid hentry
  · rw [hfound] at hentry
    have hc' : (a.onProgram q).construct = faulty ((a.onProgram q).constructFrom (σ entry)) :=
      construct_of_entry (a := a.onProgram q) hvalid hentry
    cases hfrom : a.constructFrom entry with
    | ok c =>
      left
      obtain ⟨c', τ, hfrom', hrenamed⟩ := constructFrom_rename hq hr hfrom
      obtain ⟨o, ho, hfinish⟩ := run_of_construct (hc.trans (faulty_eq_ok.2 hfrom))
      obtain ⟨o', ho', hfinish'⟩ := run_of_construct (hc'.trans (faulty_eq_ok.2 hfrom'))
      exact ⟨o, o', ho, ho', finish_renamed hq hrenamed hfinish hfinish'⟩
    | error f =>
      right
      right
      obtain ⟨f', hfrom'⟩ := constructFrom_error_rename hq hr hfrom
      refine ⟨not_valid_of_fault hfound hfrom, f, f', ?_, ?_⟩
      · apply run_of_construct_error
        rw [hc, hfrom]
        rfl
      · apply run_of_construct_error
        rw [hc', hfrom']
        rfl

def creating (methods : List Method → List Method) : Program :=
  ⟨[], methods [
    ⟨"Main", "main", "", true, false, none, [], ["a", "b"], [.call (Hooks.default.allocCall 1),
      .new 0 "A", .call ⟨some 1, ⟨"B", "make", ""⟩, [], none⟩, .call (Hooks.default.testCall 1 0),
      .call (Hooks.default.testCall 2 1), .ret none]⟩,
    ⟨"B", "make", "", true, false, none, [], ["x"], [.call (Hooks.default.allocCall 2),
      .new 0 "B", .ret (some (.var 0))]⟩], none⟩

theorem creating_reordered :
    ∃ o o', (Analysis.of (creating id) .default).run = .ok o ∧
      ((Analysis.of (creating id) .default).onProgram (creating List.reverse)).run = .ok o' ∧
      o.SameReport o' ∧ (o.answers.labels 1, o.answers.labels 2) = ([1], [2]) ∧
      o.construction.sites.sites.toList.map (·.label) = [some 1, some 2] ∧
      o'.construction.sites.sites.toList.map (·.label) = [some 2, some 1] := by
  have hq : (creating id).Reordered (Equiv.swap 0 1) (creating List.reverse) := by
    intro m
    match m with
    | 0 => rfl
    | 1 => rfl
    | m + 2 =>
      have hzero : m + 2 ≠ 0 := Nat.succ_ne_zero _
      have hone : m + 2 ≠ 1 := fun h => Nat.succ_ne_zero m (Nat.succ.inj h)
      rw [Equiv.swap_apply_of_ne_of_ne hzero hone]
      rfl
  obtain ⟨o, ho, hanswers, hsites⟩ : ∃ o, (Analysis.of (creating id) .default).run = .ok o ∧
      (o.answers.labels 1, o.answers.labels 2) = ([1], [2]) ∧
        o.construction.sites.sites.toList.map (·.label) = [some 1, some 2] :=
    exists_ok (by decide +kernel)
  obtain ⟨o', ho', hsites'⟩ : ∃ o, ((Analysis.of (creating id) .default).onProgram
      (creating List.reverse)).run = .ok o ∧
        o.construction.sites.sites.toList.map (·.label) = [some 2, some 1] :=
    exists_ok (by decide +kernel)
  have hresolver := hq.hierarchy rfl (by decide)
  rcases run_reordered (a := .of (creating id) .default) hq (by decide +kernel) hresolver with
    ⟨u, u', hu, hu', hsame⟩ | ⟨-, e, he, -⟩ | ⟨-, f, f', hf, -⟩
  · cases ho.symm.trans hu
    cases ho'.symm.trans hu'
    exact ⟨o, o', ho, ho', hsame, hanswers, hsites, hsites'⟩
  · cases ho.symm.trans he
  · cases ho.symm.trans hf

end Analysis

end PointsTo
