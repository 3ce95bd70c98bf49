import PointsTo.Proofs.Allocations
import PointsTo.Proofs.Collected
import PointsTo.Proofs.Inline.Moments
import PointsTo.Proofs.Solver.Ranges

/-! Every number that an analysis looks up was given before. So an analysis ends with an outcome,
unless its settings are refused or its entry is missing, and the outcome names only what there
is. -/
namespace PointsTo

open Inliner

structure Construction.Registered (c : Construction) : Prop where
  blocks : ∀ (b : Nat) (block : Block), c.graph.blocks[b]? = some block →
    block.id = b ∧ block.Registered c.table
  lists : c.graph.succs.size = c.graph.size ∧ c.graph.preds.size = c.graph.size
  successors : ∀ b, ∀ k ∈ c.graph.successors b, k < c.graph.size
  predecessors : ∀ b, ∀ q ∈ c.graph.predecessors b, q < c.graph.size
  seeds : ∀ policy, (Analysis.seed policy c.sites).Within c.table.size c.sites.size

theorem Construction.Registered.target {c : Construction} (h : c.Registered) (b : Nat) :
    ∀ copy ∈ c.graph.copiesOf b, copy.target < c.table.size := by
  intro copy hcopy
  obtain ⟨block, hb, hcopy⟩ := Graph.mem_copiesOf.1 hcopy
  exact ((h.blocks b block hb).2.copies copy hcopy).1

structure Outcome.Registered (o : Outcome) : Prop where
  construction : o.construction.Registered
  states : o.solution.states.size = o.construction.graph.size
  facts : ∀ s ∈ o.solution.states,
    s.Within o.construction.table.size o.construction.sites.size

theorem Program.method_of_entryMethod {p : Program} {given : Option String} {entry : MethodId}
    (h : p.entryMethod given = .ok entry) : ∃ method, p.method? entry = some method := by
  have hlt : entry < p.methods.length := by
    unfold entryMethod at h
    split at h
    · next name _ =>
      cases hf : p.findMethod name with
      | none =>
        rw [hf] at h
        cases h
      | some id =>
        rw [hf] at h
        cases h
        obtain ⟨_, -, hid⟩ := Option.bind_eq_some_iff.1 hf
        exact (List.findIdx?_eq_some_iff_findIdx_eq.1 hid).1
    · cases hf : p.methods.findIdx? (fun m => decide (m.name = "main" ∧ m.isStatic)) with
      | none =>
        rw [hf] at h
        cases h
      | some id =>
        rw [hf] at h
        cases h
        exact (List.findIdx?_eq_some_iff_findIdx_eq.1 hf).1
  exact ⟨_, List.getElem?_eq_getElem hlt⟩

theorem Program.superclassOf_congr {p q : Program} (h : q.classes = p.classes) :
    q.superclassOf = p.superclassOf := by
  funext name
  rw [superclassOf, superclassOf, h]

/-- Inserting field copies looks up pointers, sets and variables that are there: the ends of every
copy, and the set of every variable that a copy assigns. -/
structure Draft.FieldsInRange (d : Draft) (t : PointerTable) : Prop where
  ends : ∀ b ∈ d.blocks, ∀ c ∈ b.copies, ∃ found, t.variablePair c = .ok found
  sets : ∀ pairs : List (Var × Var), (pairs.foldl Components.connect .empty).sets.WellFormed
  known : ∀ pairs, (d.blocks.toList.flatMap (·.copies)).filterMapM t.variablePair = .ok pairs →
    ∀ pair ∈ pairs, ∃ root, (pairs.foldl Components.connect .empty).rootOf pair.1 = some root

theorem fields_in_range {d : Draft} {t : PointerTable}
    (h : ∀ b ∈ d.blocks, ∀ c ∈ b.copies, c.Named t) : d.FieldsInRange t := by
  constructor
  case ends => exact fun b hb c hc => variablePair_ok (h b hb c hc)
  case sets =>
    intro pairs
    have hkeeps : ∀ cs : Components, cs.sets.WellFormed →
        (pairs.foldl Components.connect cs).sets.WellFormed := by
      induction pairs with
      | nil => exact fun cs hcs => hcs
      | cons pair pairs ih => exact fun cs hcs => ih _ (Components.connect_spec hcs pair).1
    exact hkeeps _ UnionFind.empty_wellFormed
  case known =>
    intro pairs _ pair hpair
    have hempty : Components.empty.sets.WellFormed := UnionFind.empty_wellFormed
    obtain ⟨r, hr, -⟩ := (Components.foldl_connect hempty).2 pair hpair
    exact ⟨r, hr⟩

namespace Analysis

variable {a : Analysis} {entry : MethodId} {i : Inlined} {c : Construction}

theorem seed_within {s : Sites} {t : PointerTable} {as : List Allocation} (hs : s.Enumerates t as)
    (policy : SeedPolicy) : (seed policy s).Within t.size s.size := by
  have hwithin : ∀ {n l : Nat} {al : Allocation} {p : Pointer},
      as[l]? = some al → t.get? n = some p → n < t.size ∧ l < s.size := by
    intro n l al p hal hn
    rw [hs.size]
    exact ⟨PointerTable.lt_size_of_get? hn, (List.getElem?_eq_some_iff.1 hal).1⟩
  intro n l hholds
  cases policy with
  | everywhere =>
    obtain ⟨al, hal, hn | hn⟩ := (hs.seed n l).1 hholds
    · exact hwithin hal hn
    · exact hwithin hal hn
  | atAllocation =>
    obtain ⟨al, hal, hn⟩ := (hs.generators n l).1 hholds
    exact hwithin hal hn

theorem expanded_registered {st : Inlining} {pts : List Point} {fields : Propagated}
    {fieldsAt : Var → List FieldRef} (hl : Layout a.inliner i.table st pts [])
    (hdraft : st.draft = i.draft)
    (hexpands : i.draft.Expands i.table fieldsAt fields.draft fields.table)
    (hgraph : fields.draft.close i.entry = .ok c.graph) (hcopies : a.Copies i c pts fieldsAt)
    {b : Nat} {p : Point} (hb : pts[b]? = some p) {block : Block}
    (hblock : c.graph.blocks[b]? = some block) : block.id = b ∧ block.Registered c.table := by
  obtain ⟨block₀, block', -, hfor, hget, hextends⟩ := exists_expanded hl hdraft hexpands hgraph hb
  obtain rfl : block' = block := Option.some.inj (hget.symm.trans hblock)
  refine ⟨?_, ?_, ?_⟩
  · have hid : block'.id = block₀.id := by rw [hextends.same]
    rw [hid]
    exact blockFor_id hfor
  · intro copy hcopy
    have hnames := hcopies.names b _ hb
    rw [Graph.copiesOf, hget] at hnames
    obtain ⟨pair, -, hname⟩ := exists_name_of_copy hnames hcopy
    exact hname.lt_size
  · intro mark hmark
    rw [hextends.same] at hmark
    have hnumbered := hl.numbered _ (List.mem_of_getElem? hb)
    exact Nat.lt_of_lt_of_le (mark_registered hnumbered hfor hmark)
      (PointerTable.size_le_of_le hcopies.table)

theorem complete_registered (hrun : a.inliner.run entry = .ok (some i))
    (h : a.complete i = .ok c) : c.graph.WellFormed ∧ c.Registered := by
  obtain ⟨fields, hfields, hsites, hgraph, -⟩ := complete_eq_ok h
  obtain ⟨fieldsAt, hexpands, hshares⟩ := expands_of_fields hfields
  obtain ⟨st, pts, hl, hstart, hentry, hdraft, -, -⟩ := run_layout hrun
  obtain ⟨henumerates, hle, -⟩ := sites_enumerate hrun h
  have hsteps := edgesAreSteps_of_expands hl hdraft hexpands hgraph hstart hentry
  have hcopies :=
    copies_of_expands hl hdraft hexpands hgraph (Sites.ofMethods_spec hsites).1 hshares
  refine ⟨hsteps.wellFormed, ?_⟩
  constructor
  case blocks =>
    intro b block hblock
    have hlt : b < pts.length := by
      rw [hsteps.size]
      exact (Array.getElem?_eq_some_iff.1 hblock).1
    have hb := List.getElem?_eq_getElem hlt
    exact expanded_registered hl hdraft hexpands hgraph hcopies hb hblock
  case lists =>
    refine Draft.sizes_of_freeze ?_ hgraph
    rw [Draft.WellFormed, hexpands.succs, hexpands.size, ← hdraft]
    exact hl.wellFormed
  case successors => exact fun b k hk => (hsteps.wellFormed.edge_inside b k hk).2
  case predecessors =>
    intro b q hq
    exact (hsteps.wellFormed.edge_inside q b ((hsteps.wellFormed.transpose q b).1 hq)).1
  case seeds => exact seed_within (henumerates.mono hle)

theorem empty_registered (events : List Event) :
    (⟨∅, .empty, .empty, .zero, events⟩ : Construction).Registered := by
  constructor
  case blocks =>
    intro b block hblock
    cases hblock
  case lists => exact ⟨rfl, rfl⟩
  case successors => exact fun b k hk => absurd hk (Graph.not_mem_successors_empty b k)
  case predecessors => exact fun b q hq => absurd hq (Graph.not_mem_predecessors_empty b q)
  case seeds => exact seed_within (Sites.empty_enumerates ∅)

theorem constructFrom_registered (h : a.constructFrom entry = .ok c) :
    c.graph.WellFormed ∧ c.Registered := by
  rcases constructFrom_eq_ok h with ⟨-, events, rfl⟩ | ⟨i, c', hrun, hc, events, rfl⟩
  · exact ⟨Graph.empty_wellFormed, empty_registered events⟩
  · obtain ⟨hg, hc⟩ := complete_registered hrun hc
    exact ⟨hg, hc.blocks, hc.lists, hc.successors, hc.predecessors, hc.seeds⟩

/-- What was constructed can be solved, and the solution read. -/
theorem finish_ok (hg : c.graph.WellFormed) (hc : c.Registered) :
    ∃ o, a.finish c = .ok o ∧ o.Registered := by
  obtain ⟨hstates, hfacts⟩ := solve_within hg a.config.maxIterations
    (hc.seeds a.config.seedPolicy) hc.target
  have hcovers : (c.graph.solve (seed a.config.seedPolicy c.sites) a.config.maxIterations).Covers
      c.graph c.sites := by
    constructor
    case states =>
      intro block hblock
      obtain ⟨b, hb⟩ := Array.mem_iff_getElem?.1 hblock
      rw [(hc.blocks b block hb).1, hstates]
      exact (Array.getElem?_eq_some_iff.1 hb).1
    case located => exact fun state hstate n l h => (hfacts state hstate n l h).2
  obtain ⟨collected, hcollected⟩ := collect_ok hcovers (a.program.declaredTests a.hooks)
  exact ⟨_, by rw [finish, hcollected]; rfl, hc, hstates, hfacts⟩

/-- Every number that the phases look up without a check is in range: statements and blocks while
blocks are built and calls are spliced, variables while fields are copied, and blocks while the
solver runs. -/
structure LooksUp (a : Analysis) (entry : MethodId) : Prop where
  method : ∃ method, a.program.method? entry = some method
  blocks : ∀ m stmts receiver t, ∀ b ∈ (methodBlocks a.hooks m stmts receiver t).1,
    b.Inside stmts (methodBlocks a.hooks m stmts receiver t).1.length
  inlining : ∀ stack st, a.inliner.Moment entry stack st → a.inliner.InRange stack st
  inlined : ∀ i, a.inliner.run entry = .ok (some i) → ∃ st,
    a.inliner.Moment entry [] st ∧ i.draft = st.draft ∧ i.table = st.table
  fields : ∀ i, a.inliner.run entry = .ok (some i) → i.draft.FieldsInRange i.table
  solving : ∀ c, a.constructFrom entry = .ok c → ∀ policy budget fuel,
    (c.graph.iterate (seed policy c.sites) budget fuel
      (.start c.graph (seed policy c.sites))).2.InRange c.graph

theorem looksUp (hv : a.resolver.Valid a.program) {method : Method}
    (hm : a.program.method? entry = some method) : a.LooksUp entry := by
  constructor
  case method => exact ⟨method, hm⟩
  case blocks => exact methodBlocks_inside a.hooks
  case inlining => exact fun stack st h => h.in_range hv
  case inlined => exact fun i hrun => run_moment hrun
  case fields => exact fun i hrun => fields_in_range (named_of_run hrun)
  case solving =>
    intro c hc policy budget fuel
    obtain ⟨hg, -⟩ := constructFrom_registered hc
    obtain ⟨done, hinvariant⟩ := Progress.iterate_invariant hg (seed policy c.sites) budget fuel
    exact hinvariant.inRange

theorem run_ok_of_entry (hv : a.resolver.Valid a.program) (hvalid : a.config.validate = .ok ())
    (hentry : a.program.entryMethod a.config.entry = .ok entry) :
    a.LooksUp entry ∧ ∃ o, a.run = .ok o ∧ o.Registered := by
  obtain ⟨method, hm⟩ := Program.method_of_entryMethod hentry
  obtain ⟨c, hc⟩ := constructFrom_ok hv hm
  obtain ⟨hg, hregistered⟩ := constructFrom_registered hc
  obtain ⟨o, ho, hor⟩ := finish_ok (a := a) hg hregistered
  have hconstruct : a.construct = .ok c := by
    simp only [construct, hvalid, hentry, hc, faulty]
  refine ⟨looksUp hv hm, o, ?_, hor⟩
  rw [run, hconstruct, ok_bind, ho]
  rfl

section Phases

variable {e : InvalidConfig} {e' : MissingEntry}

theorem construct_of_config_error (h : a.config.validate = .error e) :
    a.construct = .error (.config e) := by
  simp only [construct, h]

theorem construct_of_entry_error (h : a.config.validate = .ok ())
    (hentry : a.program.entryMethod a.config.entry = .error e') :
    a.construct = .error (.entry e') := by
  simp only [construct, h, hentry]

theorem construct_of_entry (h : a.config.validate = .ok ())
    (hentry : a.program.entryMethod a.config.entry = .ok entry) :
    a.construct = faulty (a.constructFrom entry) := by
  simp only [construct, h, hentry]

/-- The settings are looked at first, then the entry. -/
theorem construct_cases (a : Analysis) :
    (∃ e, a.config.validate = .error e ∧ a.construct = .error (.config e)) ∨
    (∃ e, a.config.validate = .ok () ∧ a.program.entryMethod a.config.entry = .error e ∧
      a.construct = .error (.entry e)) ∨
    ∃ entry, a.config.validate = .ok () ∧ a.program.entryMethod a.config.entry = .ok entry ∧
      a.construct = faulty (a.constructFrom entry) := by
  cases hvalid : a.config.validate with
  | error e => exact Or.inl ⟨e, rfl, construct_of_config_error hvalid⟩
  | ok u =>
    cases hentry : a.program.entryMethod a.config.entry with
    | error e => exact Or.inr (Or.inl ⟨e, rfl, rfl, construct_of_entry_error hvalid hentry⟩)
    | ok entry => exact Or.inr (Or.inr ⟨entry, rfl, rfl, construct_of_entry hvalid hentry⟩)

end Phases

/-- Nothing else than the resolver can make the inliner look for a method in vain. -/
theorem not_valid_of_fault {f : Fault}
    (hentry : a.program.entryMethod a.config.entry = .ok entry)
    (h : a.constructFrom entry = .error f) : ¬ a.resolver.Valid a.program := by
  intro hv
  obtain ⟨method, hm⟩ := Program.method_of_entryMethod hentry
  obtain ⟨c, hok⟩ := constructFrom_ok hv hm
  cases h.symm.trans hok

/-- How a run ends is settled by what is constructed. -/
theorem run_of_construct (hconstruct : a.construct = .ok c) :
    ∃ o, a.run = .ok o ∧ a.finish c = .ok o := by
  obtain ⟨entry, -, hc⟩ := construct_eq_ok hconstruct
  obtain ⟨hg, hregistered⟩ := constructFrom_registered hc
  obtain ⟨o, ho, -⟩ := finish_ok (a := a) hg hregistered
  refine ⟨o, ?_, ho⟩
  rw [run, hconstruct, ok_bind, ho]
  rfl

theorem run_of_construct_error {e : AnalysisError} (h : a.construct = .error e) :
    a.run = .error e := by
  rw [run, h]
  rfl

theorem run_cases (hv : a.resolver.Valid a.program) :
    (∃ e, a.config.validate = .error e ∧ a.run = .error (.config e)) ∨
    (∃ e, a.config.validate = .ok () ∧ a.program.entryMethod a.config.entry = .error e ∧
      a.run = .error (.entry e)) ∨
    ∃ entry o, a.config.validate = .ok () ∧ a.program.entryMethod a.config.entry = .ok entry ∧
      a.run = .ok o := by
  cases hvalid : a.config.validate with
  | error e =>
    have hrun : a.run = .error (.config e) := by
      simp only [run, construct, hvalid]
      rfl
    exact Or.inl ⟨e, rfl, hrun⟩
  | ok u =>
    cases hentry : a.program.entryMethod a.config.entry with
    | error e =>
      have hrun : a.run = .error (.entry e) := by
        simp only [run, construct, hvalid, hentry]
        rfl
      exact Or.inr (Or.inl ⟨e, rfl, rfl, hrun⟩)
    | ok entry =>
      obtain ⟨-, o, ho, -⟩ := run_ok_of_entry hv hvalid hentry
      exact Or.inr (Or.inr ⟨entry, o, rfl, rfl, ho⟩)

/-- An analysis fails exactly if its settings are refused or else its entry is not found. Otherwise
it looks up only what there is and ends with an outcome that names only what there is. -/
theorem run_stays_in_range (a : Analysis)
    (hv : a.resolver = .hierarchy ∨ a.resolver.Valid a.program) :
    (∀ e, a.run = .error (.config e) ↔ a.config.validate = .error e) ∧
    (∀ e, a.run = .error (.entry e) ↔ a.config.validate = .ok () ∧
      a.program.entryMethod a.config.entry = .error e) ∧
    ∀ entry, a.config.validate = .ok () → a.program.entryMethod a.config.entry = .ok entry →
      a.LooksUp entry ∧ ∃ o, a.run = .ok o ∧ o.Registered := by
  have hvalid : a.resolver.Valid a.program := by
    rcases hv with hv | hv
    · rw [hv]
      exact hierarchy_valid a.program
    · exact hv
  refine ⟨fun e => ?_, fun e => ?_, fun entry hc hentry => run_ok_of_entry hvalid hc hentry⟩
  · rcases run_cases hvalid with ⟨e', hc, hrun⟩ | ⟨e', hc, -, hrun⟩ | ⟨entry, o, hc, -, hrun⟩
    · rw [hrun, hc]
      simp
    · rw [hrun, hc]
      simp
    · rw [hrun, hc]
      simp
  · rcases run_cases hvalid with ⟨e', hc, hrun⟩ | ⟨e', hc, he, hrun⟩ | ⟨entry, o, hc, he, hrun⟩
    · rw [hrun, hc]
      simp
    · rw [hrun, hc, he]
      simp
    · rw [hrun, hc, he]
      simp

theorem building_stays_in_range :
    (building.LooksUp 0 ∧ ∃ o, building.run = .ok o ∧ o.Registered) ∧
      { building with config.maxIterations := some 0 }.run = .error (.config .noIterations) ∧
      (Analysis.of .empty .default).run = .error (.entry ⟨"main"⟩) := by
  obtain ⟨-, -, hok⟩ := run_stays_in_range building (Or.inl rfl)
  obtain ⟨hconfig, -⟩ :=
    run_stays_in_range { building with config.maxIterations := some 0 } (Or.inl rfl)
  obtain ⟨-, hentry, -⟩ := run_stays_in_range (.of .empty .default) (Or.inl rfl)
  refine ⟨hok 0 (by decide +kernel) (by decide +kernel), (hconfig _).2 ?_, (hentry _).2 ?_⟩
  · decide +kernel
  · decide +kernel

end Analysis

end PointsTo
