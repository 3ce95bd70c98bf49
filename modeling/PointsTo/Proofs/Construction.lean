import PointsTo.Analysis
import PointsTo.Proofs.FieldCopies
import PointsTo.Proofs.Inline.Walks
import PointsTo.Proofs.Soundness.Sites

/-! What an analysis builds. The blocks of its graph stand for the points of the stack machine, and
the field copies change nothing but what single blocks copy. -/
namespace PointsTo

open Inliner

namespace Draft

variable {d d' : Draft} {t t' : PointerTable} {fieldsAt : Var → List FieldRef}

theorem Expands.size (h : d.Expands t fieldsAt d' t') : d'.size = d.size := by
  have := h.blocks.length_eq
  simpa [Draft.size] using this.symm

theorem Expands.successors (h : d.Expands t fieldsAt d' t') (b : Nat) :
    d'.successors b = d.successors b := by
  rw [Draft.successors, Draft.successors, h.succs]

theorem Expands.block (h : d.Expands t fieldsAt d' t') {b : Nat} {block : Block}
    (hb : d.blocks[b]? = some block) :
    ∃ block', d'.blocks[b]? = some block' ∧ block.Extends fieldsAt t t' block' := by
  rw [← Array.getElem?_toList] at hb
  obtain ⟨hlt, rfl⟩ := List.getElem?_eq_some_iff.1 hb
  have hlt' : b < d'.blocks.toList.length := h.blocks.length_eq ▸ hlt
  refine ⟨d'.blocks.toList[b], ?_, h.blocks.get hlt hlt'⟩
  rw [← Array.getElem?_toList, List.getElem?_eq_getElem hlt']

end Draft

namespace Inliner

variable {inl : Inliner} {t : PointerTable} {p : Point}

theorem origin_of_mem_copiesAt {c : Copy} (hc : c ∈ inl.copiesAt t p) : c.origin ≠ .fieldCopy := by
  intro horigin
  obtain ⟨block, hblock⟩ : ∃ block, inl.blockFor t 0 p = some block := by
    cases hblock : inl.blockFor t 0 p with
    | none =>
      rw [copiesAt, hblock] at hc
      cases hc
    | some block => exact ⟨block, rfl⟩
  rw [← copies_eq_copiesAt hblock] at hc
  cases p with
  | block a cs =>
    obtain ⟨lb, hlb, rfl⟩ := Option.map_eq_some_iff.1 hblock
    change c ∈ lb.copies at hc
    rw [(methodBlocks_eq_some (show (methodBlocks inl.hooks a.method
      (inl.stmtsOf a.method) a.receiver t).1[a.block]? = some lb from hlb)).2.2] at hc
    obtain ⟨_, -, rfl⟩ := List.mem_map.1 hc
    cases horigin
  | enter a cs =>
    obtain ⟨_, -, rfl⟩ := Option.map_eq_some_iff.1 hblock
    obtain ⟨_, -, rfl⟩ := List.mem_map.1 hc
    cases horigin
  | leave a cs =>
    obtain ⟨_, -, rfl⟩ := Option.map_eq_some_iff.1 hblock
    obtain ⟨_, -, rfl⟩ := List.mem_map.1 hc
    cases horigin

end Inliner

namespace Analysis

def inliner (a : Analysis) : Inliner := ⟨a.program, a.resolver, a.hooks, a.config.maxInlineDepth⟩

theorem stmtsOf_inliner {a : Analysis} {m : MethodId} {method : Method}
    (hm : a.program.method? m = some method) : a.inliner.stmtsOf m = method.stmts :=
  stmtsOf_eq hm

def onProgram (a : Analysis) (q : Program) : Analysis := { a with program := q }

/-- Every block of the graph stands for a point, and every edge for a step of the machine. -/
structure EdgesAreSteps (a : Analysis) (entry : MethodId) (i : Inlined) (c : Construction)
    (pts : List Point) : Prop where
  wellFormed : c.graph.WellFormed
  size : pts.length = c.graph.size
  distinct : pts.Nodup
  start : pts[c.graph.entry]? = some (startPoint entry)
  kind : ∀ b p, pts[b]? = some p →
    c.graph.blocks[b]?.map (·.kind) = (a.inliner.blockFor i.table b p).map (·.kind)
  numbered : ∀ p ∈ pts, a.inliner.Numbered i.table p
  edge : ∀ b p, pts[b]? = some p → ∀ q,
    q ∈ a.inliner.next i.table p ↔ ∃ k ∈ c.graph.successors b, pts[k]? = some q
  whole : ∀ act cs, .block act cs ∈ pts → ∀ j, .block { act with block := j } cs ∈ pts ↔
    j < (a.inliner.blocksOf i.table act.method act.receiver).length
  returns : ∀ site callers, .enter site callers ∈ pts → .leave site callers ∈ pts

/-- The blocks copy what the machine copies, and the fields along with variables. -/
structure Copies (a : Analysis) (i : Inlined) (c : Construction) (pts : List Point)
    (fieldsAt : Var → List FieldRef) : Prop where
  table : i.table ≤ c.table
  names : ∀ b p, pts[b]? = some p → List.Forall₂ (Copy.Names c.table) (c.graph.copiesOf b)
    ((a.inliner.movesAt i.table p).flatMap (withFields fieldsAt))
  links : ∀ p ∈ pts, ∀ v w, (.var v, .var w) ∈ a.inliner.movesAt i.table p →
    i.draft.Links i.table v w
  shares : a.config.fieldCopropagation = true → i.draft.Shares i.table fieldsAt

variable {a : Analysis} {entry : MethodId} {i : Inlined} {c : Construction}

section Points

variable {pts : List Point} {site : Activation} {callers : List Activation} {b : Nat} {p : Point}

theorem EdgesAreSteps.exists_block (h : a.EdgesAreSteps entry i c pts) (hb : pts[b]? = some p) :
    ∃ block, a.inliner.blockFor i.table b p = some block := by
  have hkind := h.kind b p hb
  have hlt : b < c.graph.blocks.size := Nat.lt_of_lt_of_eq (List.getElem?_eq_some_iff.1 hb).1 h.size
  rw [Array.getElem?_eq_getElem hlt] at hkind
  obtain ⟨block, hblock, -⟩ := Option.map_eq_some_iff.1 hkind.symm
  exact ⟨block, hblock⟩

/-- A block before or behind a callee belongs to a call that the machine follows. -/
theorem EdgesAreSteps.entered_of_call (h : a.EdgesAreSteps entry i c pts) (hb : pts[b]? = some p)
    (hp : p = .enter site callers ∨ p = .leave site callers) :
    ∃ call callee method, a.inliner.entered i.table site callers = some (call, callee) ∧
      a.program.method? callee = some method := by
  obtain ⟨block, hblock⟩ := h.exists_block hb
  obtain ⟨⟨call, callee⟩, he⟩ : ∃ found, a.inliner.entered i.table site callers = some found := by
    rcases hp with rfl | rfl
    · obtain ⟨found, he, -⟩ := Option.map_eq_some_iff.1 hblock
      exact ⟨found, he⟩
    · obtain ⟨found, he, -⟩ := Option.map_eq_some_iff.1 hblock
      exact ⟨found, he⟩
  obtain ⟨method, hm, -⟩ := method_of_entered he
  exact ⟨call, callee, method, he, hm⟩

end Points

def counted (i : Inlined) (c : Construction) (added : Nat) : Stats :=
  { Stats.zero with
    methodsInlined := i.methods.size
    instances := i.stats.instances
    blocks := c.graph.size
    cfgEdges := c.graph.edgeCount
    copyEdges := c.graph.copyCount
    impliedFieldEdges := added
    pointers := c.table.size
    sites := c.sites.size
    truncatedCalls := i.stats.truncated
    unresolvedCalls := i.stats.unresolved }

theorem complete_eq_ok (h : a.complete i = .ok c) :
    ∃ fields : Propagated, ((a.config.fieldCopropagation = true ∧
        propagateFields i.draft i.table = .ok fields) ∨
      (a.config.fieldCopropagation = false ∧ fields = ⟨i.draft, i.table, 0, []⟩)) ∧
    Sites.ofMethods a.program a.hooks i.methods.toList fields.table = .ok (c.sites, c.table) ∧
    fields.draft.close i.entry = .ok c.graph ∧ c.stats = counted i c fields.added := by
  unfold complete at h
  extract_lets methods zero rest at h
  have hrest : ∀ fields, rest fields = .ok c →
      Sites.ofMethods a.program a.hooks i.methods.toList fields.table = .ok (c.sites, c.table) ∧
        fields.draft.close i.entry = .ok c.graph ∧ c.stats = counted i c fields.added := by
    intro fields h
    obtain ⟨⟨sites, table⟩, hsites, h⟩ := bind_eq_ok.1 h
    obtain ⟨graph, hgraph, h⟩ := bind_eq_ok.1 h
    rw [← pure_eq_ok.1 h]
    exact ⟨hsites, hgraph, rfl⟩
  split at h
  · next hon =>
    obtain ⟨fields, hfields, h⟩ := bind_eq_ok.1 h
    exact ⟨fields, Or.inl ⟨hon, hfields⟩, hrest fields h⟩
  · next hoff => exact ⟨_, Or.inr ⟨Bool.not_eq_true _ ▸ hoff, rfl⟩, hrest _ h⟩

theorem expands_of_fields {fields : Propagated}
    (h : (a.config.fieldCopropagation = true ∧ propagateFields i.draft i.table = .ok fields) ∨
      (a.config.fieldCopropagation = false ∧ fields = ⟨i.draft, i.table, 0, []⟩)) :
    ∃ fieldsAt, i.draft.Expands i.table fieldsAt fields.draft fields.table ∧
      (a.config.fieldCopropagation = true → i.draft.Shares i.table fieldsAt) := by
  rcases h with ⟨-, hfields⟩ | ⟨hoff, rfl⟩
  · obtain ⟨fieldsAt, hexpands, hshares⟩ := propagateFields_spec hfields
    exact ⟨fieldsAt, hexpands, fun _ => hshares⟩
  · refine ⟨fun _ => [], i.draft.expands_refl i.table fun _ => rfl, fun hon => ?_⟩
    rw [hoff] at hon
    cases hon

section Expanded

variable {st : Inlining} {pts : List Point} {fields : Propagated} {fieldsAt : Var → List FieldRef}
  (hl : Layout a.inliner i.table st pts []) (hdraft : st.draft = i.draft)
  (hexpands : i.draft.Expands i.table fieldsAt fields.draft fields.table)
  (hgraph : fields.draft.close i.entry = .ok c.graph)

include hl hdraft hexpands hgraph in
theorem exists_expanded {b : Nat} {p : Point} (hb : pts[b]? = some p) :
    ∃ block block', i.draft.blocks[b]? = some block ∧
      a.inliner.blockFor i.table b p = some block ∧ c.graph.blocks[b]? = some block' ∧
      block.Extends fieldsAt i.table fields.table block' := by
  have hblocks : c.graph.blocks = fields.draft.blocks := by rw [← (Draft.freeze_eq_ok.1 hgraph).2]
  have hlt : b < i.draft.blocks.size := by
    rw [← hdraft]
    exact Nat.lt_of_lt_of_eq (List.getElem?_eq_some_iff.1 hb).1 hl.size
  have hget := Array.getElem?_eq_getElem hlt
  obtain ⟨block', hblock', hextends⟩ := hexpands.block hget
  refine ⟨_, block', hget, ?_, hblocks ▸ hblock', hextends⟩
  rw [← hl.content b p hb, hdraft, hget]

include hl hdraft hexpands hgraph in
theorem edgesAreSteps_of_expands (hstart : pts[0]? = some (startPoint entry))
    (hentry : i.entry = 0) : a.EdgesAreSteps entry i c pts := by
  have hsucc : ∀ b k, k ∈ c.graph.successors b ↔ k ∈ st.draft.successors b := by
    intro b k
    rw [Draft.mem_successors_of_freeze hgraph, hexpands.successors, hdraft]
  constructor
  case wellFormed =>
    refine Draft.freeze_wellFormed ?_ hgraph
    rw [Draft.WellFormed, hexpands.succs, hexpands.size, ← hdraft]
    exact hl.wellFormed
  case size =>
    have hblocks : c.graph.blocks = fields.draft.blocks := by rw [← (Draft.freeze_eq_ok.1 hgraph).2]
    rw [Graph.size, hblocks, hl.size, hdraft]
    exact hexpands.size.symm
  case distinct => exact hl.distinct
  case start =>
    have hgentry : c.graph.entry = i.entry := by rw [← (Draft.freeze_eq_ok.1 hgraph).2]
    rw [hgentry, hentry, hstart]
  case kind =>
    intro b p hb
    obtain ⟨block, block', -, hfor, hget, hextends⟩ := exists_expanded hl hdraft hexpands hgraph hb
    rw [hfor, hget, hextends.same]
    rfl
  case numbered => exact hl.numbered
  case edge =>
    intro b p hb q
    simp only [hl.step_iff hb, hsucc]
  case whole => exact hl.whole
  case returns => exact hl.returns

include hl hdraft hexpands hgraph in
theorem copies_of_expands (hle : fields.table ≤ c.table)
    (hshares : a.config.fieldCopropagation = true → i.draft.Shares i.table fieldsAt) :
    a.Copies i c pts fieldsAt := by
  constructor
  case table => exact PointerTable.le_trans hexpands.table hle
  case names =>
    intro b p hb
    obtain ⟨block, block', -, hfor, hget, hextends⟩ := exists_expanded hl hdraft hexpands hgraph hb
    have hcopies := copies_eq_copiesAt hfor
    have hmoves := Numbered.names (hl.numbered p (List.mem_of_getElem? hb))
    rw [← hcopies] at hmoves
    have hnames := hextends.copies _ hmoves fun copy hcopy =>
      origin_of_mem_copiesAt (hcopies ▸ hcopy)
    rw [Graph.copiesOf, hget]
    exact hnames.imp fun _ _ hn => hn.mono hle
  case links =>
    intro p hp v w hpair
    obtain ⟨b, hb⟩ := List.mem_iff_getElem?.1 hp
    obtain ⟨block, -, hget, hfor, -⟩ := exists_expanded hl hdraft hexpands hgraph hb
    obtain ⟨copy, hcopy, hn⟩ := exists_named_copy (Numbered.names (hl.numbered p hp)) hpair
    refine ⟨block, Array.mem_of_getElem? hget, copy, ?_, origin_of_mem_copiesAt hcopy, hn⟩
    rwa [copies_eq_copiesAt hfor]
  case shares => exact hshares

end Expanded

/-- An inlined program that was completed has a graph of points. -/
theorem complete_edgesAreSteps (hrun : a.inliner.run entry = .ok (some i))
    (h : a.complete i = .ok c) :
    ∃ pts fieldsAt, a.EdgesAreSteps entry i c pts ∧ a.Copies i c pts fieldsAt := by
  obtain ⟨fields, hfields, hsites, hgraph, -⟩ := complete_eq_ok h
  obtain ⟨fieldsAt, hexpands, hshares⟩ := expands_of_fields hfields
  obtain ⟨st, pts, hl, hstart, hentry, hdraft, -, -⟩ := run_layout hrun
  refine ⟨pts, fieldsAt, edgesAreSteps_of_expands hl hdraft hexpands hgraph hstart hentry, ?_⟩
  exact copies_of_expands hl hdraft hexpands hgraph (Sites.ofMethods_spec hsites).1 hshares

/-- Each block of an inlined program has the copies of a point whose pointers are numbered. -/
theorem point_of_block {inl : Inliner} (hrun : inl.run entry = .ok (some i)) {b : Block}
    (hb : b ∈ i.draft.blocks) :
    ∃ p, inl.Numbered i.table p ∧ b.copies = inl.copiesAt i.table p := by
  obtain ⟨st, pts, hl, -, -, hdraft, -, -⟩ := run_layout hrun
  obtain ⟨n, hn⟩ := Array.mem_iff_getElem?.1 hb
  have hlt : n < pts.length := by
    rw [hl.size, hdraft]
    exact (Array.getElem?_eq_some_iff.1 hn).1
  have hp := List.getElem?_eq_getElem hlt
  have hfor := hl.content n _ hp
  rw [hdraft, hn] at hfor
  exact ⟨_, hl.numbered _ (List.mem_of_getElem? hp), copies_eq_copiesAt hfor.symm⟩

theorem named_of_run {inl : Inliner} (hrun : inl.run entry = .ok (some i)) :
    ∀ b ∈ i.draft.blocks, ∀ c ∈ b.copies, c.Named i.table := by
  intro b hb c hc
  obtain ⟨p, hnumbered, hcopies⟩ := point_of_block hrun hb
  obtain ⟨pair, -, hnames⟩ := exists_name_of_copy hnumbered.names (hcopies ▸ hc)
  exact ⟨pair, hnames⟩

theorem fresh_of_run {inl : Inliner} (hrun : inl.run entry = .ok (some i)) :
    ∀ b ∈ i.draft.blocks, ∀ c ∈ b.copies, c.origin ≠ .fieldCopy := by
  intro b hb c hc
  obtain ⟨p, -, hcopies⟩ := point_of_block hrun hb
  exact origin_of_mem_copiesAt (hcopies ▸ hc)

theorem complete_ok (hrun : a.inliner.run entry = .ok (some i)) : ∃ c, a.complete i = .ok c := by
  obtain ⟨st, pts, hl, -, -, hdraft, -, -⟩ := run_layout hrun
  have hmethods : ∀ m ∈ i.methods.toList, (a.program.method? m).isSome = true :=
    run_methods hrun
  have hinside : ∀ b, ∀ k ∈ i.draft.successors b, k < i.draft.size := hdraft ▸ hl.inside
  unfold complete
  extract_lets methods zero rest
  have hrest : ∀ fields fieldsAt, i.draft.Expands i.table fieldsAt fields.draft fields.table →
      ∃ c, rest fields = .ok c := by
    intro fields fieldsAt hexpands
    obtain ⟨⟨sites, table⟩, hsites⟩ := Sites.ofMethods_ok hmethods a.hooks fields.table
    obtain ⟨graph, hgraph⟩ := Draft.close_ok (d := fields.draft)
      (fun b k hk => by
        rw [hexpands.size]
        exact hinside b k (hexpands.successors b ▸ hk)) i.entry
    exact ⟨_, by simp only [rest, methods, hsites, ok_bind, hgraph]; rfl⟩
  split
  · obtain ⟨fields, hfields⟩ := propagateFields_ok (named_of_run hrun)
    obtain ⟨fieldsAt, hexpands, -⟩ := propagateFields_spec hfields
    rw [hfields]
    exact hrest fields fieldsAt hexpands
  · exact hrest _ _ (i.draft.expands_refl i.table fun _ => rfl)

/-- An analysis with a resolver that finds methods of the program only builds its graph, from every
entry method with statements. -/
theorem built {method : Method} (hv : a.resolver.Valid a.program)
    (hm : a.program.method? entry = some method) (hs : method.stmts ≠ []) :
    ∃ i c, a.inliner.run entry = .ok (some i) ∧ a.complete i = .ok c ∧
      ∃ pts fieldsAt, a.EdgesAreSteps entry i c pts ∧ a.Copies i c pts fieldsAt := by
  have hvalid : a.inliner.resolver.Valid a.inliner.program := hv
  have hentry : a.inliner.program.method? entry = some method := hm
  obtain ⟨i, hrun⟩ := run_ok hvalid hentry hs
  obtain ⟨c, hc⟩ := complete_ok hrun
  exact ⟨i, c, hrun, hc, complete_edgesAreSteps hrun hc⟩

theorem faulty_eq_ok {α : Type} {x : Except Fault α} {y : α} : faulty x = .ok y ↔ x = .ok y := by
  cases x <;> simp [faulty]

theorem construct_eq_ok (h : a.construct = .ok c) :
    ∃ entry, a.program.entryMethod a.config.entry = .ok entry ∧ a.constructFrom entry = .ok c := by
  rw [construct] at h
  split at h
  · cases h
  · split at h
    · cases h
    · next entry hentry => exact ⟨entry, hentry, faulty_eq_ok.1 h⟩

theorem run_eq_ok {o : Outcome} (h : a.run = .ok o)
    (hentry : a.program.entryMethod a.config.entry = .ok entry) :
    ∃ c, a.constructFrom entry = .ok c ∧ a.finish c = .ok o := by
  obtain ⟨c, hc, ho⟩ := bind_eq_ok.1 h
  obtain ⟨entry', hentry', hc⟩ := construct_eq_ok hc
  cases hentry'.symm.trans hentry
  exact ⟨c, hc, faulty_eq_ok.1 ho⟩

/-- What is constructed from an entry method, with and without statements in it. -/
theorem constructFrom_eq_ok (h : a.constructFrom entry = .ok c) :
    (a.inliner.run entry = .ok none ∧ ∃ events, c = ⟨∅, .empty, .empty, .zero, events⟩) ∨
      ∃ i c', a.inliner.run entry = .ok (some i) ∧ a.complete i = .ok c' ∧
        ∃ events, c = { c' with events } := by
  obtain ⟨method, -, h⟩ := bind_eq_ok.1 h
  obtain ⟨inlined, hrun, h⟩ := bind_eq_ok.1 h
  cases inlined with
  | none => exact Or.inl ⟨hrun, _, (pure_eq_ok.1 h).symm⟩
  | some i =>
    obtain ⟨c', hc, h⟩ := bind_eq_ok.1 h
    exact Or.inr ⟨i, c', hrun, hc, _, (pure_eq_ok.1 h).symm⟩

section Entry

variable {method : Method} (hm : a.program.method entry = .ok method)

include hm

theorem constructFrom_of_none (hrun : a.inliner.run entry = .ok none) :
    a.constructFrom entry = .ok ⟨∅, .empty, .empty, .zero,
      [.started method.qualifiedName a.config.maxInlineDepth,
        .entryWithoutBody method.qualifiedName]⟩ := by
  unfold constructFrom
  rw [hm, ok_bind]
  change (a.inliner.run entry >>= _) = _
  rw [hrun]
  rfl

theorem constructFrom_of_some (hrun : a.inliner.run entry = .ok (some i))
    (hc : a.complete i = .ok c) : a.constructFrom entry = .ok { c with
      events := .started method.qualifiedName a.config.maxInlineDepth :: c.events } := by
  unfold constructFrom
  rw [hm, ok_bind]
  change (a.inliner.run entry >>= _) = _
  rw [hrun, ok_bind]
  dsimp only
  rw [hc]
  rfl

end Entry

theorem constructFrom_ok {method : Method} (hv : a.resolver.Valid a.program)
    (hm : a.program.method? entry = some method) : ∃ c, a.constructFrom entry = .ok c := by
  have hmethod : a.program.method entry = .ok method := orFault_eq_ok.2 hm
  have hvalid : a.inliner.resolver.Valid a.inliner.program := hv
  have hentry : a.inliner.program.method? entry = some method := hm
  by_cases hs : method.stmts = []
  · exact ⟨_, constructFrom_of_none hmethod (run_eq_none hentry hs)⟩
  · obtain ⟨i, hrun⟩ := run_ok hvalid hentry hs
    obtain ⟨c, hc⟩ := complete_ok hrun
    exact ⟨_, constructFrom_of_some hmethod hrun hc⟩

end Analysis

end PointsTo
