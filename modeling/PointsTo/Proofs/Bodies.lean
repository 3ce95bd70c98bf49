import PointsTo.Proofs.Collected
import PointsTo.Proofs.Registered

/-! Which methods get instances, and which test points are answered. A callee is inlined only if it
has a body, and the test points of all methods with a body are answered. The entry method is only
asked for statements, so an abstract entry with statements is inlined as well. -/
namespace PointsTo

def Program.Bodied (p : Program) (m : MethodId) : Prop :=
  ∃ method, p.method? m = some method ∧ method.hasBody = true

def Stmt.tracedTest? (h : Recognizer) : Stmt → Option Int
  | call c => match h c with
    | some (.test (some id) (some _)) => some id
    | _ => none
  | _ => none

def Graph.HasInstance (g : Graph) (m : MethodId) : Prop :=
  ∃ block ∈ g.blocks, ∃ first last depth, block.kind = .body m first last depth

section Statements

variable {h : Recognizer} {s : Stmt} {id : Int}

theorem tracedTest?_eq_some : s.tracedTest? h = some id ↔
    ∃ c v, s = .call c ∧ h c = some (.test (some id) (some v)) := by
  constructor
  · intro hs
    unfold Stmt.tracedTest? at hs
    split at hs
    · next c =>
      split at hs
      · next id' v hc =>
        cases hs
        exact ⟨c, v, rfl, hc⟩
      · cases hs
    · cases hs
  · rintro ⟨c, v, rfl, hc⟩
    simp only [Stmt.tracedTest?, hc]

theorem tracedTest?_of_effect {m : MethodId} {receiver : Option Var} {x : Nat} {traced : Pointer}
    (he : (s.effect h m receiver x).test? = some (id, traced)) : s.tracedTest? h = some id := by
  cases s with
  | call c =>
    simp only [Stmt.effect, Stmt.tracedTest?] at he ⊢
    split at he
    · cases he
    · cases he
    · cases he
      simp [*]
    · cases he
  | copy x operand => cases operand <;> cases he
  | store base field operand => cases operand <;> cases he
  | ret value => rcases value with _ | _ | _ <;> cases receiver <;> cases he
  | _ => cases he

theorem testId?_of_tracedTest? (hs : s.tracedTest? h = some id) : s.testId? h = some id := by
  obtain ⟨c, v, rfl, hc⟩ := tracedTest?_eq_some.1 hs
  simp only [Stmt.testId?, hc]

end Statements

namespace Inliner

variable {inl : Inliner} {entry : MethodId} {st st' : Inlining} {stack : List PendingCall}
  {i : Inlined}

theorem bodied_of_mem_pendingOf {m : MethodId} {depth base : Nat} {bis : List (LocalBlock × Nat)}
    {w : PendingCall} (hw : w ∈ inl.pendingOf m depth base bis) :
    inl.program.Bodied w.callee := by
  obtain ⟨bi, -, hw⟩ := List.mem_filterMap.1 hw
  obtain ⟨ic, -, hw⟩ := Option.bind_eq_some_iff.1 hw
  obtain ⟨callee, hc, -, rfl⟩ := pendingFor_eq_some.1 hw
  exact (callee?_eq_some.1 hc).2

theorem instantiate_bodied {m : MethodId} {receiver : Option Var} {depth : Nat} {inst : Instance}
    (h : inl.instantiate m receiver depth st = .ok (inst, st')) :
    ∀ w ∈ inst.calls, inl.program.Bodied w.callee := by
  obtain ⟨-, -, -, -, hspec⟩ := instantiate_spec h
  obtain ⟨-, -, rfl, -⟩ := hspec st'.table (PointerTable.le_refl _)
  intro w hw
  exact bodied_of_mem_pendingOf hw

/-- A turn of the loop adds the callee of a waiting call, and the calls that wait have callees with
bodies. -/
theorem Drains.bodied (h : inl.Drains stack st st')
    (hstack : ∀ w ∈ stack, inl.program.Bodied w.callee)
    (hst : ∀ m ∈ st.methods, m = entry ∨ inl.program.Bodied m) :
    ∀ m ∈ st'.methods, m = entry ∨ inl.program.Bodied m := by
  induction h with
  | done => exact hst
  | @turn w inst stack st st₁ st' hsplice _ ih =>
    apply ih
    · intro v hv
      rcases List.mem_append.1 hv with hv | hv
      · obtain ⟨st₂, -, hinst, -⟩ := splice_eq_ok hsplice
        exact instantiate_bodied hinst v (List.mem_reverse.1 hv)
      · exact hstack v (List.mem_cons_of_mem w hv)
    · intro m hm
      rw [(splice_spec hsplice).2.2.1] at hm
      rcases OrderedSet.mem_insert.1 hm with rfl | hm
      · exact Or.inr (hstack w List.mem_cons_self)
      · exact hst m hm

theorem run_bodied (h : inl.run entry = .ok (some i)) :
    ∀ m ∈ i.methods, m = entry ∨ inl.program.Bodied m := by
  obtain ⟨-, root, st, st', hroot, hdrains, -, -, -, hmethods, -⟩ := run_builds h
  rw [hmethods]
  apply hdrains.bodied
  · intro w hw
    exact instantiate_bodied hroot w (List.mem_reverse.1 hw)
  · intro m hm
    obtain ⟨-, -, -, hinsert, -⟩ := instantiate_spec hroot
    rw [hinsert] at hm
    exact Or.inl ((OrderedSet.mem_insert.1 hm).resolve_right (OrderedSet.not_mem_empty m))

end Inliner

namespace Analysis

open Inliner

variable {a : Analysis} {entry : MethodId} {i : Inlined} {c : Construction} {id : Int}

structure Holds (a : Analysis) (i : Inlined) (c : Construction) (b : Nat) (act : Activation)
    (lb : LocalBlock) : Prop where
  numbered : (methodBlocks a.hooks act.method (a.inliner.stmtsOf act.method) act.receiver
    i.table).2 = i.table
  found : a.inliner.blockAt i.table act = some lb
  block : ∃ copies depth, c.graph.blocks[b]? =
    some ⟨b, .body act.method lb.first lb.last depth, copies, lb.mark⟩

theorem Holds.last_stmt {b : Nat} {act : Activation} {lb : LocalBlock} (h : a.Holds i c b act lb) :
    ∃ s, (a.inliner.stmtsOf act.method)[lb.last]? = some s :=
  ⟨_, List.getElem?_eq_getElem (block_bounds h.found).2⟩

theorem Holds.traced {b : Nat} {act : Activation} {lb : LocalBlock} {s : Stmt} {mark : TestMark}
    (h : a.Holds i c b act lb) (hs : (a.inliner.stmtsOf act.method)[lb.last]? = some s)
    (hmark : lb.mark = some mark) : s.tracedTest? a.hooks = some mark.testId := by
  have hrel := mark_denotes h.numbered h.found hs
  rw [hmark] at hrel
  generalize he : (s.effect a.hooks act.method act.receiver lb.last).test? = test at hrel
  cases hrel with
  | some hnames =>
    rw [hnames.1]
    exact tracedTest?_of_effect he

section Expanded

variable {st : Inlining} {pts : List Point} {fields : Propagated} {fieldsAt : Var → List FieldRef}
  {b : Nat} (hl : Layout a.inliner i.table st pts []) (hdraft : st.draft = i.draft)
  (hexpands : i.draft.Expands i.table fieldsAt fields.draft fields.table)
  (hgraph : fields.draft.close i.entry = .ok c.graph)

include hl hdraft hexpands hgraph

theorem holds_of_point {act : Activation} {cs : List Activation}
    (hb : pts[b]? = some (.block act cs)) : ∃ lb, a.Holds i c b act lb := by
  obtain ⟨block₀, block', -, hfor, hget, hextends⟩ :=
    exists_expanded hl hdraft hexpands hgraph hb
  obtain ⟨lb, hlb, rfl⟩ := Option.map_eq_some_iff.1 hfor
  refine ⟨lb, hl.numbered _ (List.mem_of_getElem? hb), hlb, block'.copies, cs.length, ?_⟩
  rw [hget, hextends.same]

theorem point_of_block_kind {block : Block} (hblock : c.graph.blocks[b]? = some block)
    (hkind : (∃ m first last depth, block.kind = .body m first last depth) ∨
      block.mark.isSome = true) : ∃ act cs, pts[b]? = some (.block act cs) := by
  have hblocks : c.graph.blocks = fields.draft.blocks := by rw [← (Draft.freeze_eq_ok.1 hgraph).2]
  have hlt : b < pts.length := by
    rw [hl.size, hdraft, ← hexpands.size, Draft.size, ← hblocks]
    exact (Array.getElem?_eq_some_iff.1 hblock).1
  have hb := List.getElem?_eq_getElem hlt
  obtain ⟨block₀, block', -, hfor, hget, hextends⟩ :=
    exists_expanded hl hdraft hexpands hgraph hb
  obtain rfl := Option.some.inj (hget.symm.trans hblock)
  rw [hextends.same] at hkind
  generalize pts[b] = p at hb hfor
  cases p with
  | block act cs => exact ⟨act, cs, hb⟩
  | enter act cs =>
    -- blocks around calls hold no statements and carry no marks
    obtain ⟨found, -, rfl⟩ := Option.map_eq_some_iff.1 hfor
    rcases hkind with ⟨_, _, _, _, hbody⟩ | hmark
    · cases hbody
    · cases hmark
  | leave act cs =>
    obtain ⟨found, -, rfl⟩ := Option.map_eq_some_iff.1 hfor
    rcases hkind with ⟨_, _, _, _, hbody⟩ | hmark
    · cases hbody
    · cases hmark

end Expanded

/-- Blocks of instances are all blocks with statements or marks, and the entry has an instance. -/
theorem blocks_of_instances (hrun : a.inliner.run entry = .ok (some i))
    (hc : a.complete i = .ok c) :
    (∀ (b : Nat) (block : Block), c.graph.blocks[b]? = some block →
      (∃ m first last depth, block.kind = .body m first last depth) ∨ block.mark.isSome = true →
      ∃ act lb, act.method ∈ i.methods ∧ a.Holds i c b act lb) ∧
    ∀ x lb, a.inliner.blockAt i.table ⟨entry, none, x⟩ = some lb →
      ∃ b, a.Holds i c b ⟨entry, none, x⟩ lb := by
  obtain ⟨fields, hfields, -, hgraph, -⟩ := complete_eq_ok hc
  obtain ⟨fieldsAt, hexpands, -⟩ := expands_of_fields hfields
  obtain ⟨st, pts, hl, hstart, -, hdraft, hmethods, -⟩ := run_layout hrun
  constructor
  · intro b block hblock hkind
    obtain ⟨act, cs, hb⟩ := point_of_block_kind hl hdraft hexpands hgraph hblock hkind
    obtain ⟨lb, hh⟩ := holds_of_point hl hdraft hexpands hgraph hb
    refine ⟨act, lb, ?_, hh⟩
    rw [← hmethods]
    exact hl.methods act cs (List.mem_of_getElem? hb)
  · intro x lb hlb
    have hlt := (List.getElem?_eq_some_iff.1 hlb).1
    have hmem := (hl.whole _ _ (List.mem_of_getElem? hstart) x).2 hlt
    obtain ⟨b, hb⟩ := List.mem_iff_getElem?.1 hmem
    obtain ⟨lb', hh⟩ := holds_of_point hl hdraft hexpands hgraph hb
    obtain rfl := Option.some.inj (hh.found.symm.trans hlb)
    exact ⟨b, hh⟩

theorem instances_bodied (hrun : a.inliner.run entry = .ok (some i)) (hc : a.complete i = .ok c) :
    c.graph.HasInstance entry ∧
      ∀ m, c.graph.HasInstance m → m = entry ∨ a.program.Bodied m := by
  obtain ⟨hblocks, hentry⟩ := blocks_of_instances hrun hc
  constructor
  · have hs : a.inliner.stmtsOf entry ≠ [] := (run_builds hrun).1
    have hlt : 0 < (a.inliner.blocksOf i.table entry none).length := methodBlocks_pos hs
    obtain ⟨b, hh⟩ := hentry 0 _ (List.getElem?_eq_getElem hlt)
    obtain ⟨copies, depth, hblock⟩ := hh.block
    exact ⟨_, Array.mem_of_getElem? hblock, _, _, _, rfl⟩
  · rintro m ⟨block, hblock, first, last, depth, hkind⟩
    obtain ⟨b, hb⟩ := Array.mem_iff_getElem?.1 hblock
    obtain ⟨act, lb, hact, hh⟩ := hblocks b block hb (Or.inl ⟨m, first, last, depth, hkind⟩)
    obtain ⟨copies, depth', hblock'⟩ := hh.block
    obtain rfl := Option.some.inj (hblock'.symm.trans hb)
    cases hkind
    exact run_bodied hrun _ hact

/-- The carried test points are declared, apart from those that the entry method traces. -/
theorem declared_of_carries (hrun : a.inliner.run entry = .ok (some i)) (hc : a.complete i = .ok c)
    (h : c.graph.Carries id) : id ∈ a.program.declaredTests a.hooks ∨
      ∃ s ∈ a.inliner.stmtsOf entry, s.tracedTest? a.hooks = some id := by
  obtain ⟨b, mark, hpoint, rfl⟩ := h
  obtain ⟨block, hblock, hmark⟩ := List.mem_filterMap.1 hpoint
  obtain ⟨n, hn⟩ := Array.mem_iff_getElem?.1 (Array.mem_toList_iff.1 hblock)
  obtain ⟨mark', hmark', heq⟩ := Option.map_eq_some_iff.1 hmark
  cases heq
  obtain ⟨act, lb, hact, hh⟩ :=
    (blocks_of_instances hrun hc).1 n block hn (Or.inr (by rw [hmark']; rfl))
  obtain ⟨copies, depth, hblock'⟩ := hh.block
  obtain rfl := Option.some.inj (hblock'.symm.trans hn)
  obtain ⟨s, hs⟩ := hh.last_stmt
  have htraced := hh.traced hs hmark'
  have hmem := List.mem_of_getElem? hs
  rcases run_bodied hrun _ hact with hentry | ⟨method, hm, hbody⟩
  · rw [hentry] at hmem
    exact Or.inr ⟨s, hmem, htraced⟩
  · refine Or.inl (mem_declaredTests.2 ⟨act.method, method, hm, hbody, s, ?_, ?_⟩)
    · rwa [stmtsOf_inliner hm] at hmem
    · exact testId?_of_tracedTest? htraced

/-- Every complete test hook of the entry method is carried by a block. -/
theorem carries_of_traced (hrun : a.inliner.run entry = .ok (some i)) (hc : a.complete i = .ok c)
    {s : Stmt} (hs : s ∈ a.inliner.stmtsOf entry) (htraced : s.tracedTest? a.hooks = some id) :
    c.graph.Carries id := by
  obtain ⟨call, v, rfl, hhook⟩ := tracedTest?_eq_some.1 htraced
  obtain ⟨x, hx⟩ := List.mem_iff_getElem?.1 hs
  have hlt := (List.getElem?_eq_some_iff.1 hx).1
  obtain ⟨lb, hlb, hfirst, hlast⟩ : ∃ lb ∈ (methodBlocks a.hooks entry (a.inliner.stmtsOf entry)
      none i.table).1, lb.first ≤ x ∧ x ≤ lb.last := covered_of_lt hlt
  obtain ⟨n, hn⟩ := List.mem_iff_getElem?.1 hlb
  obtain ⟨b, hh⟩ := (blocks_of_instances hrun hc).2 n lb hn
  have hends : (Stmt.call call).endsBlock a.hooks = true := by
    simp [Stmt.endsBlock, Stmt.isAllocHook, hhook]
  obtain rfl := ends_last hn hfirst hlast hx hends
  obtain ⟨traced, hmark, -⟩ := block_mark hh.numbered hn hx hhook
  obtain ⟨copies, depth, hblock⟩ := hh.block
  refine ⟨b, ⟨id, traced⟩, ?_, rfl⟩
  refine List.mem_filterMap.2 ⟨_, Array.mem_toList_iff.2 (Array.mem_of_getElem? hblock), ?_⟩
  rw [hmark]
  rfl

/-- A run from an entry method answers the declared test points and those that the entry traces,
and every other method with an instance has a body. -/
structure Inlines (a : Analysis) (entry : MethodId) (method : Method) (o : Outcome) : Prop where
  callees : ∀ m, o.construction.graph.HasInstance m → m = entry ∨ a.program.Bodied m
  entered : o.construction.graph.HasInstance entry ↔ method.stmts ≠ []
  answered : ∀ id, (o.answers.get? id).isSome = true ↔
    id ∈ a.program.declaredTests a.hooks ∨ ∃ s ∈ method.stmts, s.tracedTest? a.hooks = some id

theorem run_inlines {method : Method} (hm : a.program.method? entry = some method)
    (hc : a.constructFrom entry = .ok c) {o : Outcome} (ho : a.finish c = .ok o) :
    a.Inlines entry method o := by
  obtain ⟨collected, hcollected, heq⟩ := bind_eq_ok.1 ho
  obtain rfl := pure_eq_ok.1 heq
  have hstmts : a.inliner.stmtsOf entry = method.stmts := stmtsOf_inliner hm
  rcases constructFrom_eq_ok hc with ⟨hrun, events, rfl⟩ | ⟨i, c', hrun, hc', events, rfl⟩
  · have hnil : method.stmts = [] := hstmts ▸ stmts_of_run_none hrun
    have hnone : ∀ m, ¬ Graph.empty.HasInstance m := by
      rintro m ⟨block, hblock, -⟩
      cases Array.not_mem_empty block hblock
    constructor
    case callees => exact fun m h => absurd h (hnone m)
    case entered =>
      rw [hnil]
      exact iff_of_false (hnone entry) (not_not_intro rfl)
    case answered =>
      intro id
      rw [Outcome.answers, isSome_collected hcollected, hnil]
      have hcarries : ¬ Graph.empty.Carries id := by
        rintro ⟨b, mark, hpoint, -⟩
        cases hpoint
      simp [hcarries]
  · obtain ⟨hinstance, hcallees⟩ := instances_bodied hrun hc'
    have hne : method.stmts ≠ [] := hstmts ▸ (run_builds hrun).1
    constructor
    case callees => exact hcallees
    case entered => exact iff_of_true hinstance hne
    case answered =>
      intro id
      rw [Outcome.answers, isSome_collected hcollected, ← hstmts]
      constructor
      · rintro (hcarries | hdeclared)
        · exact declared_of_carries hrun hc' hcarries
        · exact Or.inl hdeclared
      · rintro (hdeclared | ⟨s, hs, htraced⟩)
        · exact Or.inr hdeclared
        · exact Or.inl (carries_of_traced (c := c') hrun hc' hs htraced)

/-- All methods with instances have bodies, and exactly the declared test points are answered, if
the entry method has a body or no statements. An abstract entry method with statements is inlined,
and its test points are answered without being declared. -/
theorem answers_are_declared (hv : a.resolver = .hierarchy ∨ a.resolver.Valid a.program)
    (hvalid : a.config.validate = .ok ())
    (hentry : a.program.entryMethod a.config.entry = .ok entry) {method : Method}
    (hm : a.program.method? entry = some method) :
    ∃ o, a.run = .ok o ∧ a.Inlines entry method o ∧
      ((∀ m, o.construction.graph.HasInstance m → a.program.Bodied m) ↔
        method.isAbstract = false ∨ method.stmts = []) ∧
      (method.isAbstract = false ∨ method.stmts = [] → ∀ id,
        (o.answers.get? id).isSome = true ↔ id ∈ a.program.declaredTests a.hooks) := by
  have hresolver : a.resolver.Valid a.program := by
    rcases hv with hv | hv
    · rw [hv]
      exact hierarchy_valid a.program
    · exact hv
  obtain ⟨-, o, ho, -⟩ := run_ok_of_entry hresolver hvalid hentry
  obtain ⟨c, hc, hfinish⟩ := run_eq_ok ho hentry
  have hinlines := run_inlines hm hc hfinish
  have hbodied : a.program.Bodied entry ↔ method.isAbstract = false ∧ method.stmts ≠ [] := by
    constructor
    · rintro ⟨method', hm', hbody⟩
      cases hm.symm.trans hm'
      simpa [Method.hasBody] using hbody
    · intro hbody
      exact ⟨method, hm, by simpa [Method.hasBody] using hbody⟩
  refine ⟨o, ho, hinlines, ?_, ?_⟩
  · constructor
    · intro hall
      by_cases hs : method.stmts = []
      · exact Or.inr hs
      · exact Or.inl (hbodied.1 (hall entry (hinlines.entered.2 hs))).1
    · intro hnot m hinstance
      rcases hinlines.callees m hinstance with rfl | hm'
      · have hs := hinlines.entered.1 hinstance
        exact hbodied.2 ⟨hnot.resolve_right hs, hs⟩
      · exact hm'
  · intro hnot id
    rw [hinlines.answered, or_iff_left_of_imp]
    rintro ⟨s, hs, htraced⟩
    have hne : method.stmts ≠ [] := List.ne_nil_of_mem hs
    obtain ⟨method', hm', hbody⟩ := hbodied.2 ⟨hnot.resolve_right hne, hne⟩
    cases hm.symm.trans hm'
    exact mem_declaredTests.2 ⟨entry, method, hm, hbody, s, hs, testId?_of_tracedTest? htraced⟩

/-- The entry calls an abstract method with statements; what else there is has a body. Test point 3
stands where control never is. -/
def declaring (abstractEntry : Bool) : Analysis :=
  .of ⟨[], [
    ⟨"Main", "main", "", true, abstractEntry, none, [], ["a"], [.call (Hooks.default.allocCall 1),
      .new 0 "A", .call ⟨none, ⟨"A", "f", ""⟩, [], none⟩, .call (Hooks.default.testCall 1 0),
      .ret none]⟩,
    ⟨"A", "f", "", true, true, none, [], ["x"], [.call (Hooks.default.testCall 2 0), .ret none]⟩,
    ⟨"A", "g", "", true, false, none, [], ["x"], [.call (Hooks.default.testCall 3 0),
      .ret none]⟩], none⟩ .default

theorem declaring_answers_declared :
    ∃ o, (declaring false).run = .ok o ∧
      (∀ m, o.construction.graph.HasInstance m → (declaring false).program.Bodied m) ∧
      (∀ id, (o.answers.get? id).isSome = true ↔
        id ∈ (declaring false).program.declaredTests (declaring false).hooks) ∧
      ((declaring false).program.declaredTests (declaring false).hooks).toList = [1, 3] := by
  have hentry : (declaring false).program.entryMethod (declaring false).config.entry = .ok 0 := by
    decide +kernel
  obtain ⟨o, ho, -, hinstances, hanswers⟩ :=
    answers_are_declared (Or.inl rfl) (by decide +kernel) hentry rfl
  refine ⟨o, ho, ?_, ?_, ?_⟩
  · exact hinstances.2 (Or.inl rfl)
  · exact hanswers (Or.inl rfl)
  · decide +kernel

/-- The abstract entry method has an instance, and its test point is answered undeclared. -/
theorem abstract_entry_inlined :
    (declaring true).config.validate = .ok () ∧
      (declaring true).program.entryMethod (declaring true).config.entry = .ok 0 ∧
      ¬ (declaring true).program.Bodied 0 ∧
      1 ∉ (declaring true).program.declaredTests (declaring true).hooks ∧
      ∃ o, (declaring true).run = .ok o ∧ o.construction.graph.HasInstance 0 ∧
        (o.answers.get? 1).isSome = true := by
  refine ⟨by decide +kernel, by decide +kernel, ?_, by decide +kernel, ?_⟩
  · rintro ⟨method, hm, hbody⟩
    cases hm
    cases hbody
  · obtain ⟨o, ho, hkind, hanswer⟩ : ∃ o, (declaring true).run = .ok o ∧
        (o.construction.graph.blocks[0]?.map fun block => block.kind) = some (.body 0 0 2 0) ∧
        (o.answers.get? 1).isSome = true := exists_ok (by decide +kernel)
    obtain ⟨block, hblock, hbody⟩ := Option.map_eq_some_iff.1 hkind
    exact ⟨o, ho, ⟨block, Array.mem_of_getElem? hblock, 0, 2, 0, hbody⟩, hanswer⟩

end Analysis

end PointsTo
