import PointsTo.Proofs.Bodies
import PointsTo.Proofs.Inline.Accounting
import PointsTo.Proofs.Inline.Bounds
import PointsTo.Proofs.Inline.Rows
import PointsTo.Proofs.Solver.Budget
import PointsTo.Proofs.Soundness.Frames

/-! Test points are reported where they stand. A test hook ends a block of its own in every instance
of its method, since methods are cut behind hooks. The block carries the hook's mark from the moment
it is built, and no copy of the block comes behind the hook. -/
namespace PointsTo

open Inliner

def parts (h : Recognizer) (stmts : List Stmt) : List (Nat × Nat) :=
  segments stmts.length (blockStarts h stmts).toList

def Analysis.Tests (a : Analysis) (m : MethodId) (x : Nat) (id : Int) (v : Slot) : Prop :=
  ∃ method call, a.program.method? m = some method ∧ method.stmts[x]? = some (.call call) ∧
    a.hooks call = some (.test (some id) (some v))

namespace Graph

def Runs (g : Graph) (b : Nat) (m : MethodId) (first last : Nat) : Prop :=
  ∃ block depth, g.blocks[b]? = some block ∧ block.kind = .body m first last depth

def Begins (g : Graph) (m : MethodId) (f : Nat) : Prop := ∃ last, g.Runs f m 0 last

def Reports (g : Graph) (t : PointerTable) (b : Nat) (id : Int) (v : Var) : Prop :=
  ∃ n, (b, ⟨id, n⟩) ∈ g.testPoints ∧ t.get? n = some (.var v)

end Graph

/-- How the marks of a graph stand to the test hooks of the program. -/
structure Analysis.Marking (a : Analysis) (g : Graph) (t : PointerTable) : Prop where
  /-- Each instance has one block for each part of its method, one behind another. -/
  instances : ∀ m method, a.program.method? m = some method → ∀ b first last,
    g.Runs b m first last ↔ ∃ f k, g.Begins m f ∧ b = f + k ∧
      (parts a.hooks method.stmts)[k]? = some (first, last)
  ends : ∀ m x id v, a.Tests m x id v → ∀ b first last, g.Runs b m first last → first ≤ x →
    x ≤ last → last = x ∧ g.Reports t b id ⟨m, v⟩
  placed : ∀ m x id v, a.Tests m x id v → ∃ k, ∀ b,
    ((∃ first, g.Runs b m first x) ∧ g.Reports t b id ⟨m, v⟩) ↔ ∃ f, g.Begins m f ∧ b = f + k
  counted : ∀ m x id v, a.Tests m x id v →
    {b | (∃ first, g.Runs b m first x) ∧ g.Reports t b id ⟨m, v⟩}.ncard = {f | g.Begins m f}.ncard
  only : ∀ b mark, (b, mark) ∈ g.testPoints → ∃ m first x v, a.Tests m x mark.testId v ∧
    g.Runs b m first x ∧ t.get? mark.traced = some (.var ⟨m, v⟩)
  single : ∀ b mark mark', (b, mark) ∈ g.testPoints → (b, mark') ∈ g.testPoints → mark = mark'
  /-- The copies of a marked block are those of its statements up to the hook, with field copies,
  and the traced number has what these bring to the variable. -/
  values : ∃ fieldsAt, ∀ m method, a.program.method? m = some method → ∀ x id v,
    a.Tests m x id v → ∀ b first, g.Runs b m first x →
      let moves := (loweringsFrom m none method.stmts first (x + 1 - first)).flatMap
        (withFields fieldsAt)
      List.Forall₂ (Copy.Names t) (g.copiesOf b) moves ∧
        ∀ n, (b, ⟨id, n⟩) ∈ g.testPoints → ∀ (s : Facts) l,
          (s.run (g.copiesOf b)).Holds n l ↔ moved (s.HoldsAt t) moves (.var ⟨m, v⟩) l

/-- What a run reports at its test points, whatever the budget. -/
structure Analysis.ReportsTests (a : Analysis) (o : Outcome) : Prop where
  marking : a.Marking o.construction.graph o.construction.table
  instances : {f | ∃ m, o.construction.graph.Begins m f}.ncard = o.stats.instances
  spliced : ∀ entry stack st w inst st', a.inliner.Moment entry stack st →
    a.inliner.splice w st = .ok (inst, st') → ∀ (b : Nat) block,
      st.draft.blocks[b]? = some block → st'.draft.blocks[b]? = some block
  propagated : ∀ d t fields, propagateFields d t = .ok fields → fields.draft.size = d.size ∧
    ∀ (b : Nat) block, d.blocks[b]? = some block →
      ∃ copies, fields.draft.blocks[b]? = some { block with copies }
  /-- A block that was evaluated has what its copies made of the facts that entered it. -/
  solved : let g := o.construction.graph
    let facts := seed a.config.seedPolicy o.construction.sites
    ∀ b < g.size, b < o.solution.evaluations → ∃ j < o.solution.evaluations, ∃ s,
      g.Enters facts (g.after facts j).stateOf b s ∧
        o.solution.factsAfter b = s.run (g.copiesOf b)
  untouched : ∀ b < o.construction.graph.size, o.solution.evaluations ≤ b →
    o.solution.factsAfter b = seed a.config.seedPolicy o.construction.sites
  converged : o.solution.converged = true →
    o.construction.graph.size ≤ o.solution.evaluations ∧
      o.construction.graph.Solves (seed a.config.seedPolicy o.construction.sites)
        o.solution.factsAfter

section Parts

variable {h : Recognizer} {m : MethodId} {stmts : List Stmt} {receiver : Option Var}
  {t : PointerTable} {k j first last x : Nat} {lb : LocalBlock}

theorem getElem?_parts (hlb : (methodBlocks h m stmts receiver t).1[k]? = some lb) :
    (parts h stmts)[k]? = some (lb.first, lb.last) := by
  obtain ⟨hfirst, hlast, -⟩ := methodBlocks_eq_some hlb
  rw [parts, getElem?_segments, hfirst, Option.map_some, ← hlast]

theorem block_of_part (m : MethodId) (receiver : Option Var) (t : PointerTable)
    (hpart : (parts h stmts)[k]? = some (first, last)) :
    ∃ lb, (methodBlocks h m stmts receiver t).1[k]? = some lb ∧ lb.first = first ∧
      lb.last = last := by
  have hlt : k < (methodBlocks h m stmts receiver t).1.length := by
    have := (List.getElem?_eq_some_iff.1 hpart).1
    rwa [parts, length_segments, ← OrderedSet.size, ← length_methodBlocks] at this
  have hlb := List.getElem?_eq_getElem hlt
  obtain ⟨hfirst, hlast⟩ := Prod.mk.inj (Option.some.inj ((getElem?_parts hlb).symm.trans hpart))
  exact ⟨_, hlb, hfirst, hlast⟩

theorem part_bounds (hpart : (parts h stmts)[k]? = some (first, last)) : first ≤ last := by
  obtain ⟨lb, hlb, rfl, rfl⟩ := block_of_part 0 none ∅ hpart
  exact (block_bounds hlb).1

theorem part_of_last {k j first first' last : Nat} (hk : (parts h stmts)[k]? = some (first, last))
    (hj : (parts h stmts)[j]? = some (first', last)) : k = j := by
  have hs : (blockStarts h stmts).toList.Pairwise (· < ·) :=
    (blockStarts h stmts).ascending.imp Nat.compare_eq_lt.1
  obtain ⟨hlasts, -⟩ := segments_lasts hs fun x hx => (mem_blockStarts.1 hx).1
  have hget : ∀ {k first : Nat}, (parts h stmts)[k]? = some (first, last) →
      ((parts h stmts).map Prod.snd)[k]? = some last := by
    intro k first hk
    rw [List.getElem?_map, hk, Option.map_some]
  exact (List.getElem?_inj (List.getElem?_eq_some_iff.1 (hget hk)).1
    (hlasts.imp Nat.ne_of_lt)).1 ((hget hk).trans (hget hj).symm)

theorem exists_part {s : Stmt} (hs : stmts[x]? = some s) (hends : s.endsBlock h = true) :
    ∃ k first : Nat, (parts h stmts)[k]? = some (first, x) := by
  obtain ⟨lb, hlb, hfirst, hlast⟩ : ∃ lb ∈ (methodBlocks h 0 stmts none ∅).1,
      lb.first ≤ x ∧ x ≤ lb.last := covered_of_lt (List.getElem?_eq_some_iff.1 hs).1
  obtain ⟨k, hk⟩ := List.mem_iff_getElem?.1 hlb
  have hpart := getElem?_parts hk
  rw [← ends_last hk hfirst hlast hs hends] at hpart
  exact ⟨k, lb.first, hpart⟩

/-- Only a return asks where results go. -/
theorem lowering_of_no_return {s : Stmt} (hret : ∀ value, s ≠ .ret value) :
    s.lowering m receiver x = s.lowering m none x := by
  cases s with
  | ret value => exact absurd rfl (hret value)
  | copy lhs rhs => cases rhs <;> rfl
  | load lhs base field => cases base <;> rfl
  | store base field rhs => cases base <;> cases rhs <;> rfl
  | _ => rfl

theorem loweringsFrom_of_no_return {n : Nat} (hret : ∀ y, first ≤ y → y < first + n →
    ∀ value, stmts[y]? ≠ some (.ret value)) :
    loweringsFrom m receiver stmts first n = loweringsFrom m none stmts first n := by
  refine List.filterMap_congr fun y hy => ?_
  obtain ⟨hle, hlt⟩ := List.mem_range'_1.1 hy
  cases hs : stmts[y]? with
  | none => rfl
  | some s =>
    refine lowering_of_no_return fun value heq => hret y hle hlt value ?_
    rw [hs, heq]

end Parts

namespace Facts

variable {s : Facts} {t : PointerTable} {copies : List Copy} {moves : List (Pointer × Pointer)}
  {n l : Nat} {p : Pointer}

theorem holdsAt_iff (hn : t.get? n = some p) : s.HoldsAt t p l ↔ s.Holds n l := by
  constructor
  · rintro ⟨k, hk, hholds⟩
    exact PointerTable.get?_inj hk hn ▸ hholds
  · exact fun hholds => ⟨n, hn, hholds⟩

/-- Copies between numbers do to the facts what the moves between pointers do. -/
theorem holds_run_iff_moved (hn : List.Forall₂ (Copy.Names t) copies moves)
    (hp : t.get? n = some p) :
    (s.run copies).Holds n l ↔ moved (s.HoldsAt t) moves p l := by
  rw [holds_run, moved_eq_origin, holdsAt_iff (get?_sourceOf hn hp)]

end Facts

namespace Analysis

structure Rows (a : Analysis) (i : Inlined) (c : Construction) (pts : List Point)
    (fieldsAt : Var → List FieldRef) : Prop where
  layout : ∃ st, Layout a.inliner i.table st pts []
  inRows : InRows pts
  holds : ∀ b act cs, pts[b]? = some (.block act cs) → ∃ lb, a.Holds i c b act lb
  point : ∀ (b : Nat) block, c.graph.blocks[b]? = some block →
    (∃ m first last depth, block.kind = .body m first last depth) ∨ block.mark.isSome = true →
      ∃ act cs, pts[b]? = some (.block act cs)
  copies : a.Copies i c pts fieldsAt

variable {a : Analysis} {entry : MethodId} {i : Inlined} {c : Construction} {pts : List Point}
  {fieldsAt : Var → List FieldRef} {m : MethodId} {method : Method} {b f k first last x n : Nat}
  {id : Int} {v : Slot} {lb : LocalBlock} {act : Activation}

theorem complete_rows (hrun : a.inliner.run entry = .ok (some i)) (hc : a.complete i = .ok c) :
    ∃ pts fieldsAt, a.Rows i c pts fieldsAt := by
  obtain ⟨fields, hfields, hsites, hgraph, -⟩ := complete_eq_ok hc
  obtain ⟨fieldsAt, hexpands, hshares⟩ := expands_of_fields hfields
  obtain ⟨st, hmoment, hdraft, htable⟩ := run_moment hrun
  obtain ⟨pts, hl, hrows⟩ := hmoment.rows i.table (htable ▸ PointerTable.le_refl _)
  refine ⟨pts, fieldsAt, ⟨st, hl⟩, hrows, ?_, ?_, ?_⟩
  · exact fun b act cs hb => holds_of_point hl hdraft.symm hexpands hgraph hb
  · exact fun b block hb hkind => point_of_block_kind hl hdraft.symm hexpands hgraph hb hkind
  · exact copies_of_expands hl hdraft.symm hexpands hgraph (Sites.ofMethods_spec hsites).1 hshares

theorem Holds.part (h : a.Holds i c b act lb) :
    (parts a.hooks (a.inliner.stmtsOf act.method))[act.block]? = some (lb.first, lb.last) :=
  getElem?_parts h.found

namespace Rows

variable (h : a.Rows i c pts fieldsAt)

include h

theorem runs_iff : c.graph.Runs b m first last ↔ ∃ act cs lb, pts[b]? = some (.block act cs) ∧
    a.Holds i c b act lb ∧ act.method = m ∧ lb.first = first ∧ lb.last = last := by
  constructor
  · rintro ⟨block, depth, hblock, hkind⟩
    obtain ⟨act, cs, hb⟩ := h.point b block hblock (Or.inl ⟨m, first, last, depth, hkind⟩)
    obtain ⟨lb, hh⟩ := h.holds b act cs hb
    obtain ⟨copies, depth', hblock'⟩ := hh.block
    obtain rfl := Option.some.inj (hblock'.symm.trans hblock)
    cases hkind
    exact ⟨act, cs, lb, hb, hh, rfl, rfl, rfl⟩
  · rintro ⟨act, cs, lb, -, hh, rfl, rfl, rfl⟩
    obtain ⟨copies, depth, hblock⟩ := hh.block
    exact ⟨_, depth, hblock, rfl⟩

theorem begins_iff : c.graph.Begins m f ↔
    ∃ act cs, pts[f]? = some (.block act cs) ∧ act.method = m ∧ act.block = 0 := by
  constructor
  · rintro ⟨last, hruns⟩
    obtain ⟨act, cs, lb, hf, hh, rfl, hfirst, -⟩ := h.runs_iff.1 hruns
    refine ⟨act, cs, hf, rfl, ?_⟩
    by_contra hne
    have := first_pos hh.found hne
    omega
  · rintro ⟨act, cs, hf, rfl, hzero⟩
    obtain ⟨lb, hh⟩ := h.holds f act cs hf
    have hfound := hh.found
    rw [blockAt, hzero] at hfound
    exact ⟨lb.last, h.runs_iff.2 ⟨act, cs, lb, hf, hh, rfl, first_of_zero hfound, rfl⟩⟩

theorem instances (hm : a.program.method? m = some method) : c.graph.Runs b m first last ↔
    ∃ f k, c.graph.Begins m f ∧ b = f + k ∧
      (parts a.hooks method.stmts)[k]? = some (first, last) := by
  rw [← stmtsOf_inliner hm]
  constructor
  · intro hruns
    obtain ⟨act, cs, lb, hb, hh, rfl, rfl, rfl⟩ := h.runs_iff.1 hruns
    obtain ⟨hle, hfirst⟩ := h.inRows b act cs hb
    exact ⟨b - act.block, act.block, h.begins_iff.2 ⟨_, cs, hfirst, rfl, rfl⟩,
      (Nat.sub_add_cancel hle).symm, hh.part⟩
  · rintro ⟨f, k, hbegins, rfl, hpart⟩
    obtain ⟨⟨m', receiver, _⟩, cs, hf, rfl, rfl⟩ := h.begins_iff.1 hbegins
    obtain ⟨st, hl⟩ := h.layout
    obtain ⟨lb, hlb, rfl, rfl⟩ := block_of_part m' receiver i.table hpart
    have hb := hl.row h.inRows hf (List.getElem?_eq_some_iff.1 hlb).1
    obtain ⟨lb', hh⟩ := h.holds (f + k) _ cs hb
    obtain rfl := Option.some.inj (hh.found.symm.trans hlb)
    exact h.runs_iff.2 ⟨_, cs, lb', hb, hh, rfl, rfl, rfl⟩

theorem ends (ht : a.Tests m x id v) (hruns : c.graph.Runs b m first last) (hfirst : first ≤ x)
    (hlast : x ≤ last) : last = x ∧ c.graph.Reports c.table b id ⟨m, v⟩ := by
  obtain ⟨method, call, hm, hs, hhook⟩ := ht
  obtain ⟨act, cs, lb, hb, hh, rfl, rfl, rfl⟩ := h.runs_iff.1 hruns
  rw [← stmtsOf_inliner hm] at hs
  obtain rfl := ends_last hh.found hfirst hlast hs (endsBlock_iff.2 (.test hhook))
  obtain ⟨n, hmark, hn⟩ := block_mark hh.numbered hh.found hs hhook
  obtain ⟨copies, depth, hblock⟩ := hh.block
  refine ⟨rfl, n, ?_, PointerTable.get?_of_le h.copies.table hn⟩
  exact Graph.mem_testPoints.2 ⟨_, Array.mem_of_getElem? hblock, rfl, hmark⟩

theorem placed (ht : a.Tests m x id v) : ∃ k, ∀ b,
    ((∃ first, c.graph.Runs b m first x) ∧ c.graph.Reports c.table b id ⟨m, v⟩) ↔
      ∃ f, c.graph.Begins m f ∧ b = f + k := by
  obtain ⟨method, call, hm, hs, hhook⟩ := ht
  obtain ⟨k, first, hk⟩ := exists_part hs (endsBlock_iff.2 (.test hhook))
  refine ⟨k, fun b => ⟨?_, ?_⟩⟩
  · rintro ⟨⟨first', hruns⟩, -⟩
    obtain ⟨f, j, hf, rfl, hj⟩ := (h.instances hm).1 hruns
    exact ⟨f, hf, by rw [part_of_last hk hj]⟩
  · rintro ⟨f, hf, rfl⟩
    have hruns := (h.instances hm).2 ⟨f, k, hf, rfl, hk⟩
    obtain ⟨-, hreports⟩ :=
      h.ends ⟨method, call, hm, hs, hhook⟩ hruns (part_bounds hk) (Nat.le_refl x)
    exact ⟨⟨first, hruns⟩, hreports⟩

theorem counted (ht : a.Tests m x id v) :
    {b | (∃ first, c.graph.Runs b m first x) ∧ c.graph.Reports c.table b id ⟨m, v⟩}.ncard =
      {f | c.graph.Begins m f}.ncard := by
  obtain ⟨k, hk⟩ := h.placed ht
  have himage : {b | (∃ first, c.graph.Runs b m first x) ∧ c.graph.Reports c.table b id ⟨m, v⟩} =
      (· + k) '' {f | c.graph.Begins m f} := by
    ext b
    rw [Set.mem_ofPred_eq, hk, Set.mem_image]
    simp only [Set.mem_ofPred_eq, eq_comm]
  rw [himage, Set.ncard_image_of_injective _ (add_left_injective k)]

/-- A marked block stands where its number says, and is the block of an instance. -/
theorem block_of_testPoint {mark : TestMark} (hmark : (b, mark) ∈ c.graph.testPoints) :
    ∃ act cs lb, pts[b]? = some (.block act cs) ∧ a.Holds i c b act lb ∧ lb.mark = some mark := by
  obtain ⟨block, hblock, rfl, hfound⟩ := Graph.mem_testPoints.1 hmark
  obtain ⟨b, hb⟩ := Array.mem_iff_getElem?.1 hblock
  obtain ⟨act, cs, hp⟩ := h.point b block hb (Or.inr (by rw [hfound]; rfl))
  obtain ⟨lb, hh⟩ := h.holds b act cs hp
  obtain ⟨copies, depth, hblock'⟩ := hh.block
  obtain rfl := Option.some.inj (hblock'.symm.trans hb)
  exact ⟨act, cs, lb, hp, hh, hfound⟩

theorem only {mark : TestMark} (hmark : (b, mark) ∈ c.graph.testPoints) : ∃ m first x v,
    a.Tests m x mark.testId v ∧ c.graph.Runs b m first x ∧
      c.table.get? mark.traced = some (.var ⟨m, v⟩) := by
  obtain ⟨id, traced⟩ := mark
  obtain ⟨act, cs, lb, hb, hh, hlb⟩ := h.block_of_testPoint hmark
  obtain ⟨s, hs⟩ := hh.last_stmt
  obtain ⟨call, v, rfl, hhook⟩ := tracedTest?_eq_some.1 (hh.traced hs hlb)
  obtain ⟨n, hmark', hn⟩ := block_mark hh.numbered hh.found hs hhook
  cases hlb.symm.trans hmark'
  obtain ⟨method, hm, hstmts⟩ := method_of_stmt (List.mem_of_getElem? hs)
  exact ⟨act.method, lb.first, lb.last, v, ⟨method, call, hm, hstmts ▸ hs, hhook⟩,
    h.runs_iff.2 ⟨act, cs, lb, hb, hh, rfl, rfl, rfl⟩, PointerTable.get?_of_le h.copies.table hn⟩

theorem single {mark mark' : TestMark} (hmark : (b, mark) ∈ c.graph.testPoints)
    (hmark' : (b, mark') ∈ c.graph.testPoints) : mark = mark' := by
  obtain ⟨act, cs, lb, hb, hh, hlb⟩ := h.block_of_testPoint hmark
  obtain ⟨act', cs', lb', hb', hh', hlb'⟩ := h.block_of_testPoint hmark'
  cases hb.symm.trans hb'
  cases hh.found.symm.trans hh'.found
  exact Option.some.inj (hlb.symm.trans hlb')

theorem moves (ht : a.Tests m x id v) (hm : a.program.method? m = some method)
    (hruns : c.graph.Runs b m first x) :
    List.Forall₂ (Copy.Names c.table) (c.graph.copiesOf b)
      ((loweringsFrom m none method.stmts first (x + 1 - first)).flatMap
        (withFields fieldsAt)) := by
  obtain ⟨method, call, hm', hs, hhook⟩ := ht
  cases hm'.symm.trans hm
  obtain ⟨act, cs, lb, hb, hh, rfl, rfl, rfl⟩ := h.runs_iff.1 hruns
  -- a return would have ended the block before the hook
  have hret : ∀ y, lb.first ≤ y → y < lb.first + (lb.last + 1 - lb.first) →
      ∀ value, method.stmts[y]? ≠ some (.ret value) := by
    intro y hfirst hlast value hret
    have hbounds := block_bounds hh.found
    rw [← stmtsOf_inliner hm] at hret hs
    obtain rfl := ends_last hh.found hfirst (by omega) hret rfl
    cases hret.symm.trans hs
  have hnames := h.copies.names b _ hb
  rw [movesAt, hh.found, Option.elim_some, stmtsOf_inliner hm,
    loweringsFrom_of_no_return hret] at hnames
  exact hnames

theorem marking : a.Marking c.graph c.table := by
  constructor
  case instances => exact fun m method hm b first last => h.instances hm
  case ends => exact fun m x id v ht b first last hruns hfirst hlast => h.ends ht hruns hfirst hlast
  case placed => exact fun m x id v ht => h.placed ht
  case counted => exact fun m x id v ht => h.counted ht
  case only => exact fun b mark hmark => h.only hmark
  case single => exact fun b mark mark' hmark hmark' => h.single hmark hmark'
  case values =>
    refine ⟨fieldsAt, fun m method hm x id v ht b first hruns => ?_⟩
    have hmoves := h.moves ht hm hruns
    refine ⟨hmoves, fun n hmark s l => Facts.holds_run_iff_moved hmoves ?_⟩
    have hle : first ≤ x := by
      obtain ⟨f, k, -, -, hpart⟩ := (h.instances hm).1 hruns
      exact part_bounds hpart
    obtain ⟨-, n', hmark', hn⟩ := h.ends ht hruns hle (Nat.le_refl x)
    cases h.single hmark hmark'
    exact hn

end Rows

theorem kind_of_complete (hc : a.complete i = .ok c) (b : Nat) :
    c.graph.blocks[b]?.map (·.kind) = i.kindAt b := by
  obtain ⟨fields, hfields, -, hgraph, -⟩ := complete_eq_ok hc
  obtain ⟨fieldsAt, hexpands, -⟩ := expands_of_fields hfields
  have hblocks : c.graph.blocks = fields.draft.blocks := by rw [← (Draft.freeze_eq_ok.1 hgraph).2]
  rw [hblocks, Inlined.kindAt]
  cases hb : i.draft.blocks[b]? with
  | none =>
    have hle : fields.draft.size ≤ b := hexpands.size ▸ Array.getElem?_eq_none_iff.1 hb
    rw [Array.getElem?_eq_none hle]
  | some block =>
    obtain ⟨block', hb', hextends⟩ := hexpands.block hb
    rw [hb', hextends.same]
    rfl

theorem runs_iff_kindAt (hc : a.complete i = .ok c) :
    c.graph.Runs b m first last ↔ ∃ depth, i.kindAt b = some (.body m first last depth) := by
  simp only [← kind_of_complete hc, Option.map_eq_some_iff]
  exact exists_comm

/-- The instances are as many as were counted. -/
theorem ncard_begins (hrun : a.inliner.run entry = .ok (some i)) (hc : a.complete i = .ok c) :
    {f | ∃ m, c.graph.Begins m f}.ncard = i.stats.instances := by
  obtain ⟨pts, h⟩ := run_countsPoints hrun
  rw [h.stats, (a.inliner.census_counts pts).1]
  refine ncard_eq_countP ?_ fun f p hp => ⟨?_, ?_⟩
  · rintro f ⟨m, last, hruns⟩
    obtain ⟨depth, hkind⟩ := (runs_iff_kindAt hc).1 hruns
    exact h.kindAt_inside hkind
  · rintro ⟨m, last, hruns⟩
    obtain ⟨depth, hkind⟩ := (runs_iff_kindAt hc).1 hruns
    obtain ⟨act, cs, lb, hp', hlb, -, hfirst, -⟩ := h.kindAt_body.1 hkind
    cases hp.symm.trans hp'
    refine decide_eq_true (by_contra fun hne => ?_)
    have := first_pos (blockAt_eq_some hlb) hne
    omega
  · intro hisFirst
    cases p with
    | block act cs =>
      have hzero : act.block = 0 := of_decide_eq_true hisFirst
      obtain ⟨block, -, hfor⟩ := h.block_at hp
      obtain ⟨lb, hlb, -⟩ := Option.map_eq_some_iff.1 hfor
      have hfound := blockAt_eq_some hlb
      rw [hzero] at hfound
      refine ⟨act.method, lb.last, (runs_iff_kindAt hc).2 ⟨cs.length, h.kindAt_body.2 ?_⟩⟩
      exact ⟨act, cs, lb, hp, hlb, rfl, first_of_zero hfound, rfl, rfl⟩
    | enter act cs => cases hisFirst
    | leave act cs => cases hisFirst

theorem splices_keep {stack : List PendingCall} {st st' : Inlining} {w : PendingCall}
    {inst : Instance} (h : a.inliner.Moment entry stack st)
    (hsplice : a.inliner.splice w st = .ok (inst, st')) {block : Block}
    (hb : st.draft.blocks[b]? = some block) : st'.draft.blocks[b]? = some block := by
  obtain ⟨pts, hl⟩ := h.layout st.table (PointerTable.le_refl _)
  exact splice_keeps hl.wellFormed hsplice hb

theorem propagation_keeps {d : Draft} {t : PointerTable} {fields : Propagated}
    (h : propagateFields d t = .ok fields) : fields.draft.size = d.size ∧
      ∀ (b : Nat) block, d.blocks[b]? = some block →
        ∃ copies, fields.draft.blocks[b]? = some { block with copies } := by
  obtain ⟨fieldsAt, hexpands, -⟩ := propagateFields_spec h
  refine ⟨hexpands.size, fun b block hb => ?_⟩
  obtain ⟨block', hb', hextends⟩ := hexpands.block hb
  exact ⟨block'.copies, by rw [hb', ← hextends.same]⟩

theorem not_runs_empty : ¬ Graph.empty.Runs b m first last := by
  rintro ⟨block, depth, hblock, -⟩
  cases hblock

theorem empty_marking (t : PointerTable) : a.Marking .empty t := by
  have hbegins : ∀ m f, ¬ Graph.empty.Begins m f := fun m f ⟨last, hruns⟩ => not_runs_empty hruns
  have hmarks : ∀ b mark, (b, mark) ∉ Graph.empty.testPoints := fun b mark => List.not_mem_nil
  constructor
  case instances =>
    intro m method hm b first last
    exact iff_of_false not_runs_empty fun ⟨f, k, hf, _⟩ => hbegins m f hf
  case ends => exact fun m x id v ht b first last hruns => absurd hruns not_runs_empty
  case placed =>
    intro m x id v ht
    exact ⟨0, fun b => iff_of_false (fun ⟨⟨_, hruns⟩, _⟩ => not_runs_empty hruns)
      fun ⟨f, hf, _⟩ => hbegins m f hf⟩
  case counted =>
    intro m x id v ht
    simp only [not_runs_empty, exists_false, false_and, hbegins]
  case only => exact fun b mark hmark => absurd hmark (hmarks b mark)
  case single => exact fun b mark mark' hmark => absurd hmark (hmarks b mark)
  case values => exact ⟨fun _ => [], fun m method hm x id v ht b first hruns =>
    absurd hruns not_runs_empty⟩

theorem constructFrom_marking (h : a.constructFrom entry = .ok c) :
    a.Marking c.graph c.table ∧ {f | ∃ m, c.graph.Begins m f}.ncard = c.stats.instances := by
  rcases constructFrom_eq_ok h with ⟨-, events, rfl⟩ | ⟨i, c', hrun, hc, events, rfl⟩
  · refine ⟨empty_marking ∅, ?_⟩
    have hbegins : ∀ f, ¬ ∃ m, Graph.empty.Begins m f := fun f ⟨_, _, hruns⟩ => not_runs_empty hruns
    simp only [hbegins, Set.ofPred_false, Set.ncard_empty]
    rfl
  · obtain ⟨pts, fieldsAt, hrows⟩ := complete_rows hrun hc
    obtain ⟨fields, -, -, -, hstats⟩ := complete_eq_ok hc
    refine ⟨hrows.marking, ?_⟩
    change {f | ∃ m, c'.graph.Begins m f}.ncard = c'.stats.instances
    rw [ncard_begins hrun hc, hstats]
    rfl

/-- Every complete test hook of a method with instances is reported by one block of each, which ends
with the hook and, once it was evaluated, has what the hook's variable has then. -/
theorem run_reports_tests {o : Outcome} (h : a.run = .ok o) : a.ReportsTests o := by
  obtain ⟨c, hconstruct, hfinish⟩ := bind_eq_ok.1 h
  obtain ⟨entry, -, hc⟩ := construct_eq_ok hconstruct
  obtain ⟨collected, -, heq⟩ := bind_eq_ok.1 (faulty_eq_ok.1 hfinish)
  obtain rfl := pure_eq_ok.1 heq
  obtain ⟨hg, -⟩ := constructFrom_registered hc
  obtain ⟨hmarking, hinstances⟩ := constructFrom_marking hc
  constructor
  case marking => exact hmarking
  case instances => exact hinstances
  case spliced => exact fun entry stack st w inst st' hm hsplice b block => splices_keep hm hsplice
  case propagated => exact fun d t fields hfields => propagation_keeps hfields
  case solved => exact fun b hb => (factsAfter_of_solve hg _ _ hb).1
  case untouched => exact fun b hb => (factsAfter_of_solve hg _ _ hb).2
  case converged =>
    exact fun hconverged => ⟨size_le_evaluations hg hconverged, (converged_spec hg hconverged).1⟩

def testedTwice : Analysis :=
  .of ⟨[], [
    ⟨"Main", "main", "", true, false, none, [], ["a"], [.call (Hooks.default.allocCall 1),
      .new 0 "A", .call ⟨none, ⟨"A", "f", ""⟩, [.var 0], none⟩,
      .call ⟨none, ⟨"A", "f", ""⟩, [.var 0], none⟩, .ret none]⟩,
    ⟨"A", "f", "", true, false, none, [0], ["x", "y"], [.copy 1 (.var 0),
      .call (Hooks.default.testCall 7 1), .ret none]⟩], none⟩ .default

theorem testedTwice_reports_tests : ∃ o, testedTwice.run = .ok o ∧ testedTwice.ReportsTests o ∧
    testedTwice.Tests 1 1 7 1 ∧ o.stats.instances = 3 ∧
    o.construction.graph.testPoints = [(3, ⟨7, 2⟩), (7, ⟨7, 2⟩)] := by
  obtain ⟨o, ho, hinstances, hpoints⟩ : ∃ o, testedTwice.run = .ok o ∧ o.stats.instances = 3 ∧
      o.construction.graph.testPoints = [(3, ⟨7, 2⟩), (7, ⟨7, 2⟩)] := exists_ok (by decide +kernel)
  refine ⟨o, ho, run_reports_tests ho, ⟨_, _, rfl, rfl, ?_⟩, hinstances, hpoints⟩
  decide +kernel

/-- A test of a copy, in a second block; the budget is spent with the first one. -/
def cutShort : Analysis :=
  .of ⟨[], [⟨"Main", "main", "", true, false, none, [], ["a", "b", "c"],
    [.call (Hooks.default.allocCall 1), .new 0 "A", .call (Hooks.default.allocCall 2), .new 1 "B",
      .goto [5], .copy 2 (.var 0), .call (Hooks.default.testCall 7 2), .ret none]⟩], none⟩
    { Config.default with maxIterations := some 1 }

/-- Whatever enters the marked block, its copies bring the first site to the variable. But the block
was not evaluated, so its facts lack the site, and all labels are reported. -/
theorem cutShort_misses_test : ∃ o, cutShort.run = .ok o ∧ cutShort.Tests 0 6 7 2 ∧
    o.construction.graph.Begins 0 0 ∧ o.construction.graph.Runs 1 0 5 6 ∧
    (1, ⟨7, 4⟩) ∈ o.construction.graph.testPoints ∧
    o.construction.table.get? 4 = some (.var ⟨0, 2⟩) ∧
    (∀ f s,
      o.construction.graph.Enters (seed cutShort.config.seedPolicy o.construction.sites) f 1 s →
        (s.run (o.construction.graph.copiesOf 1)).Holds 4 0) ∧
    ¬ (o.solution.factsAfter 1).Holds 4 0 ∧
    (o.answers.get? 7).map (·.toList) = some [1, 2] := by
  obtain ⟨o, ho, hstart, hkind, hmark, htraced, hseed, hlacks, hanswer⟩ : ∃ o,
      cutShort.run = .ok o ∧
      o.construction.graph.blocks[0]?.map (·.kind) = some (.body 0 0 4 0) ∧
      o.construction.graph.blocks[1]?.map (·.kind) = some (.body 0 5 6 0) ∧
      (1, ⟨7, 4⟩) ∈ o.construction.graph.testPoints ∧
      o.construction.table.get? 4 = some (.var ⟨0, 2⟩) ∧
      (seed cutShort.config.seedPolicy o.construction.sites).Holds
        (sourceOf (o.construction.graph.copiesOf 1) 4) 0 ∧
      ¬ (o.solution.factsAfter 1).Holds 4 0 ∧
      (o.answers.get? 7).map (·.toList) = some [1, 2] := exists_ok (by decide +kernel)
  obtain ⟨first, hfirst, hbody⟩ := Option.map_eq_some_iff.1 hstart
  obtain ⟨block, hblock, hbody'⟩ := Option.map_eq_some_iff.1 hkind
  refine ⟨o, ho, ⟨_, _, rfl, rfl, by decide +kernel⟩, ⟨4, first, 0, hfirst, hbody⟩,
    ⟨block, 0, hblock, hbody'⟩, hmark, htraced, ?_, hlacks, hanswer⟩
  intro f s hs
  exact Facts.holds_run.2 ((hs _ _).2 (Or.inl hseed))

end Analysis

end PointsTo
