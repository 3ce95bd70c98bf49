import PointsTo.Proofs.Construction
import PointsTo.Proofs.Solver.LeastSolution

/-! Writing back. Behind a callee the actuals get what the formals have, and the fields of connected
variables go with them. An actual that is bound to several formals gets the last one's fields only:
what the callee stored through the others is lost. -/
namespace PointsTo

def HandsOver (t : PointerTable) (copies : List Copy) (formal actual : Var) (f : FieldRef) : Prop :=
  ∃ n k, t.get? n = some (.instanceField formal f) ∧ t.get? k = some (.instanceField actual f) ∧
    ∀ (x : Facts) l, x.Holds n l → (x.run copies).Holds k l

/-- Behind block `b`, the field of `actual` has what the seed and the blocks before have for the
field of `formal`, and nothing else. -/
def Construction.Shows (c : Construction) (seed : Facts) (factsAfter : Nat → Facts) (b : Nat)
    (formal actual : Var) (f : FieldRef) : Prop :=
  ∃ n k, c.table.get? n = some (.instanceField formal f) ∧
    c.table.get? k = some (.instanceField actual f) ∧
    ∀ l, (factsAfter b).Holds k l ↔
      seed.Holds n l ∨ ∃ q ∈ c.graph.predecessors b, (factsAfter q).Holds n l

theorem PointerTable.mem_fieldsOf {t : PointerTable} {v : Var} {f : FieldRef} {n : Nat}
    (h : t.get? n = some (.instanceField v f)) : f ∈ t.fieldsOf v :=
  mem_fieldsOf_iff.2 (Array.mem_of_getElem? h)

section

variable {t : PointerTable} {copies : List Copy} {fieldsAt : Var → List FieldRef}
  {ms : List (Var × Var)} {formal actual : Var} {f : FieldRef}

theorem field_pair_mem (hmem : (actual, formal) ∈ ms) (hf : f ∈ fieldsAt actual) :
    (.instanceField actual f, .instanceField formal f) ∈
      (Pointer.ofVars ms).flatMap (withFields fieldsAt) := by
  refine List.mem_flatMap.2 ⟨(.var actual, .var formal), List.mem_map.2 ⟨_, hmem, rfl⟩, ?_⟩
  exact List.mem_cons_of_mem _ (List.mem_map.2 ⟨f, hf, rfl⟩)

variable (hn : List.Forall₂ (Copy.Names t) copies
    ((Pointer.ofVars ms).flatMap (withFields fieldsAt)))
  (hms : ∀ m ∈ ms, f ∈ fieldsAt m.1 ↔ f ∈ fieldsAt m.2) (hf : f ∈ fieldsAt actual)

include hn hms hf in
theorem sourceOf_field_iff {n k : Nat} (hformal : t.get? n = some (.instanceField formal f))
    (hactual : t.get? k = some (.instanceField actual f)) :
    sourceOf copies k = n ↔ origin ms actual = formal := by
  have hsource := get?_sourceOf hn hactual
  rw [(origin_withFields_field hms hf).1] at hsource
  constructor
  · rintro rfl
    exact (Pointer.instanceField.inj (Option.some.inj (hsource.symm.trans hformal))).1
  · rintro rfl
    exact PointerTable.get?_inj hsource hformal

include hn hms hf in
theorem handsOver_iff (hmem : (actual, formal) ∈ ms) :
    HandsOver t copies formal actual f ↔ origin ms actual = formal := by
  constructor
  · rintro ⟨n, k, hformal, hactual, hover⟩
    exact (sourceOf_field_iff hn hms hf hformal hactual).1 (Facts.sourceOf_unique hover)
  · intro horigin
    obtain ⟨c, -, hactual, hformal⟩ := exists_named_copy hn (field_pair_mem hmem hf)
    refine ⟨c.source, c.target, hformal, hactual, fun x l hx => ?_⟩
    rwa [Facts.holds_run, (sourceOf_field_iff hn hms hf hformal hactual).2 horigin]

end

namespace Analysis

open Inliner

variable {a : Analysis} {entry : MethodId} {i : Inlined} {c : Construction} {pts : List Point}

def back (site : Activation) (call : Call) (callee : MethodId) (method : Method) :
    List (Var × Var) :=
  writtenBack (receiverOf site.method call) (passed site.method call callee method)

/-- Between different methods nothing that is written back is read again. -/
theorem back_unread {site : Activation} {call : Call} {callee : MethodId} {method : Method}
    (hne : callee ≠ site.method) :
    ∀ m ∈ back site call callee method, ∀ n ∈ back site call callee method, m.1 ≠ n.2 := by
  intro m hm n hn heq
  have hm' := (passed_methods (mem_writtenBack.1 hm).1).2
  have hn' := (passed_methods (mem_writtenBack.1 hn).1).1
  exact hne (hn'.symm.trans ((congrArg Var.method heq.symm).trans hm'))

/-- At a block behind a callee, the fields of the formals are those of the actuals. -/
theorem Copies.fields_shared {fieldsAt : Var → List FieldRef} {b : Nat} {site : Activation}
    {callers : List Activation} {call : Call} {callee : MethodId} {method : Method}
    (hcopies : a.Copies i c pts fieldsAt) (hon : a.config.fieldCopropagation = true)
    (hb : pts[b]? = some (.leave site callers))
    (he : a.inliner.entered i.table site callers = some (call, callee))
    (hmethod : a.program.method? callee = some method) :
    (∀ m ∈ back site call callee method, fieldsAt m.1 = fieldsAt m.2) ∧
      ∀ m ∈ back site call callee method, ∀ v f n, i.draft.Connected i.table v m.2 →
        i.table.get? n = some (.instanceField v f) → f ∈ fieldsAt m.1 := by
  have hshares := hcopies.shares hon
  have hlinks : ∀ m ∈ back site call callee method, i.draft.Links i.table m.1 m.2 := by
    intro m hm
    refine hcopies.links _ (List.mem_of_getElem? hb) m.1 m.2 ?_
    rw [movesAt_leave he hmethod]
    exact List.mem_map.2 ⟨m, hm, rfl⟩
  constructor
  · intro m hm
    exact hshares.same m.1 m.2 (.rel _ _ (hlinks m hm))
  · intro m hm v f n hconnected hused
    -- the copy that writes back joins the formal to the actual
    have hactual : i.draft.Connected i.table v m.1 :=
      hconnected.trans _ _ _ (.symm _ _ (.rel _ _ (hlinks m hm)))
    exact hshares.used m.1 m.2 v f hactual (hlinks m hm) (PointerTable.mem_fieldsOf hused)

/-- With field copies, the block behind a callee hands the fields of a formal over to its actual
just if no later copy there overwrites them. Between different methods that means just if no later
formal is bound to the same actual. In a converged run the fields are then seen behind the call. -/
theorem fields_written_back_iff {main : Method} (hv : a.resolver.Valid a.program)
    (hm : a.program.method? entry = some main) (hs : main.stmts ≠ [])
    (hon : a.config.fieldCopropagation = true) :
    ∃ i c pts, a.inliner.run entry = .ok (some i) ∧ a.complete i = .ok c ∧
      a.EdgesAreSteps entry i c pts ∧
      ∀ (b : Nat) site callers, pts[b]? = some (.leave site callers) →
        ∃ call callee method, a.inliner.entered i.table site callers = some (call, callee) ∧
          a.program.method? callee = some method ∧
          ∀ formal actual, (formal, actual) ∈ passed site.method call callee method →
            receiverOf site.method call ≠ some actual →
            ∀ v f n, i.draft.Connected i.table v formal →
              i.table.get? n = some (.instanceField v f) →
              let moves := back site call callee method
              (HandsOver c.table (c.graph.copiesOf b) formal actual f ↔
                origin moves actual = formal) ∧
              (callee ≠ site.method →
                (origin moves actual = formal ↔ LastTo moves (actual, formal))) ∧
              (origin moves actual = formal → ∀ seed budget,
                (c.graph.solve seed budget).converged = true →
                  c.Shows seed (c.graph.solve seed budget).factsAfter b formal actual f) := by
  obtain ⟨i, c, hrun, hc, pts, fieldsAt, hsteps, hcopies⟩ := built hv hm hs
  refine ⟨i, c, pts, hrun, hc, hsteps, fun b site callers hb => ?_⟩
  obtain ⟨call, callee, method, he, hmethod⟩ := hsteps.entered_of_call hb (Or.inr rfl)
  refine ⟨call, callee, method, he, hmethod, fun formal actual hbound hresult => ?_⟩
  intro v f n hconnected hused moves
  have hpair : (actual, formal) ∈ moves := mem_writtenBack.2 ⟨hbound, hresult⟩
  obtain ⟨hsame, hfields⟩ := hcopies.fields_shared hon hb he hmethod
  have hf := hfields _ hpair v f n hconnected hused
  have hms : ∀ m ∈ moves, f ∈ fieldsAt m.1 ↔ f ∈ fieldsAt m.2 := by
    intro m hm
    rw [hsame m hm]
  have hnames := hcopies.names b _ hb
  rw [movesAt_leave he hmethod] at hnames
  refine ⟨handsOver_iff hnames hms hf hpair, fun hne => ?_, fun horigin seed budget hconv => ?_⟩
  · exact origin_eq_iff_lastTo (back_unread hne) hpair
  · obtain ⟨copy, -, hactual, hformal⟩ := exists_named_copy hnames (field_pair_mem hpair hf)
    have hlt : b < c.graph.size := hsteps.size ▸ (List.getElem?_eq_some_iff.1 hb).1
    have hsolves := Graph.solves_iff.1 (converged_spec hsteps.wellFormed hconv).1 b hlt
    refine ⟨copy.source, copy.target, hformal, hactual, fun l => ?_⟩
    rw [hsolves, Graph.holds_transfer,
      (sourceOf_field_iff hnames hms hf hformal hactual).2 horigin]

def content : FieldRef := ⟨"A", "f"⟩

def setTwice : Call := ⟨none, ⟨"A", "set", ""⟩, [.var 0, .var 0], none⟩

def setter : Method :=
  ⟨"A", "set", "", true, false, none, [0, 1], ["p", "q", "b"],
    [.new 2 "B", .store (some 0) content (.var 2), .ret none]⟩

def setting : Analysis :=
  .of ⟨[], [
    ⟨"Main", "main", "", true, false, none, [], ["a", "c"], [.new 0 "A", .new 1 "C",
      .store (some 0) content (.var 1), .call setTwice, .ret none]⟩,
    setter], none⟩ .default

theorem setting_fields_written_back :
    ∃ i c pts, setting.inliner.run 0 = .ok (some i) ∧ setting.complete i = .ok c ∧
      setting.EdgesAreSteps 0 i c pts ∧
      ∀ (b : Nat) site callers, pts[b]? = some (.leave site callers) →
        ∃ call callee method, setting.inliner.entered i.table site callers = some (call, callee) ∧
          ∀ formal actual, (formal, actual) ∈ passed site.method call callee method →
            receiverOf site.method call ≠ some actual →
            ∀ v f n, i.draft.Connected i.table v formal →
              i.table.get? n = some (.instanceField v f) →
              LastTo (back site call callee method) (actual, formal) → callee ≠ site.method →
              ∀ seed, c.Shows seed (c.graph.solve seed none).factsAfter b formal actual f := by
  obtain ⟨i, c, pts, hrun, hc, hsteps, hleave⟩ :=
    @fields_written_back_iff setting 0 _ (hierarchy_valid _) rfl (by decide) rfl
  refine ⟨i, c, pts, hrun, hc, hsteps, fun b site callers hb => ?_⟩
  obtain ⟨call, callee, method, he, -, hback⟩ := hleave b site callers hb
  refine ⟨call, callee, method, he, ?_⟩
  intro formal actual hbound hresult v f n hv hn hlast hne seed
  obtain ⟨-, hiff, hshows⟩ := hback formal actual hbound hresult v f n hv hn
  exact hshows ((hiff hne).2 hlast) seed none (solve_least_solution hsteps.wellFormed seed).1

/-- The second formal is written back last, without what was stored through the first one. -/
theorem earlier_write_back_lost :
    (⟨1, 0⟩, ⟨0, 0⟩) ∈ passed 0 setTwice 1 setter ∧ receiverOf 0 setTwice ≠ some ⟨0, 0⟩ ∧
      ∃ c, setting.constructFrom 0 = .ok c ∧
        c.graph.blocks[4]?.map (·.kind) = some (.leave 1 1) ∧ 2 ∈ c.graph.predecessors 4 ∧
        c.table.get? 7 = some (.instanceField ⟨1, 0⟩ content) ∧
        c.table.get? 4 = some (.instanceField ⟨0, 0⟩ content) ∧
        (c.graph.solve (.ofList [⟨6, 0⟩]) none).converged = true ∧
        ((c.graph.solve (.ofList [⟨6, 0⟩]) none).factsAfter 2).Holds 7 0 ∧
        ¬ ((c.graph.solve (.ofList [⟨6, 0⟩]) none).factsAfter 4).Holds 4 0 :=
  ⟨by decide, by decide, exists_ok (by decide +kernel)⟩

end Analysis

end PointsTo
