import PointsTo.Proofs.Construction

/-! Binding arguments. The copies before a callee are made one after another, over variables that
all instances of a method share. They act as if made at once just if no formal that is bound
already is read later on, as happens when a method passes its own formals on to itself. -/
namespace PointsTo

/-- After the copies every formal holds what its actual held before them, whatever that was. -/
def BindsAll (t : PointerTable) (copies : List Copy) (vars : List (Var × Var)) : Prop :=
  ∀ v ∈ vars, ∃ n k, t.get? n = some (.var v.1) ∧ t.get? k = some (.var v.2) ∧
    ∀ (x : Facts) l, (x.run copies).Holds n l ↔ x.Holds k l

section

variable {t : PointerTable} {copies : List Copy} {vars : List (Var × Var)}
  {fieldsAt : Var → List FieldRef}

theorem var_pair_mem {v : Var × Var} (hv : v ∈ vars) :
    (.var v.1, .var v.2) ∈ (Pointer.ofVars vars).flatMap (withFields fieldsAt) :=
  List.mem_flatMap.2 ⟨(.var v.1, .var v.2), List.mem_map.2 ⟨v, hv, rfl⟩, List.mem_cons_self⟩

theorem bindsAll_iff (hn : List.Forall₂ (Copy.Names t) copies
    ((Pointer.ofVars vars).flatMap (withFields fieldsAt))) :
    BindsAll t copies vars ↔ Simultaneous vars := by
  constructor
  · intro h v hv
    obtain ⟨n, k, hn₁, hk, hsame⟩ := h v hv
    have hsource := get?_sourceOf hn hn₁
    rw [origin_withFields_var, Facts.sourceOf_unique fun s l => (hsame s l).2, hk] at hsource
    exact (Pointer.var.inj (Option.some.inj hsource)).symm
  · intro h v hv
    obtain ⟨c, -, htarget, -⟩ := exists_named_copy hn (var_pair_mem hv)
    have hsource := get?_sourceOf hn htarget
    rw [origin_withFields_var, h v hv] at hsource
    exact ⟨c.target, sourceOf copies c.target, htarget, hsource, fun x l => Facts.holds_run⟩

end

namespace Inliner

variable {c : Call} {caller callee : MethodId} {method : Method}

theorem passedArgs_sublist (args : List Operand) (params : List Slot) :
    ((passedArgs caller callee args params).map Prod.fst).Sublist (params.map (⟨callee, ·⟩)) := by
  induction args generalizing params with
  | nil => exact List.nil_sublist _
  | cons arg args ih =>
    cases params with
    | nil => cases arg <;> exact List.nil_sublist _
    | cons x params =>
      cases arg with
      | var a => exact (ih params).cons_cons _
      | const k => exact (ih params).cons _

theorem targets_sublist (caller : MethodId) (c : Call) (callee : MethodId) (method : Method) :
    ((passed caller c callee method).map Prod.fst).Sublist
      (method.formals.map (⟨callee, ·⟩)) := by
  have hargs : ((passedArgs caller callee c.args method.params).map Prod.fst).Sublist
      (method.params.map (⟨callee, ·⟩)) := passedArgs_sublist c.args method.params
  rw [passed, Method.formals, List.map_append]
  cases c.base with
  | none => exact hargs.trans (List.sublist_append_left _ _)
  | some b =>
    cases method.this with
    | none => exact hargs.trans (List.sublist_append_left _ _)
    | some x =>
      rw [List.map_append]
      exact hargs.append (List.Sublist.refl _)

theorem nodup_targets (hd : method.formals.Nodup) :
    ((passed caller c callee method).map Prod.fst).Nodup := by
  refine (targets_sublist caller c callee method).nodup (List.pairwise_map.2 (hd.imp ?_))
  rintro x y hne heq
  exact hne (congrArg Var.slot heq)

theorem undisturbed_passed (hne : callee ≠ caller) :
    Undisturbed (passed caller c callee method) := by
  refine List.pairwise_of_forall_mem_list fun v hv w hw heq => absurd ?_ hne
  rw [← (passed_methods hv).1, ← (passed_methods hw).2, heq]

end Inliner

namespace Analysis

open Inliner

variable {a : Analysis} {entry : MethodId} {i : Inlined} {c : Construction} {pts : List Point}

/-- With distinct formals, the block before a callee gives every formal what its actual held before
just if no formal is bound and then read. Between different methods it always does. -/
theorem arguments_bound_iff {main : Method} (hv : a.resolver.Valid a.program)
    (hm : a.program.method? entry = some main) (hs : main.stmts ≠ []) :
    ∃ i c pts, a.inliner.run entry = .ok (some i) ∧ a.complete i = .ok c ∧
      a.EdgesAreSteps entry i c pts ∧ ∀ b site callers, pts[b]? = some (.enter site callers) →
        ∃ call callee method, a.inliner.entered i.table site callers = some (call, callee) ∧
          a.program.method? callee = some method ∧ (method.formals.Nodup →
            let vars := passed site.method call callee method
            (BindsAll c.table (c.graph.copiesOf b) vars ↔ Undisturbed vars) ∧
              (callee ≠ site.method → BindsAll c.table (c.graph.copiesOf b) vars)) := by
  obtain ⟨i, c, hrun, hc, pts, fieldsAt, hsteps, hcopies⟩ := built hv hm hs
  refine ⟨i, c, pts, hrun, hc, hsteps, fun b site callers hb => ?_⟩
  obtain ⟨call, callee, method, he, hmethod⟩ := hsteps.entered_of_call hb (Or.inl rfl)
  refine ⟨call, callee, method, he, hmethod, fun hd => ?_⟩
  have hnames := hcopies.names b _ hb
  rw [movesAt_enter he hmethod] at hnames
  have hiff := (bindsAll_iff hnames).trans (simultaneous_iff (nodup_targets hd))
  exact ⟨hiff, fun hne => hiff.2 (undisturbed_passed hne)⟩

def shift : Call := ⟨none, ⟨"A", "f", ""⟩, [.var 2, .var 0], none⟩

def shifter : Method :=
  ⟨"A", "f", "", true, false, none, [0, 1], ["p", "q", "x"], [.new 2 "B", .call shift, .ret none]⟩

def shifting : Analysis :=
  .of ⟨[], [
    ⟨"Main", "main", "", true, false, none, [], ["a"], [.new 0 "A",
      .call ⟨none, ⟨"A", "f", ""⟩, [.var 0, .const .null], none⟩, .ret none]⟩,
    shifter], none⟩ { Config.default with maxInlineDepth := 2 }

theorem shifting_arguments_bound :
    ∃ i c pts, shifting.inliner.run 0 = .ok (some i) ∧ shifting.complete i = .ok c ∧
      shifting.EdgesAreSteps 0 i c pts ∧ ∀ b site callers, pts[b]? = some (.enter site callers) →
        ∃ call callee method, shifting.inliner.entered i.table site callers = some (call, callee) ∧
          shifting.program.method? callee = some method ∧
          (BindsAll c.table (c.graph.copiesOf b) (passed site.method call callee method) ↔
            Undisturbed (passed site.method call callee method)) := by
  obtain ⟨i, c, pts, hrun, hc, hsteps, henter⟩ :=
    @arguments_bound_iff shifting 0 _ (hierarchy_valid _) rfl (by decide)
  refine ⟨i, c, pts, hrun, hc, hsteps, fun b site callers hb => ?_⟩
  obtain ⟨call, callee, method, he, hm, hbinds⟩ := henter b site callers hb
  have hd : ∀ m ∈ shifting.program.methods, m.formals.Nodup := by decide
  exact ⟨call, callee, method, he, hm, (hbinds (hd method (List.mem_of_getElem? hm))).1⟩

/-- The second formal is bound to the first one after that was bound itself. -/
theorem shifted_argument_lost :
    shifter.formals.Nodup ∧ shifting.program.method? 1 = some shifter ∧
      (⟨1, 1⟩, ⟨1, 0⟩) ∈ passed 1 shift 1 shifter ∧
      ∃ c, shifting.constructFrom 0 = .ok c ∧
        c.graph.blocks[8]?.map (·.kind) = some (.enter 1 2) ∧
        c.table.get? 4 = some (.var ⟨1, 0⟩) ∧ c.table.get? 5 = some (.var ⟨1, 1⟩) ∧
        ∃ x : Facts, x.Holds 4 0 ∧ ¬ (x.run (c.graph.copiesOf 8)).Holds 5 0 := by
  have hbuilt : ∃ c, shifting.constructFrom 0 = .ok c ∧
      c.graph.blocks[8]?.map (·.kind) = some (.enter 1 2) ∧
      c.table.get? 4 = some (.var ⟨1, 0⟩) ∧ c.table.get? 5 = some (.var ⟨1, 1⟩) ∧
      c.graph.copiesOf 8 = [⟨4, 2, .call⟩, ⟨5, 4, .call⟩] :=
    exists_ok (by decide +kernel)
  obtain ⟨c, hc, hkind, hp, hq, hcopies⟩ := hbuilt
  refine ⟨by decide, rfl, by decide, c, hc, hkind, hp, hq, (∅ : Facts).add 4 0, by decide, ?_⟩
  rw [hcopies]
  decide

end Analysis

end PointsTo
