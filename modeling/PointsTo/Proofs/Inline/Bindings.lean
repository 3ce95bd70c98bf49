import PointsTo.Proofs.ControlFlow
import PointsTo.Proofs.Inline.Machine

/-! What the machine copies, by pointers. A call binds its formals before the callee is entered, and
writes them back behind it. -/
namespace PointsTo

def Method.formals (m : Method) : List Slot := m.params ++ m.this.toList

namespace Inliner

variable {t T : PointerTable} {c : Call} {caller callee : MethodId} {method : Method}
  {receiver : Option Var} {vars : List (Var × Var)} {x : Slot}

theorem mem_passed {v : Var × Var} : v ∈ passed caller c callee method ↔
    ∃ x a, v = (⟨callee, x⟩, ⟨caller, a⟩) ∧
      ((.var a, x) ∈ c.args.zip method.params ∨ (c.base = some a ∧ method.this = some x)) := by
  rw [← bindings_eq]
  simp only [bindings, List.mem_append, List.mem_filterMap, Prod.exists, Option.map_eq_some_iff,
    Option.mem_toList, Option.bind_eq_some_iff]
  constructor
  · rintro (⟨arg, x, hmem, a, hslot, rfl⟩ | ⟨a, hbase, x, hthis, rfl⟩)
    · cases arg with
      | var b =>
        cases hslot
        exact ⟨x, _, rfl, Or.inl hmem⟩
      | const value => cases hslot
    · exact ⟨x, a, rfl, Or.inr ⟨hbase, hthis⟩⟩
  · rintro ⟨x, a, rfl, hmem | ⟨hbase, hthis⟩⟩
    · exact Or.inl ⟨.var a, x, hmem, a, rfl, rfl⟩
    · exact Or.inr ⟨a, hbase, x, hthis, rfl⟩

theorem passed_methods {v : Var × Var} (hv : v ∈ passed caller c callee method) :
    v.1.method = callee ∧ v.2.method = caller := by
  obtain ⟨x, a, rfl, -⟩ := mem_passed.1 hv
  exact ⟨rfl, rfl⟩

theorem arg_unique {args : List Operand} {params : List Slot} (hd : params.Nodup)
    {arg arg' : Operand} (h : (arg, x) ∈ args.zip params) (h' : (arg', x) ∈ args.zip params) :
    arg = arg' := by
  obtain ⟨i, hi⟩ := List.mem_iff_getElem?.1 h
  obtain ⟨j, hj⟩ := List.mem_iff_getElem?.1 h'
  obtain ⟨hi, hxi⟩ := List.getElem?_zip_eq_some.1 hi
  obtain ⟨hj, hxj⟩ := List.getElem?_zip_eq_some.1 hj
  have hlt := (List.getElem?_eq_some_iff.1 hxi).1
  obtain rfl := (List.getElem?_inj hlt hd).1 (hxi.trans hxj.symm)
  exact Option.some.inj (hi.symm.trans hj)

theorem this_not_param (hd : method.formals.Nodup) {arg : Operand}
    (h : (arg, x) ∈ c.args.zip method.params) : method.this ≠ some x := by
  intro hthis
  refine (List.nodup_append.1 hd).2.2 x (List.of_mem_zip h).2 x ?_ rfl
  rw [hthis]
  exact List.mem_singleton_self x

theorem passed_unique (hd : method.formals.Nodup) {v w w' : Var}
    (h : (v, w) ∈ passed caller c callee method)
    (h' : (v, w') ∈ passed caller c callee method) : w = w' := by
  obtain ⟨x, a, heq, hx⟩ := mem_passed.1 h
  obtain ⟨x', a', heq', hx'⟩ := mem_passed.1 h'
  cases heq
  cases heq'
  rcases hx with hx | ⟨hbase, hx⟩
  · rcases hx' with hx' | ⟨-, hx'⟩
    · cases arg_unique (List.nodup_append.1 hd).1 hx hx'
      rfl
    · exact absurd hx' (this_not_param hd hx)
  · rcases hx' with hx' | ⟨hbase', -⟩
    · exact absurd hx (this_not_param hd hx')
    · cases hbase.symm.trans hbase'
      rfl

theorem mem_writtenBack {v w : Var} :
    (v, w) ∈ writtenBack receiver vars ↔ (w, v) ∈ vars ∧ receiver ≠ some v := by
  rw [writtenBack, List.mem_map]
  constructor
  · rintro ⟨⟨formal, actual⟩, hmem, heq⟩
    cases heq
    obtain ⟨hmem, hne⟩ := List.mem_filter.1 hmem
    exact ⟨hmem, fun hr => of_decide_eq_true hne hr.symm⟩
  · rintro ⟨hmem, hne⟩
    exact ⟨(w, v), List.mem_filter.2 ⟨hmem, decide_eq_true (Ne.symm hne)⟩, rfl⟩

theorem receiverOf_eq_some {v : Var} :
    receiverOf caller c = some v ↔ v.method = caller ∧ c.result = some v.slot := by
  cases v
  simp [receiverOf, eq_comm, and_comm]

variable {inl : Inliner} {p : Point}

def movesAt (inl : Inliner) (t : PointerTable) : Point → List (Pointer × Pointer)
  | .block a _ => (inl.blockAt t a).elim [] fun b =>
      loweringsFrom a.method a.receiver (inl.stmtsOf a.method) b.first (b.last + 1 - b.first)
  | .enter a cs => (inl.entered t a cs).elim [] fun (c, callee) =>
      Pointer.ofVars (inl.passedTo a.method c callee)
  | .leave a cs => (inl.entered t a cs).elim [] fun (c, callee) =>
      Pointer.ofVars (writtenBack (receiverOf a.method c) (inl.passedTo a.method c callee))

section Calls

variable {a : Activation} {cs : List Activation}

theorem movesAt_enter (h : inl.entered t a cs = some (c, callee))
    (hm : inl.program.method? callee = some method) :
    inl.movesAt t (.enter a cs) = Pointer.ofVars (passed a.method c callee method) := by
  simp only [movesAt, h, passedTo_eq hm, Option.elim_some]

theorem movesAt_leave (h : inl.entered t a cs = some (c, callee))
    (hm : inl.program.method? callee = some method) : inl.movesAt t (.leave a cs) =
      Pointer.ofVars (writtenBack (receiverOf a.method c)
        (passed a.method c callee method)) := by
  simp only [movesAt, h, passedTo_eq hm, Option.elim_some]

end Calls

theorem Numbered.names (h : inl.Numbered t p) :
    List.Forall₂ (Copy.Names t) (inl.copiesAt t p) (inl.movesAt t p) := by
  cases p with
  | block a cs =>
    rw [copiesAt, blockFor, movesAt]
    cases hb : inl.blockAt t a with
    | none => exact .nil
    | some lb =>
      have hlb : (methodBlocks inl.hooks a.method (inl.stmtsOf a.method) a.receiver t).1[a.block]? =
        some lb := hb
      have hbounds := block_bounds hlb
      have hlowers := copiesFrom_lowers (h : (methodBlocks inl.hooks a.method
        (inl.stmtsOf a.method) a.receiver t).2 = t) (show lb.first + (lb.last + 1 - lb.first) ≤
          (inl.stmtsOf a.method).length by omega)
      rw [← block_copies hlb] at hlowers
      exact hlowers.imp fun _ _ hc => hc.2
  | enter a cs =>
    rw [copiesAt, blockFor, movesAt]
    cases he : inl.entered t a cs with
    | none => exact .nil
    | some found => exact names_callCopies t.le_refl (h _ _ he).2
  | leave a cs =>
    rw [copiesAt, blockFor, movesAt]
    cases he : inl.entered t a cs with
    | none => exact .nil
    | some found =>
      refine names_callCopies t.le_refl fun v hv => ?_
      exact ((h _ _ he).2 (v.2, v.1) (mem_writtenBack.1 hv).1).symm

end Inliner

end PointsTo
