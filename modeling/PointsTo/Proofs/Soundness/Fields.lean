import PointsTo.FieldCopies
import PointsTo.Proofs.Execution
import PointsTo.Proofs.Inline.Walks

/-! Programs without fields. Inlining numbers no field for them, so there are no field copies to
insert. -/
namespace PointsTo

def Pointer.IsNoField (p : Pointer) : Prop := ∀ base, p.fieldOf? base = none

def PointerTable.FieldFree (t : PointerTable) : Prop := ∀ p ∈ t.pointers, p.IsNoField

variable {t : PointerTable} {d : Draft}

theorem Numbers.fieldFree {α : Type} {f : PointerTable → α × PointerTable}
    (hf : Numbers Pointer.IsNoField f) (ht : t.FieldFree) : (f t).2.FieldFree := by
  intro p hp
  rcases hf.adds t p hp with hp | hp
  · exact ht p hp
  · exact hp

theorem pointers_of_plain {h : Recognizer} {m : MethodId} {receiver : Option Var} {i : Nat}
    {s : Stmt} (hs : s.usesField = false) {p : Pointer}
    (hp : p ∈ (s.effect h m receiver i).pointers) : p.IsNoField := by
  intro base
  cases s with
  | new lhs type =>
    simp only [Stmt.effect, Effect.pointers, List.mem_cons, List.not_mem_nil, or_false] at hp
    rcases hp with rfl | rfl <;> rfl
  | copy lhs rhs =>
    cases rhs with
    | var y =>
      simp only [Stmt.effect, Effect.pointers, List.mem_cons, List.not_mem_nil, or_false] at hp
      rcases hp with rfl | rfl <;> rfl
    | const k => cases hp
  | load lhs base field => cases hs
  | store base field rhs => cases hs
  | call c =>
    cases hc : h c with
    | none => simp [Stmt.effect, hc, Effect.pointers] at hp
    | some hook =>
      cases hook with
      | alloc label => simp [Stmt.effect, hc, Effect.pointers] at hp
      | test id traced =>
        cases id with
        | none => simp [Stmt.effect, hc, Effect.pointers] at hp
        | some id =>
          cases traced with
          | none => simp [Stmt.effect, hc, Effect.pointers] at hp
          | some v =>
            simp only [Stmt.effect, hc, Effect.pointers, List.mem_singleton] at hp
            subst hp
            rfl
  | ret value =>
    rcases value with _ | y | k
    · cases hp
    · cases receiver with
      | none => cases hp
      | some r =>
        simp only [Stmt.effect, Option.elim_some, Effect.pointers, List.mem_cons,
          List.not_mem_nil, or_false] at hp
        rcases hp with rfl | rfl <;> rfl
    · cases hp
  | _ => cases hp

namespace Inliner

variable {inl : Inliner} {entry m : MethodId} {receiver : Option Var} {depth : Nat}
  {st st' : Inlining} {inst : Instance} {w : PendingCall}

theorem instantiate_fieldFree (hp : inl.program.Plain)
    (h : inl.instantiate m receiver depth st = .ok (inst, st')) (ht : st.table.FieldFree) :
    st'.table.FieldFree := by
  rw [instantiate_table h]
  refine Numbers.fieldFree (numbers_methodBlocks _ _ _ _ fun si hsi p hmem => ?_) ht
  have hs : si.1 ∈ inl.stmtsOf m := (List.mem_zipIdx hsi).2.2 ▸ List.getElem_mem _
  obtain ⟨method, hm, hstmts⟩ := method_of_stmt hs
  exact pointers_of_plain
    (hp.no_fields method (List.mem_of_getElem? hm) si.1 (hstmts ▸ hs)) hmem

theorem splice_fieldFree (hp : inl.program.Plain) (h : inl.splice w st = .ok (inst, st'))
    (ht : st.table.FieldFree) : st'.table.FieldFree := by
  obtain ⟨st₁, method, hinst, -, -, htable, -, -⟩ := splice_eq_ok h
  rw [htable]
  refine (numbers_numberPairs _ fun _ _ => rfl).fieldFree (instantiate_fieldFree hp hinst ?_)
  exact (numbers_internReceiver _ fun _ _ => rfl).fieldFree ht

theorem run_fieldFree (hp : inl.program.Plain) {i : Inlined}
    (h : inl.run entry = .ok (some i)) : i.table.FieldFree := by
  obtain ⟨-, root, st₁, st, hroot, hst, _, rfl⟩ := run_expands h
  have hempty : (Inlining.start ∅).table.FieldFree := by
    intro p hp
    exact absurd hp (Array.not_mem_empty p)
  exact hst.preserves (P := fun st => st.table.FieldFree)
    (fun _ _ _ _ => splice_fieldFree hp) (instantiate_fieldFree hp hroot hempty)

end Inliner

theorem propagateFields_of_fieldFree (ht : t.FieldFree) {p : Propagated}
    (h : propagateFields d t = .ok p) : p.draft = d ∧ p.table = t := by
  obtain ⟨pairs, -, h⟩ := bind_eq_ok.1 h
  have hnone : ∀ v, (t.fieldsOf v).isEmpty = true := by
    intro v
    have hempty : t.pointers.toList.filterMap (Pointer.fieldOf? v) = [] :=
      List.filterMap_eq_nil_iff.2 fun p hp => ht p (Array.mem_def.2 hp) v
    rw [PointerTable.fieldsOf, hempty]
    rfl
  have hfields : ((pairs.foldl Components.connect .empty).fields t).isEmpty = true := by
    rw [Components.fields, List.filter_eq_nil_iff.2]
    · rfl
    · intro x hx
      obtain ⟨vi, -, rfl⟩ := List.mem_map.1 hx
      simp [hnone]
  rw [if_pos hfields] at h
  cases h
  exact ⟨rfl, rfl⟩

end PointsTo
