import PointsTo.Fault
import PointsTo.OrderedSet
import PointsTo.Pointer.Basic

/-! Numbering of pointers. A pointer gets the next number when it is first seen and keeps it. -/
namespace PointsTo

structure PointerTable where
  pointers : Array Pointer
  distinct : pointers.toList.Nodup

namespace PointerTable

def empty : PointerTable := ⟨#[], .nil⟩

instance : EmptyCollection PointerTable := ⟨empty⟩

instance : Inhabited PointerTable := ⟨empty⟩

def size (t : PointerTable) : Nat := t.pointers.size

def isEmpty (t : PointerTable) : Bool := t.pointers.isEmpty

def get? (t : PointerTable) (id : Nat) : Option Pointer := t.pointers[id]?

def resolve (t : PointerTable) (id : Nat) : Except Fault Pointer :=
  orFault (t.get? id) (.pointer id)

def lookup (t : PointerTable) (p : Pointer) : Option Nat := t.pointers.findIdx? (· = p)

theorem lookup_eq_none {t : PointerTable} {p : Pointer} (h : t.lookup p = none) :
    p ∉ t.pointers.toList := by
  intro hp
  have := Array.findIdx?_eq_none_iff.1 h p (Array.mem_def.2 hp)
  simp at this

def intern (t : PointerTable) (p : Pointer) : Nat × PointerTable :=
  match h : t.lookup p with
  | some id => (id, t)
  | none => (t.size, ⟨t.pointers.push p, by
      rw [Array.toList_push, List.nodup_append]
      refine ⟨t.distinct, by simp, fun a ha b hb => ?_⟩
      rintro rfl
      cases List.mem_singleton.1 hb
      exact lookup_eq_none h ha⟩)

def fieldsOf (t : PointerTable) (base : Var) : OrderedSet FieldRef :=
  .ofList (t.pointers.toList.filterMap (Pointer.fieldOf? base))

def describe (t : PointerTable) (p : Program) (id : Nat) : String :=
  match t.get? id with
  | some pointer => pointer.describe p
  | none => s!"<unregistered p{id}>"

end PointerTable

end PointsTo
