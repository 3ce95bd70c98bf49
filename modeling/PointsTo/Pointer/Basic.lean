import PointsTo.Program.Lookup

/-! What can hold a reference. Instance fields are told apart by their base variable, not by
the objects it refers to. -/
namespace PointsTo

inductive Pointer where
  | var (var : Var)
  | staticField (field : FieldRef)
  | instanceField (base : Var) (field : FieldRef)
  /-- The object that one `new` statement creates. -/
  | allocation (method : MethodId) (stmt : Nat)
  deriving DecidableEq, Repr

namespace Pointer

/-- The field `field` of `base`, or the static field when there is no base. -/
def ofField (base : Option Var) (field : FieldRef) : Pointer :=
  base.elim (staticField field) (instanceField · field)

def var? : Pointer → Option Var
  | var v => some v
  | _ => none

def fieldOf? (base : Var) : Pointer → Option FieldRef
  | instanceField b f => if b = base then some f else none
  | _ => none

def describe (p : Program) : Pointer → String
  | var v => p.varName v
  | staticField f => f.display
  | instanceField base f => p.varName base ++ "." ++ f.name
  | allocation m s =>
    match p.method? m with
    | some method => s!"new@{method.qualifiedName}:{s}"
    | none => s!"new@?{m}:{s}"

end Pointer

end PointsTo
