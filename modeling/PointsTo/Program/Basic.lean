/-! Programs as the analysis sees them: classes, methods, and numbered statements over the
slots of one method. A slot names a variable of the whole program only with its method. -/
namespace PointsTo

/-- Position of a method in its program. -/
abbrev MethodId := Nat

/-- Position of a local among the locals of one method. -/
abbrev Slot := Nat

structure Var where
  method : MethodId
  slot : Slot
  deriving DecidableEq, Repr

/-- A field, told by the class that declares it and its name. -/
structure FieldRef where
  owner : String
  name : String
  deriving DecidableEq, Repr

/-- A call target as written at the call. An empty descriptor stands for any overload. -/
structure MethodRef where
  owner : String
  name : String
  descriptor : String
  deriving DecidableEq, Repr

inductive Literal where
  | null
  | int (value : Int)
  | str (value : String)
  deriving DecidableEq, Repr

inductive Operand where
  | var (slot : Slot)
  | const (value : Literal)
  deriving DecidableEq, Repr

structure Call where
  result : Option Slot
  callee : MethodRef
  args : List Operand
  /-- The receiver of an instance call. -/
  base : Option Slot
  deriving DecidableEq, Repr

/-- One statement. A load or store without a base reads or writes a static field. -/
inductive Stmt where
  | new (lhs : Slot) (type : String)
  | copy (lhs : Slot) (rhs : Operand)
  | load (lhs : Slot) (base : Option Slot) (field : FieldRef)
  | store (base : Option Slot) (field : FieldRef) (rhs : Operand)
  | call (call : Call)
  | branch (targets : List Nat)
  | goto (targets : List Nat)
  | ret (value : Option Operand)
  | other (text : String)
  deriving DecidableEq, Repr

structure ClassDecl where
  name : String
  superclass : Option String
  deriving DecidableEq, Repr

structure Method where
  owner : String
  name : String
  descriptor : String
  isStatic : Bool
  isAbstract : Bool
  /-- The slot of the implicit receiver. -/
  this : Option Slot
  params : List Slot
  vars : List String
  stmts : List Stmt
  deriving DecidableEq, Repr

structure Program where
  classes : List ClassDecl
  methods : List Method
  /-- The declared entry, written Class.method. -/
  entry : Option String
  deriving DecidableEq, Repr

def FieldRef.display (f : FieldRef) : String := f.owner ++ "." ++ f.name

instance : Ord FieldRef := ⟨compareLex (compareOn FieldRef.owner) (compareOn FieldRef.name)⟩

instance : Std.TransOrd FieldRef :=
  inferInstanceAs (Std.TransCmp (compareLex (compareOn FieldRef.owner) (compareOn FieldRef.name)))

instance : Std.LawfulEqOrd FieldRef where
  eq_of_compare {a b} h := by
    obtain ⟨ho, hn⟩ := compareLex_eq_eq.1 h
    cases a
    cases b
    simp_all [compareOn]

namespace MethodRef

def qualifiedName (m : MethodRef) : String := m.owner ++ "." ++ m.name

def display (m : MethodRef) : String := m.qualifiedName ++ m.descriptor

end MethodRef

namespace Operand

def slot? : Operand → Option Slot
  | var s => some s
  | const _ => none

def int? : Operand → Option Int
  | const (.int n) => some n
  | _ => none

end Operand

namespace Stmt

def jumpTargets : Stmt → List Nat
  | branch targets | goto targets => targets
  | _ => []

def isJump : Stmt → Bool
  | branch _ | goto _ => true
  | _ => false

def isReturn : Stmt → Bool
  | ret _ => true
  | _ => false

def fallsThrough : Stmt → Bool
  | goto _ | ret _ => false
  | _ => true

end Stmt

namespace Method

def hasBody (m : Method) : Bool := !m.isAbstract && !m.stmts.isEmpty

def qualifiedName (m : Method) : String := m.owner ++ "." ++ m.name

/-- The name of a local; one without a declared name shows its number. -/
def varName (m : Method) (s : Slot) : String := m.vars[s]?.getD ("%" ++ toString s)

end Method

end PointsTo
