import PointsTo.Hooks
import PointsTo.Program.Lookup

/-! Writing programs step by step. Locals are declared by name, statements are appended, and a
jump may get its targets later. -/
namespace PointsTo

namespace Method

/-- An instance method that holds nothing yet. -/
def blank (owner name : String) : Method where
  owner
  name
  descriptor := ""
  isStatic := false
  isAbstract := false
  this := none
  params := []
  vars := []
  stmts := []

/-- The slot of a local, which is declared when its name is new. -/
def declare (m : Method) (name : String) : Slot × Method :=
  match m.vars.idxOf? name with
  | some slot => (slot, m)
  | none => (m.vars.length, { m with vars := m.vars ++ [name] })

def declareThis (m : Method) : Slot × Method :=
  let (slot, m) := m.declare "this"
  (slot, { m with this := some slot })

def declareParam (m : Method) (name : String) : Slot × Method :=
  let (slot, m) := m.declare name
  (slot, { m with params := m.params ++ [slot] })

def append (m : Method) (s : Stmt) : Nat × Method :=
  (m.stmts.length, { m with stmts := m.stmts ++ [s] })

end Method

/-- The same jump to other targets. What does not jump stays. -/
def Stmt.withTargets (targets : List Nat) : Stmt → Stmt
  | branch _ => branch targets
  | goto _ => goto targets
  | s => s

def Method.retarget (m : Method) (position : Nat) (targets : List Nat) : Method :=
  { m with stmts := m.stmts.modify position (Stmt.withTargets targets) }

namespace Hooks

/-- The call that labels the next allocation. -/
def allocCall (h : Hooks) (label : Int) : Call :=
  ⟨none, ⟨h.owner, h.alloc, ""⟩, [.const (.int label)], none⟩

/-- The call that asks for the points-to set of a local. -/
def testCall (h : Hooks) (id : Int) (traced : Slot) : Call :=
  ⟨none, ⟨h.owner, h.test, ""⟩, [.const (.int id), .var traced], none⟩

end Hooks

namespace Program

def addClass (p : Program) (name : String) (superclass : Option String) : Program :=
  { p with classes := p.classes ++ [⟨name, superclass⟩] }

def addMethod (p : Program) (m : Method) : MethodId × Program :=
  (p.methods.length, { p with methods := p.methods ++ [m] })

end Program

end PointsTo
