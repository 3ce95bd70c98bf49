import PointsTo.Fault
import PointsTo.Program.Basic

/-! Finding methods, the entry and superclasses by name. Of several declarations of one name
the first counts. -/
namespace PointsTo

/-- Splits `Class.method` at the last point. -/
def splitQualified (name : String) : Option (String × String) :=
  let cs := name.toList.reverse
  match cs.dropWhile (· ≠ '.') with
  | [] => none
  | _ :: owner => some (String.ofList owner.reverse, String.ofList (cs.takeWhile (· ≠ '.')).reverse)

structure MissingEntry where
  name : String
  deriving DecidableEq, Repr

def MissingEntry.message (e : MissingEntry) : String := "Entry method not found: " ++ e.name

namespace Program

def empty : Program := ⟨[], [], none⟩

instance : Inhabited Program := ⟨empty⟩

def method? (p : Program) (id : MethodId) : Option Method := p.methods[id]?

def method (p : Program) (id : MethodId) : Except Fault Method :=
  orFault (p.method? id) (.method id)

def methodIds (p : Program) : List MethodId := List.range p.methods.length

/-- Finds a method by its qualified name; the descriptor is not looked at. -/
def findMethod (p : Program) (name : String) : Option MethodId := do
  let (owner, name) ← splitQualified name
  p.methods.findIdx? fun m => m.owner = owner ∧ m.name = name

/-- The entry: the given name, else the declared one, else the first static `main`. -/
def entryMethod (p : Program) (given : Option String) : Except MissingEntry MethodId :=
  match given <|> p.entry with
  | some name => (p.findMethod name).elim (.error ⟨name⟩) .ok
  | none =>
    (p.methods.findIdx? fun m => m.name = "main" ∧ m.isStatic).elim (.error ⟨"main"⟩) .ok

def superclassOf (p : Program) (name : String) : Option String :=
  (p.classes.find? (·.name = name)).bind (·.superclass)

/-- A variable as `Class.method/local`, also for a method the program does not have. -/
def varName (p : Program) (v : Var) : String :=
  match p.method? v.method with
  | some m => m.qualifiedName ++ "/" ++ m.varName v.slot
  | none => "?" ++ toString v.method ++ "/%" ++ toString v.slot

end Program

end PointsTo
