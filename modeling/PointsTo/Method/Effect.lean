import PointsTo.Hooks
import PointsTo.Pointer.Table

/-! What single statements do to pointers, first by name and then by number. -/
namespace PointsTo

/-- The part of a statement that the analysis keeps, over pointers of the type `π`. -/
inductive Effect (π : Type) where
  | idle
  | copy (target source : π)
  /-- A copy from a field, whose source is numbered before its target. -/
  | load (target source : π)
  | test (id : Int) (traced : π)
  | malformedTest
  | call (call : Call)
  deriving DecidableEq, Repr

/-- The effect of statement `idx` of method `m`. What the method returns goes to `receiver`.
Constants copy nothing, and a hook is no call. -/
def Stmt.effect (h : Recognizer) (m : MethodId) (receiver : Option Var) (idx : Nat) :
    Stmt → Effect Pointer
  | .new lhs _ => .copy (.var ⟨m, lhs⟩) (.allocation m idx)
  | .copy lhs (.var rhs) => .copy (.var ⟨m, lhs⟩) (.var ⟨m, rhs⟩)
  | .load lhs base field => .load (.var ⟨m, lhs⟩) (.ofField (base.map (⟨m, ·⟩)) field)
  | .store base field (.var rhs) => .copy (.ofField (base.map (⟨m, ·⟩)) field) (.var ⟨m, rhs⟩)
  | .ret (some (.var value)) => receiver.elim .idle fun r => .copy (.var r) (.var ⟨m, value⟩)
  | .call c =>
    match h c with
    | none => .call c
    | some (.alloc _) => .idle
    | some (.test (some id) (some traced)) => .test id (.var ⟨m, traced⟩)
    | some (.test ..) => .malformedTest
  | _ => .idle

namespace Effect

def number (t : PointerTable) : Effect Pointer → Effect Nat × PointerTable
  | idle => (idle, t)
  | copy target source =>
    let (target, t) := t.intern target
    let (source, t) := t.intern source
    (copy target source, t)
  | load target source =>
    let (source, t) := t.intern source
    let (target, t) := t.intern target
    (load target source, t)
  | test id traced =>
    let (traced, t) := t.intern traced
    (test id traced, t)
  | malformedTest => (malformedTest, t)
  | call c => (call c, t)

def numberAll (t : PointerTable) : List (Effect Pointer) → List (Effect Nat) × PointerTable
  | [] => ([], t)
  | e :: es =>
    let (e, t) := e.number t
    let (es, t) := numberAll t es
    (e :: es, t)

variable {π : Type}

def copy? : Effect π → Option (π × π)
  | copy target source | load target source => some (target, source)
  | _ => none

def test? : Effect π → Option (Int × π)
  | test id traced => some (id, traced)
  | _ => none

def call? : Effect π → Option Call
  | call c => some c
  | _ => none

def isMalformedTest : Effect π → Bool
  | malformedTest => true
  | _ => false

end Effect

end PointsTo
