import PointsTo.Program.Basic

/-! The two hooks through which a program talks to the analysis: one labels the next
allocation, one asks for the points-to set of a variable. -/
namespace PointsTo

structure Hooks where
  owner : String
  alloc : String
  test : String
  deriving DecidableEq, Repr

def Hooks.default : Hooks := ⟨"benchmark.internal.Benchmark", "alloc", "test"⟩

/-- A recognized hook with the arguments it could read. -/
inductive Hook where
  | alloc (label : Option Int)
  | test (id : Option Int) (traced : Option Slot)
  deriving DecidableEq, Repr

/-- A call is a hook by class and name alone; arguments of a wrong shape leave gaps. -/
def Hooks.classify (h : Hooks) (c : Call) : Option Hook :=
  if c.callee.owner ≠ h.owner then none
  else if c.callee.name = h.alloc then some (.alloc (c.args[0]?.bind Operand.int?))
  else if c.callee.name = h.test then
    some (.test (c.args[0]?.bind Operand.int?) (c.args[1]?.bind Operand.slot?))
  else none

/-- Tells which calls are hooks, and how. -/
abbrev Recognizer := Call → Option Hook

instance : Coe Hooks Recognizer := ⟨Hooks.classify⟩

namespace Stmt

def isAllocHook (h : Recognizer) : Stmt → Bool
  | call c => match h c with
    | some (.alloc _) => true
    | _ => false
  | _ => false

def testId? (h : Recognizer) : Stmt → Option Int
  | call c => match h c with
    | some (.test id _) => id
    | _ => none
  | _ => none

end Stmt

end PointsTo
