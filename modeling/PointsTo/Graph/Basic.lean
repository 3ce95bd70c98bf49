import PointsTo.Fault
import PointsTo.OrderedSet
import PointsTo.Program.Lookup

/-! The control-flow graph of the inlined program. A block copies between numbered pointers;
its number is its position. -/
namespace PointsTo

inductive Origin where
  | statement
  /-- Argument binding or write-back of a call. -/
  | call
  /-- Implied by a copy between two variables. -/
  | fieldCopy
  deriving DecidableEq, Repr

/-- The target takes over what the source refers to. -/
structure Copy where
  target : Nat
  source : Nat
  origin : Origin
  deriving DecidableEq, Repr

def Copy.display (c : Copy) : String := s!"p{c.target} := p{c.source}"

inductive BlockKind where
  /-- Statements `first` to `last` of one instance of a method. -/
  | body (method : MethodId) (first last depth : Nat)
  /-- Binds the arguments before the callee is entered. -/
  | enter (callee : MethodId) (depth : Nat)
  /-- Writes back after the callee is left. -/
  | leave (callee : MethodId) (depth : Nat)
  deriving DecidableEq, Repr

namespace BlockKind

def depth : BlockKind → Nat
  | body _ _ _ d | enter _ d | leave _ d => d

def method : BlockKind → MethodId
  | body m .. | enter m _ | leave m _ => m

def describe (p : Program) (k : BlockKind) : Except Fault String := do
  let name := (← p.method k.method).qualifiedName
  return match k with
    | body _ first last _ => s!"{name}[{first}..={last}]"
    | enter .. => s!"call {name}"
    | leave .. => s!"return {name}"

end BlockKind

/-- A test point at the end of a block: the answer of `testId` is read off `traced`. -/
structure TestMark where
  testId : Int
  traced : Nat
  deriving DecidableEq, Repr

structure Block where
  id : Nat
  kind : BlockKind
  copies : List Copy
  mark : Option TestMark
  deriving DecidableEq, Repr

def Block.display (b : Block) : String := s!"B{b.id} ({b.copies.length} edges)"

structure Graph where
  blocks : Array Block
  succs : Array (OrderedSet Nat)
  preds : Array (OrderedSet Nat)
  entry : Nat
  exits : OrderedSet Nat
  deriving DecidableEq, Repr

namespace Graph

def empty : Graph := ⟨#[], #[], #[], 0, ∅⟩

instance : Inhabited Graph := ⟨empty⟩

def size (g : Graph) : Nat := g.blocks.size

def successors (g : Graph) (b : Nat) : OrderedSet Nat := g.succs.getD b ∅

def predecessors (g : Graph) (b : Nat) : OrderedSet Nat := g.preds.getD b ∅

def copiesOf (g : Graph) (b : Nat) : List Copy := (g.blocks[b]?.map (·.copies)).getD []

def edgeCount (g : Graph) : Nat := (g.succs.toList.flatMap (·.toList)).length

def copyCount (g : Graph) : Nat := (g.blocks.toList.flatMap (·.copies)).length

def testPoints (g : Graph) : List (Nat × TestMark) :=
  g.blocks.toList.filterMap fun b => b.mark.map (b.id, ·)

end Graph

end PointsTo
