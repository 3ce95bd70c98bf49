import PointsTo.Graph.Basic
import PointsTo.Method.Effect

/-! The basic blocks of one method. A block starts at the first statement, at a jump target, and
after a statement that ends a block. -/
namespace PointsTo

/-- A block ends with a jump, a return, a test hook or a call; an allocation hook ends none. -/
def Stmt.endsBlock (h : Recognizer) : Stmt → Bool
  | branch _ | goto _ | ret _ => true
  | call c => !(call c).isAllocHook h
  | _ => false

/-- The statements at which blocks start. Jump targets past the end count for nothing. -/
def blockStarts (h : Recognizer) (stmts : List Stmt) : OrderedSet Nat :=
  let cuts := stmts.zipIdx.flatMap fun (s, i) =>
    (if s.endsBlock h then [i + 1] else []) ++ s.jumpTargets
  .ofList ((0 :: cuts).filter (· < stmts.length))

/-- First and last statement of each block, from the ascending starts. -/
def segments (length : Nat) : List Nat → List (Nat × Nat)
  | [] => []
  | [start] => [(start, length - 1)]
  | start :: next :: starts => (start, next - 1) :: segments length (next :: starts)

/-- A block of a method. Successors are positions among the method's blocks. -/
structure LocalBlock where
  first : Nat
  last : Nat
  copies : List Copy
  succs : OrderedSet Nat
  /-- The call that ends the block, with its statement. -/
  call : Option (Nat × Call)
  mark : Option TestMark
  deriving DecidableEq, Repr

/-- Control leaves the method after the block. -/
def LocalBlock.isExit (b : LocalBlock) : Bool := b.succs.isEmpty

/-- The blocks that control may reach from the last statement of block `i`. -/
def localSuccs (starts : List Nat) (i : Nat) (last : Stmt) : OrderedSet Nat :=
  let next := if last.fallsThrough ∧ i + 1 < starts.length then [i + 1] else []
  .ofList (last.jumpTargets.filterMap (starts.idxOf? ·) ++ next)

/-- Block `i` of a method, which holds the statements `first` to `last`. -/
def localBlock (stmts : List Stmt) (effects : List (Effect Nat)) (starts : List Nat)
    (i first last : Nat) : LocalBlock :=
  let own := (effects.drop first).take (last + 1 - first)
  { first
    last
    copies := (own.filterMap Effect.copy?).map fun (target, source) => ⟨target, source, .statement⟩
    succs := stmts[last]?.elim ∅ (localSuccs starts i)
    call := ((own.zipIdx first).filterMap fun (e, j) => e.call?.map (j, ·)).getLast?
    mark := (own.filterMap Effect.test?).getLast?.map fun (id, traced) => ⟨id, traced⟩ }

/-- The blocks of method `m`, whose result goes to `receiver`. -/
def methodBlocks (h : Recognizer) (m : MethodId) (stmts : List Stmt) (receiver : Option Var)
    (t : PointerTable) : List LocalBlock × PointerTable :=
  let effects := stmts.zipIdx.map fun (s, i) => s.effect h m receiver i
  let (effects, t) := Effect.numberAll t effects
  let starts := (blockStarts h stmts).toList
  let blocks := (segments stmts.length starts).zipIdx.map fun ((first, last), i) =>
    localBlock stmts effects starts i first last
  (blocks, t)

/-- Positions of the blocks after which control leaves the method. -/
def exitsOf (blocks : List LocalBlock) : List Nat :=
  blocks.zipIdx.filterMap fun (b, i) => if b.isExit then some i else none

/-- The statements that look like test hooks but name no test or no variable. -/
def malformedTests (h : Recognizer) (stmts : List Stmt) : List Nat :=
  stmts.zipIdx.filterMap fun (s, i) =>
    if (s.effect h 0 none i).isMalformedTest then some i else none

end PointsTo
