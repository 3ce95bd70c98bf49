import PointsTo.Graph.Draft
import PointsTo.Log
import PointsTo.Pointer.Table
import PointsTo.UnionFind

/-! Copies between fields. An instance field is named by its base variable, so a copy between two
variables has to copy their fields too: all those used through any variable connected to them
by copies. -/
namespace PointsTo

/-- Both ends of a copy between variables that does not stem from such a copy itself. -/
def PointerTable.variablePair (t : PointerTable) (c : Copy) : Except Fault (Option (Var × Var)) :=
  if c.origin = .fieldCopy then .ok none
  else do
    match (← t.resolve c.target).var? with
    | none => return none
    | some target => return (← t.resolve c.source).var?.map (target, ·)

/-- Variables numbered as they come, with the sets of those connected by copies. -/
structure Components where
  vars : List Var
  sets : UnionFind

namespace Components

def empty : Components := ⟨[], .empty⟩

def index (cs : Components) (v : Var) : Nat × Components :=
  match cs.vars.idxOf? v with
  | some i => (i, cs)
  | none => (cs.vars.length, { cs with vars := cs.vars ++ [v] })

def connect (cs : Components) (pair : Var × Var) : Components :=
  let (i, cs) := cs.index pair.1
  let (j, cs) := cs.index pair.2
  { cs with sets := (cs.sets.union i j).2 }

def rootOf (cs : Components) (v : Var) : Option Nat := (cs.vars.idxOf? v).map cs.sets.root

/-- The sets with any used fields, by their roots, each with these fields. -/
def fields (cs : Components) (t : PointerTable) : List (Nat × OrderedSet FieldRef) :=
  let used := (cs.vars.zipIdx.map fun (v, i) => (cs.sets.root i, t.fieldsOf v)).filter
    fun (_, fs) => !fs.isEmpty
  (used.map (·.1)).eraseDups.map fun root =>
    (root, used.foldl (fun fs (r, own) => if r = root then fs ∪ own else fs) ∅)

end Components

def fieldCopies (target source : Var) (t : PointerTable) :
    List FieldRef → List Copy × PointerTable
  | [] => ([], t)
  | f :: fs =>
    let (a, t) := t.intern (.instanceField target f)
    let (b, t) := t.intern (.instanceField source f)
    let (rest, t) := fieldCopies target source t fs
    (⟨a, b, .fieldCopy⟩ :: rest, t)

/-- Inserts the field copies right after each copy between variables, and counts them. -/
def insertFieldCopies (fieldsAt : Var → List FieldRef) (t : PointerTable) (added : Nat) :
    List Copy → Except Fault (List Copy × PointerTable × Nat)
  | [] => return ([], t, added)
  | c :: cs => do
    let (own, t) ← match ← t.variablePair c with
      | none => pure ([], t)
      | some (target, source) => pure (fieldCopies target source t (fieldsAt target))
    let (rest, t, added) ← insertFieldCopies fieldsAt t (added + own.length) cs
    return (c :: own ++ rest, t, added)

def insertInBlocks (fieldsAt : Var → List FieldRef) (t : PointerTable) (added : Nat) :
    List Block → Except Fault (List Block × PointerTable × Nat)
  | [] => return ([], t, added)
  | b :: bs => do
    let (copies, t, added) ← insertFieldCopies fieldsAt t added b.copies
    let (bs, t, added) ← insertInBlocks fieldsAt t added bs
    return ({ b with copies } :: bs, t, added)

structure Propagated where
  draft : Draft
  table : PointerTable
  /-- How many copies were inserted. -/
  added : Nat
  events : List Event

def propagateFields (d : Draft) (t : PointerTable) : Except Fault Propagated := do
  let pairs ← (d.blocks.toList.flatMap (·.copies)).filterMapM t.variablePair
  let components := pairs.foldl Components.connect .empty
  let fields := components.fields t
  if fields.isEmpty then return ⟨d, t, 0, []⟩
  let fieldsAt := fun v =>
    (((components.rootOf v).bind fun r => fields.lookup r).map OrderedSet.toList).getD []
  let (blocks, table, added) ← insertInBlocks fieldsAt t 0 d.blocks.toList
  return ⟨{ d with blocks := blocks.toArray }, table, added,
    [.fieldsPropagated fields.length added]⟩

end PointsTo
