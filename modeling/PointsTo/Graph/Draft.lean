import PointsTo.Graph.Basic

/-! A graph under construction. Successors keep the order in which they were linked. -/
namespace PointsTo

structure Draft where
  blocks : Array Block
  succs : Array (List Nat)
  deriving DecidableEq, Repr

namespace Draft

def empty : Draft := ⟨#[], #[]⟩

instance : EmptyCollection Draft := ⟨empty⟩

instance : Inhabited Draft := ⟨empty⟩

def size (d : Draft) : Nat := d.blocks.size

def isEmpty (d : Draft) : Bool := d.blocks.isEmpty

/-- Appends a block; the new block's number is the old size. -/
def addBlock (d : Draft) (kind : BlockKind) (copies : List Copy) (mark : Option TestMark) :
    Draft where
  blocks := d.blocks.push ⟨d.blocks.size, kind, copies, mark⟩
  succs := d.succs.push []

def successors (d : Draft) (b : Nat) : List Nat := d.succs.getD b []

/-- Links two blocks once. A block that is not there gets no successors. -/
def link (d : Draft) (source target : Nat) : Draft :=
  { d with succs := d.succs.modify source fun ss => if target ∈ ss then ss else ss ++ [target] }

def linkAll (d : Draft) (source : Nat) (targets : List Nat) : Draft :=
  targets.foldl (fun d t => d.link source t) d

def unlink (d : Draft) (b : Nat) : Draft := { d with succs := d.succs.modify b fun _ => [] }

def check (d : Draft) (b : Nat) : Except Fault Unit :=
  if b < d.size then .ok () else .error (.block b)

def predecessors (d : Draft) : Array (OrderedSet Nat) :=
  d.succs.toList.zipIdx.foldr
    (fun (ss, b) preds => ss.foldl (fun preds s => preds.modify s (·.insert b)) preds)
    (.replicate d.size ∅)

/-- Freezes the draft. Every successor has to be one of its blocks. -/
def freeze (d : Draft) (entry : Nat) (exits : List Nat) : Except Fault Graph := do
  for ss in d.succs do
    for s in ss do
      d.check s
  return ⟨d.blocks, d.succs.map .ofList, d.predecessors, entry, .ofList exits⟩

/-- Freezes with the blocks without successors as exits. -/
def close (d : Draft) (entry : Nat) : Except Fault Graph :=
  d.freeze entry ((List.range d.size).filter fun b => (d.successors b).isEmpty)

end Draft

end PointsTo
