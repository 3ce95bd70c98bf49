import PointsTo.Graph.Basic
import PointsTo.Pointer.Table

/-! Graphs as text: a listing for readers and a digraph for drawing tools. -/
namespace PointsTo

namespace Block

def render (g : Graph) (t : PointerTable) (p : Program) (b : Block) : Except Fault String := do
  let kind ← b.kind.describe p
  let entry := if b.id = g.entry then " [entry]" else ""
  let exit := if b.id ∈ g.exits then " [exit]" else ""
  let succs := ", ".intercalate ((g.successors b.id).toList.map fun s => s!"B{s}")
  let copies := b.copies.map fun c =>
    s!"    {t.describe p c.target} := {t.describe p c.source}\n"
  let mark := b.mark.elim "" fun m => s!"    test({m.testId}, {t.describe p m.traced})\n"
  return s!"B{b.id}: {kind}{entry}{exit} -> [{succs}]\n" ++ String.join copies ++ mark

def drawingLabel (p : Program) (b : Block) : Except Fault String := do
  let kind ← b.kind.describe p
  let mark := b.mark.elim "" fun m => s!" test({m.testId})"
  return s!"B{b.id} {kind}{mark}"

end Block

/-- Quotes and backslashes are escaped; a line break becomes a left-aligned one. -/
def escapeDrawingLabel (s : String) : String :=
  String.join (s.toList.map fun
    | '"' => "\\\""
    | '\\' => "\\\\"
    | '\n' => "\\l"
    | c => c.toString)

namespace Graph

def render (g : Graph) (t : PointerTable) (p : Program) : Except Fault String :=
  String.join <$> g.blocks.toList.mapM (Block.render g t p)

def draw (g : Graph) (p : Program) : Except Fault String := do
  let labels ← g.blocks.toList.mapM (Block.drawingLabel p)
  let nodes := labels.zipIdx.map fun (l, b) =>
    s!"    {b} [ label = \"{escapeDrawingLabel l}\" ]\n"
  let edges := g.succs.toList.zipIdx.flatMap fun (ss, b) =>
    ss.toList.map fun s => s!"    {b} -> {s} [ ]\n"
  return "digraph \x7b\n" ++ String.join nodes ++ String.join edges ++ "\x7d\n"

end Graph

end PointsTo
