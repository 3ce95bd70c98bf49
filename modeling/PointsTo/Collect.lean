import PointsTo.Answers
import PointsTo.Hooks
import PointsTo.Sites
import PointsTo.Solver

/-! Reading the answers off a solution. A test point whose variable refers to no labeled site is
answered with all labels. -/
namespace PointsTo

/-- The test points of the methods with a body, whether control reaches them or not. -/
def Program.declaredTests (p : Program) (h : Recognizer) : OrderedSet Int :=
  .ofList ((p.methods.filter Method.hasBody).flatMap fun m => m.stmts.filterMap (Stmt.testId? h))

/-- What the marked blocks say. A test point that several blocks carry has the labels of all. -/
def markedAnswers (g : Graph) (s : Solution) (sites : Sites) : Except Fault Answers :=
  g.testPoints.foldlM (fun a (b, mark) => do
    let state ← s.stateOf b
    return a.add mark.testId (← sites.labelsOf (state.sitesOf mark.traced))) ∅

structure Collected where
  answers : Answers
  /-- The test points answered with all labels. -/
  fallbacks : List Int
  /-- The declared test points that no block carries. -/
  notReached : List Int
  deriving DecidableEq, Repr

def collect (g : Graph) (s : Solution) (sites : Sites) (declared : OrderedSet Int) :
    Except Fault Collected := do
  let marked ← markedAnswers g s sites
  let notReached := declared.toList.filter fun id => (marked.get? id).isNone
  let found := notReached.foldl (fun a id => a.insert id ∅) marked
  return {
    answers := found.map fun labels => if labels.isEmpty then sites.allLabels else labels
    fallbacks := found.entries.filterMap fun e => if e.2.isEmpty then some e.1 else none
    notReached }

def Collected.events (c : Collected) (sites : Sites) : List Event :=
  c.notReached.map .testNotReached ++
    c.fallbacks.map fun id => .testWithoutSites id sites.allLabels.size

end PointsTo
