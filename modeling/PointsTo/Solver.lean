import PointsTo.Facts
import PointsTo.Graph.Basic
import PointsTo.Log
import PointsTo.Worklist

/-! The flow-sensitive solver. Every block's facts are those of its predecessors and of the seed,
changed by its copies in order; blocks are evaluated until nothing changes. -/
namespace PointsTo

def Facts.run (s : Facts) (copies : List Copy) : Facts :=
  copies.foldl (fun s c => s.copy c.target c.source) s

structure Progress where
  /-- The facts after each block. -/
  states : Array Facts
  work : Worklist
  queued : Array Bool
  evaluations : Nat
  deriving DecidableEq, Repr

namespace Progress

/-- All blocks start with the seed and wait in order. -/
def start (g : Graph) (seed : Facts) : Progress :=
  ⟨.replicate g.size seed, .ofList (List.range g.size), .replicate g.size true, 0⟩

def stateOf (p : Progress) (b : Nat) : Facts := p.states.getD b ∅

def isQueued (p : Progress) (b : Nat) : Bool := p.queued.getD b false

/-- Queues a block that does not wait yet. -/
def enqueue (p : Progress) (b : Nat) : Progress :=
  if p.isQueued b then p
  else { p with work := p.work.push b, queued := p.queued.setIfInBounds b true }

end Progress

namespace Graph

/-- The facts after a block, from the seed and the states of its predecessors. -/
def transfer (g : Graph) (seed : Facts) (stateOf : Nat → Facts) (b : Nat) : Facts :=
  Facts.run ((g.predecessors b).toList.foldl (fun s q => s ∪ stateOf q) seed) (g.copiesOf b)

/-- Evaluates a block that was taken from the queue. A change wakes its successors. -/
def evaluate (g : Graph) (seed : Facts) (b : Nat) (p : Progress) : Progress :=
  let p := { p with
    queued := p.queued.setIfInBounds b false
    evaluations := p.evaluations + 1 }
  let out := g.transfer seed p.stateOf b
  if out = p.stateOf b then p
  else
    let p := { p with states := p.states.setIfInBounds b out }
    (g.successors b).toList.foldl Progress.enqueue p

inductive Halt where
  | settled
  | outOfBudget
  deriving DecidableEq, Repr

/-- One step, or the reason why there is none. The budget is looked at when a block is due. -/
def step (g : Graph) (seed : Facts) (budget : Option Nat) (p : Progress) :
    Option Halt × Progress :=
  match p.work.pop? with
  | none => (some .settled, p)
  | some (b, work) =>
    if budget.any (· ≤ p.evaluations) then (some .outOfBudget, p)
    else (none, g.evaluate seed b { p with work })

/-- Steps until there is no step, at most `fuel` times. -/
def iterate (g : Graph) (seed : Facts) (budget : Option Nat) :
    Nat → Progress → Option Halt × Progress
  | 0, p => (none, p)
  | fuel + 1, p =>
    match g.step seed budget p with
    | (some halt, p) => (some halt, p)
    | (none, p) => g.iterate seed budget fuel p

/-- More steps than any run takes. After its first evaluation a block only gains facts, so it
wakes its successors once at first and then at most once for each fact, which is of a copied or
seeded pointer and of a seeded site. -/
def stepBound (g : Graph) (seed : Facts) : Nat :=
  let pointers := g.copyCount + seed.size
  let sites := (seed.toList.map (·.site)).eraseDups.length
  g.size + g.edgeCount * (pointers * sites + 1) + 1

end Graph

structure Solution where
  states : Array Facts
  evaluations : Nat
  converged : Bool
  deriving DecidableEq, Repr

/-- Solves a graph, evaluating no more blocks than the budget says. -/
def Graph.solve (g : Graph) (seed : Facts) (budget : Option Nat) : Solution :=
  let (halt, p) := g.iterate seed budget (g.stepBound seed) (.start g seed)
  ⟨p.states, p.evaluations, halt = some .settled⟩

namespace Solution

def stateOf (s : Solution) (b : Nat) : Except Fault Facts := orFault s.states[b]? (.block b)

def factCount (s : Solution) : Nat := (s.states.toList.flatMap (·.toList)).length

def events (s : Solution) : List Event :=
  (if s.converged then [] else [.budgetSpent s.evaluations]) ++
    [.solved s.evaluations s.states.size s.converged]

end Solution

end PointsTo
