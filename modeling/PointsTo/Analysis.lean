import PointsTo.Collect
import PointsTo.Config.Basic
import PointsTo.FieldCopies
import PointsTo.Graph.Render
import PointsTo.Inline

/-! The whole analysis: inline from the entry, propagate fields, number the allocation sites,
solve, and collect the answers. -/
namespace PointsTo

inductive AnalysisError where
  | config (error : InvalidConfig)
  | entry (error : MissingEntry)
  | fault (fault : Fault)
  deriving DecidableEq, Repr

def AnalysisError.message : AnalysisError → String
  | config e => "Configuration error: " ++ e.message
  | entry e => e.message
  | fault f => f.message

structure Analysis where
  program : Program
  config : Config
  resolver : Resolver
  hooks : Recognizer

/-- An analysis with the hooks of its settings and targets looked up along superclasses. -/
def Analysis.of (p : Program) (c : Config) : Analysis := ⟨p, c, .hierarchy, c.hooks⟩

structure Stats where
  methodsInlined : Nat
  instances : Nat
  blocks : Nat
  cfgEdges : Nat
  copyEdges : Nat
  impliedFieldEdges : Nat
  pointers : Nat
  sites : Nat
  truncatedCalls : Nat
  unresolvedCalls : Nat
  evaluations : Nat
  converged : Bool
  fallbacks : Nat
  durationMs : Nat
  deriving DecidableEq, Repr

def Stats.zero : Stats := ⟨0, 0, 0, 0, 0, 0, 0, 0, 0, 0, 0, false, 0, 0⟩

/-- All that is known before solving. -/
structure Construction where
  table : PointerTable
  sites : Sites
  graph : Graph
  stats : Stats
  events : List Event

structure Outcome where
  construction : Construction
  solution : Solution
  collected : Collected
  stats : Stats
  events : List Event

namespace Analysis

def faulty {α : Type} : Except Fault α → Except AnalysisError α
  | .ok a => .ok a
  | .error f => .error (.fault f)

/-- What inlining reports beyond its own events. -/
def inlineWarnings (limit : Nat) (i : Inlined) : List Event :=
  (if 0 < i.stats.unresolved then
    [.callsUnresolved i.stats.unresolved i.unresolved.toList] else []) ++
  (if 0 < i.stats.truncated then [.callsTruncated i.stats.truncated limit] else [])

/-- Completes an inlined program with field copies and allocation sites. -/
def complete (a : Analysis) (i : Inlined) : Except Fault Construction := do
  let fields ← if a.config.fieldCopropagation then propagateFields i.draft i.table
    else pure ⟨i.draft, i.table, 0, []⟩
  let methods := i.methods.toList
  let (sites, table) ← Sites.ofMethods a.program a.hooks methods fields.table
  let graph ← fields.draft.close i.entry
  let stats := { Stats.zero with
    methodsInlined := i.methods.size
    instances := i.stats.instances
    blocks := graph.size
    cfgEdges := graph.edgeCount
    copyEdges := graph.copyCount
    impliedFieldEdges := fields.added
    pointers := table.size
    sites := sites.size
    truncatedCalls := i.stats.truncated
    unresolvedCalls := i.stats.unresolved }
  return ⟨table, sites, graph, stats,
    i.events ++ inlineWarnings a.config.maxInlineDepth i ++ fields.events ++
      sites.events a.program a.hooks methods ++
      [.graphBuilt stats.blocks stats.copyEdges stats.pointers stats.sites]⟩

def constructFrom (a : Analysis) (entry : MethodId) : Except Fault Construction := do
  let name := (← a.program.method entry).qualifiedName
  let started := Event.started name a.config.maxInlineDepth
  let inliner : Inliner := ⟨a.program, a.resolver, a.hooks, a.config.maxInlineDepth⟩
  match ← inliner.run entry with
  | none => return ⟨∅, .empty, .empty, .zero, [started, .entryWithoutBody name]⟩
  | some i => do
    let c ← a.complete i
    return { c with events := started :: c.events }

/-- Validates the settings, finds the entry and builds the graph. -/
def construct (a : Analysis) : Except AnalysisError Construction :=
  match a.config.validate with
  | .error e => .error (.config e)
  | .ok () =>
    match a.program.entryMethod a.config.entry with
    | .error e => .error (.entry e)
    | .ok entry => faulty (a.constructFrom entry)

/-- The facts that every block starts with. -/
def seed (policy : SeedPolicy) (sites : Sites) : Facts :=
  match policy with
  | .everywhere => sites.seed
  | .atAllocation => sites.generators

def finish (a : Analysis) (c : Construction) : Except Fault Outcome := do
  let solution := c.graph.solve (seed a.config.seedPolicy c.sites) a.config.maxIterations
  let declared := a.program.declaredTests a.hooks
  let collected ← collect c.graph solution c.sites declared
  let stats := { c.stats with
    evaluations := solution.evaluations
    converged := solution.converged
    fallbacks := collected.fallbacks.length }
  return ⟨c, solution, collected, stats,
    c.events ++ solution.events ++ collected.events c.sites⟩

def run (a : Analysis) : Except AnalysisError Outcome := do
  let c ← a.construct
  faulty (a.finish c)

end Analysis

def Outcome.answers (o : Outcome) : Answers := o.collected.answers

end PointsTo
