/-! What an analysis reports while it runs. -/
namespace PointsTo

inductive Level where
  | trace
  | debug
  | info
  | warn
  deriving DecidableEq, Repr

def Level.label : Level → String
  | trace => "TRACE"
  | debug => "DEBUG"
  | info => "INFO"
  | warn => "WARN"

/-- Events name statements as `Class.method:index`. -/
inductive Event where
  | started (entry : String) (depth : Nat)
  | entryWithoutBody (entry : String)
  | malformedTest (stmt : String)
  | depthReached (limit : Nat) (callee : String)
  | inlined (instances methods blocks truncated unresolved : Nat)
  | callsUnresolved (count : Nat) (targets : List String)
  | callsTruncated (count limit : Nat)
  | fieldsPropagated (components edges : Nat)
  | unlabeledAllocation (stmt : String)
  | sitesRegistered (sites labeled : Nat)
  | graphBuilt (blocks copies pointers sites : Nat)
  | budgetSpent (evaluations : Nat)
  | solved (evaluations blocks : Nat) (converged : Bool)
  | testNotReached (id : Int)
  | testWithoutSites (id : Int) (sites : Nat)
  | resultsWritten (tests : Nat) (path : String)
  deriving DecidableEq, Repr

namespace Event

def level : Event → Level
  | depthReached .. => .trace
  | inlined .. | fieldsPropagated .. | sitesRegistered .. | solved .. | resultsWritten .. => .debug
  | started .. | graphBuilt .. => .info
  | entryWithoutBody .. | malformedTest .. | callsUnresolved .. | callsTruncated ..
  | unlabeledAllocation .. | budgetSpent .. | testNotReached .. | testWithoutSites .. => .warn

def message : Event → String
  | started entry depth => s!"analyzing from {entry} (max inline depth {depth})"
  | entryWithoutBody entry => s!"entry method {entry} has no body, nothing to analyze"
  | malformedTest stmt => s!"malformed test hook at {stmt}"
  | depthReached limit callee => s!"depth limit {limit} reached, not inlining {callee}"
  | inlined instances methods blocks truncated unresolved =>
    s!"inlined {instances} instances of {methods} methods into {blocks} blocks " ++
      s!"({truncated} truncated, {unresolved} unresolved calls)"
  | callsUnresolved count targets =>
    s!"{count} calls left unresolved: " ++ ", ".intercalate targets
  | callsTruncated count limit => s!"{count} calls not inlined at depth limit {limit}"
  | fieldsPropagated components edges =>
    s!"field co-propagation: {components} components, {edges} implied edges"
  | unlabeledAllocation stmt => s!"allocation hook without constant label at {stmt}"
  | sitesRegistered sites labeled =>
    s!"registered {sites} allocation sites ({labeled} labeled)"
  | graphBuilt blocks copies pointers sites =>
    s!"built global CFG: {blocks} blocks, {copies} copy edges, " ++
      s!"{pointers} pointers, {sites} sites"
  | budgetSpent evaluations =>
    s!"points-to solver stopped after {evaluations} block evaluations " ++
      "without reaching a fixed point"
  | solved evaluations blocks converged =>
    s!"solver: {evaluations} evaluations over {blocks} blocks, converged={converged}"
  | testNotReached id => s!"test {id} is in a method that was never inlined"
  | testWithoutSites id sites =>
    s!"test {id} has an empty points-to set, reporting all {sites} sites"
  | resultsWritten tests path => s!"wrote {tests} test results to {path}"

def line (e : Event) : String := e.level.label ++ " " ++ e.message

end Event

end PointsTo
