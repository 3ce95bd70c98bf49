import PointsTo.Analysis
import PointsTo.Json.Read

/-! The numbers of an analysis as JSON. -/
namespace PointsTo.Stats

/-- All numbers but the time it took. -/
def counts (s : Stats) : List (String × Json) :=
  [("methods_inlined", .nat s.methodsInlined), ("instances", .nat s.instances),
    ("blocks", .nat s.blocks), ("cfg_edges", .nat s.cfgEdges), ("copy_edges", .nat s.copyEdges),
    ("implied_field_edges", .nat s.impliedFieldEdges), ("pointers", .nat s.pointers),
    ("sites", .nat s.sites), ("truncated_calls", .nat s.truncatedCalls),
    ("unresolved_calls", .nat s.unresolvedCalls), ("evaluations", .nat s.evaluations),
    ("converged", .bool s.converged), ("fallbacks", .nat s.fallbacks)]

def toJson (s : Stats) : Json := .record (s.counts ++ [("duration_ms", .nat s.durationMs)])

def fieldNames : List String :=
  ["methods_inlined", "instances", "blocks", "cfg_edges", "copy_edges", "implied_field_edges",
    "pointers", "sites", "truncated_calls", "unresolved_calls", "evaluations", "converged",
    "fallbacks", "duration_ms"]

def ofJson (j : Json) : Except JsonError Stats := do
  let f ← j.fields fieldNames false
  let number := fun name => (f name).required Json.readNat64
  return {
    methodsInlined := ← number "methods_inlined"
    instances := ← number "instances"
    blocks := ← number "blocks"
    cfgEdges := ← number "cfg_edges"
    copyEdges := ← number "copy_edges"
    impliedFieldEdges := ← number "implied_field_edges"
    pointers := ← number "pointers"
    sites := ← number "sites"
    truncatedCalls := ← number "truncated_calls"
    unresolvedCalls := ← number "unresolved_calls"
    evaluations := ← number "evaluations"
    converged := ← (f "converged").required Json.readBool
    fallbacks := ← number "fallbacks"
    durationMs := ← number "duration_ms" }

end PointsTo.Stats
