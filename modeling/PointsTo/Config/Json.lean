import PointsTo.Config.Basic
import PointsTo.Json.Print
import PointsTo.Json.Read

/-! Settings as JSON. Every setting may be left out; unknown ones are refused. -/
namespace PointsTo

def OutputFormat.toJson (f : OutputFormat) : Json := .text f.name

def OutputFormat.ofJson : Json → Except JsonError OutputFormat := Json.readName names

def SeedPolicy.toJson (p : SeedPolicy) : Json := .text p.name

def SeedPolicy.ofJson : Json → Except JsonError SeedPolicy := Json.readName names

namespace Output

def toJson (o : Output) : Json := .record [("path", .text o.path), ("format", o.format.toJson)]

def ofJson (j : Json) : Except JsonError Output := do
  let f ← j.fields ["path", "format"] true
  return {
    path := ← (f "path").orElse default.path Json.readText
    format := ← (f "format").orElse default.format OutputFormat.ofJson }

end Output

namespace Config

def toJson (c : Config) : Json :=
  .record [("max_inline_depth", .nat c.maxInlineDepth),
    ("max_iterations", .ofOption .nat c.maxIterations),
    ("field_copropagation", .bool c.fieldCopropagation), ("seed_policy", c.seedPolicy.toJson),
    ("intrinsic_class", .text c.hooks.owner), ("alloc_hook", .text c.hooks.alloc),
    ("test_hook", .text c.hooks.test), ("entry", .ofOption .text c.entry),
    ("output", c.output.toJson)]

def fieldNames : List String :=
  ["max_inline_depth", "max_iterations", "field_copropagation", "seed_policy", "intrinsic_class",
    "alloc_hook", "test_hook", "entry", "output"]

def ofJson (j : Json) : Except JsonError Config := do
  let f ← j.fields fieldNames true
  return {
    maxInlineDepth := ← (f "max_inline_depth").orElse default.maxInlineDepth Json.readNat64
    maxIterations :=
      ← (f "max_iterations").orElse default.maxIterations (Json.readOption Json.readNat64)
    fieldCopropagation :=
      ← (f "field_copropagation").orElse default.fieldCopropagation Json.readBool
    seedPolicy := ← (f "seed_policy").orElse default.seedPolicy SeedPolicy.ofJson
    hooks := {
      owner := ← (f "intrinsic_class").orElse default.hooks.owner Json.readText
      alloc := ← (f "alloc_hook").orElse default.hooks.alloc Json.readText
      test := ← (f "test_hook").orElse default.hooks.test Json.readText }
    entry := ← (f "entry").orElse default.entry (Json.readOption Json.readText)
    output := ← (f "output").orElse default.output Output.ofJson }

end Config

end PointsTo
