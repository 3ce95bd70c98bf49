import PointsTo.Config.Json
import PointsTo.Yaml.Parse
import PointsTo.Yaml.Print

/-! Settings as YAML documents with a version. Reading also validates. -/
namespace PointsTo

inductive ConfigError where
  | yaml (error : YamlError)
  | version (found : Nat)
  | invalid (error : InvalidConfig)
  deriving DecidableEq, Repr

def documentVersion : Nat := 1

def ConfigError.message : ConfigError → String
  | yaml e => "YAML parsing error: " ++ e.message
  | version found =>
    s!"Unsupported configuration version {found}. Supported versions: {documentVersion}"
  | invalid e => e.message

namespace Yaml

def readText : Yaml → Except YamlError String
  | scalar s => .ok s.text
  | mapping _ => .error (.expected "a string")

/-- A plain null is no value. -/
def readOption {α : Type} (read : Yaml → Except YamlError α) (y : Yaml) :
    Except YamlError (Option α) :=
  match y with
  | scalar s => if s.isPlain ∧ isNullText s.text then .ok none else some <$> read y
  | mapping _ => some <$> read y

def readBool : Yaml → Except YamlError Bool
  | scalar ⟨s, true⟩ => (boolOfText? s).elim (.error (.expected "true or false")) .ok
  | _ => .error (.expected "true or false")

/-- Reads a natural number below a bound. -/
def readNat (bound : Nat) : Yaml → Except YamlError Nat
  | scalar ⟨s, true⟩ =>
    match natOfText? s with
    | some n => if n < bound then .ok n else .error (.expected "a number in range")
    | none => .error (.expected "a number")
  | _ => .error (.expected "a number")

def readName {α : Type} (names : List (String × α)) (y : Yaml) : Except YamlError α := do
  let name ← y.readText
  (names.lookup name).elim (.error (.unknown name)) .ok

/-- The values of a mapping that has no other keys than the given ones, and none twice. A mapping
that is left out is empty. -/
def fields (names : List String) : Yaml → Except YamlError (String → Option Yaml)
  | scalar s => if s = nullScalar then .ok fun _ => none else .error (.expected "a mapping")
  | mapping entries => do
    if let some (k, _) := entries.find? fun e => e.1 ∉ names then throw (.unknown k)
    if let some k := names.find? fun name => 1 < entries.countP fun e => e.1 = name then
      throw (.repeated k)
    return fun name => entries.lookup name

/-- Reads a value, or takes the default of a missing one. -/
def orElse {α : Type} (default : α) (read : Yaml → Except YamlError α) :
    Option Yaml → Except YamlError α
  | some y => read y
  | none => .ok default

/-- A number, a truth value or a null. -/
def ofNat (n : Nat) : Yaml := plain (toString n)

def ofBool (b : Bool) : Yaml := plain (if b then "true" else "false")

def ofOption {α : Type} (f : α → Yaml) (o : Option α) : Yaml := o.elim (plain "null") f

/-- A string, in whatever style it needs. -/
def text (s : String) : Yaml := scalar ⟨s, false⟩

end Yaml

namespace Output

def toYaml (o : Output) : Yaml :=
  .mapping [("path", .text o.path), ("format", .text o.format.name)]

def ofYaml (y : Yaml) : Except YamlError Output := do
  let f ← y.fields ["path", "format"]
  return {
    path := ← Yaml.orElse default.path Yaml.readText (f "path")
    format := ← Yaml.orElse default.format (Yaml.readName OutputFormat.names) (f "format") }

end Output

namespace Config

def toYaml (c : Config) : Yaml :=
  .mapping [("max_inline_depth", .ofNat c.maxInlineDepth),
    ("max_iterations", .ofOption .ofNat c.maxIterations),
    ("field_copropagation", .ofBool c.fieldCopropagation),
    ("seed_policy", .text c.seedPolicy.name), ("intrinsic_class", .text c.hooks.owner),
    ("alloc_hook", .text c.hooks.alloc), ("test_hook", .text c.hooks.test),
    ("entry", .ofOption .text c.entry), ("output", c.output.toYaml)]

def ofYaml (y : Yaml) : Except YamlError Config := do
  let f ← y.fields fieldNames
  return {
    maxInlineDepth :=
      ← Yaml.orElse default.maxInlineDepth (Yaml.readNat (capacity 64)) (f "max_inline_depth")
    maxIterations :=
      ← Yaml.orElse default.maxIterations (Yaml.readOption (Yaml.readNat (capacity 64)))
        (f "max_iterations")
    fieldCopropagation :=
      ← Yaml.orElse default.fieldCopropagation Yaml.readBool (f "field_copropagation")
    seedPolicy :=
      ← Yaml.orElse default.seedPolicy (Yaml.readName SeedPolicy.names) (f "seed_policy")
    hooks := {
      owner := ← Yaml.orElse default.hooks.owner Yaml.readText (f "intrinsic_class")
      alloc := ← Yaml.orElse default.hooks.alloc Yaml.readText (f "alloc_hook")
      test := ← Yaml.orElse default.hooks.test Yaml.readText (f "test_hook") }
    entry := ← Yaml.orElse default.entry (Yaml.readOption Yaml.readText) (f "entry")
    output := ← Yaml.orElse default.output Output.ofYaml (f "output") }

def toDocument (c : Config) : String :=
  (Yaml.mapping [("version", .ofNat documentVersion), ("pta", c.toYaml)]).render

def readDocument (s : String) : Except YamlError (Nat × Config) := do
  let f ← (← Yaml.parse s).fields ["version", "pta"]
  let some version := f "version" | throw (.missing "version")
  return (← version.readNat (capacity 32), ← Yaml.orElse default ofYaml (f "pta"))

/-- Reads a document. The version is looked at before the settings are validated. -/
def ofDocument (s : String) : Except ConfigError Config :=
  match readDocument s with
  | .error e => .error (.yaml e)
  | .ok (version, c) =>
    if version ≠ documentVersion then .error (.version version)
    else match c.validate with
      | .error e => .error (.invalid e)
      | .ok () => .ok c

end Config

end PointsTo
