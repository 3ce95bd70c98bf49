import PointsTo.Hooks

/-! Settings of an analysis. -/
namespace PointsTo

inductive OutputFormat where
  | text
  | json
  deriving DecidableEq, Repr

/-- Where allocation facts enter: at every block, or only where the object is created. -/
inductive SeedPolicy where
  | everywhere
  | atAllocation
  deriving DecidableEq, Repr

structure Output where
  path : String
  format : OutputFormat
  deriving DecidableEq, Repr

structure Config where
  /-- A call is inlined if its own instance lies less deep than this. -/
  maxInlineDepth : Nat
  /-- How many blocks the solver may evaluate. -/
  maxIterations : Option Nat
  fieldCopropagation : Bool
  seedPolicy : SeedPolicy
  hooks : Hooks
  /-- The entry, when the program's own is not wanted. -/
  entry : Option String
  output : Output
  deriving DecidableEq, Repr

def Output.default : Output := ⟨"result.txt", .text⟩

def Config.default : Config where
  maxInlineDepth := 10
  maxIterations := some 1000000
  fieldCopropagation := true
  seedPolicy := .everywhere
  hooks := .default
  entry := none
  output := .default

instance : Inhabited Config := ⟨.default⟩

inductive InvalidConfig where
  | depth (value : Nat)
  | noIterations
  | emptyHookName
  | equalHooks (name : String)
  | unqualifiedEntry (name : String)
  deriving DecidableEq, Repr

inductive UnknownName where
  | format (name : String)
  | seedPolicy (name : String)
  deriving DecidableEq, Repr

def maxDepthLimit : Nat := 64

def InvalidConfig.message : InvalidConfig → String
  | depth value =>
    s!"Invalid range for field 'max_inline_depth': {value} not in 0..={maxDepthLimit}. " ++
      "Inlining is exponential in the depth of fan-out call chains"
  | noIterations => "Validation error: max_iterations must be at least 1 or None for unlimited"
  | emptyHookName =>
    "Validation error: intrinsic_class, alloc_hook and test_hook must be non-empty"
  | equalHooks name =>
    s!"Validation error: alloc_hook and test_hook must differ (both are '{name}')"
  | unqualifiedEntry name => s!"Validation error: entry '{name}' must be written as Class.method"

def UnknownName.message : UnknownName → String
  | format name => s!"Unknown output format '{name}'. Valid formats: text, json"
  | seedPolicy name => s!"Validation error: unknown seed policy '{name}'"

namespace Config

/-- Looks for the first fault, in the order of the settings. -/
def validate (c : Config) : Except InvalidConfig Unit :=
  if maxDepthLimit < c.maxInlineDepth then .error (.depth c.maxInlineDepth)
  else if c.maxIterations = some 0 then .error .noIterations
  else if c.hooks.owner = "" ∨ c.hooks.alloc = "" ∨ c.hooks.test = "" then .error .emptyHookName
  else if c.hooks.alloc = c.hooks.test then .error (.equalHooks c.hooks.alloc)
  else match c.entry with
    | some name => if '.' ∈ name.toList then .ok () else .error (.unqualifiedEntry name)
    | none => .ok ()

end Config

/-- Capital letters of the Latin alphabet become small. -/
def lowerLatin (s : String) : String := String.ofList (s.toList.map Char.toLower)

namespace OutputFormat

def name : OutputFormat → String
  | text => "text"
  | json => "json"

/-- The names under which formats are stored. -/
def names : List (String × OutputFormat) := [("text", text), ("json", json)]

/-- Reads a name given by hand, in any case. -/
def ofName (s : String) : Except UnknownName OutputFormat :=
  match lowerLatin s with
  | "text" | "txt" => .ok text
  | "json" => .ok json
  | s => .error (.format s)

end OutputFormat

namespace SeedPolicy

def name : SeedPolicy → String
  | everywhere => "everywhere"
  | atAllocation => "at_allocation"

/-- The names under which policies are stored. -/
def names : List (String × SeedPolicy) :=
  [("everywhere", everywhere), ("at_allocation", atAllocation)]

/-- Reads a name given by hand, in any case and with dashes or underscores. -/
def ofName (s : String) : Except UnknownName SeedPolicy :=
  match String.ofList ((lowerLatin s).toList.map fun c => if c = '-' then '_' else c) with
  | "everywhere" => .ok everywhere
  | "at_allocation" => .ok atAllocation
  | s => .error (.seedPolicy s)

end SeedPolicy

end PointsTo
