import PointsTo.Analysis.Json
import PointsTo.Command.Arguments
import PointsTo.Host.Load
import PointsTo.Host.Save

/-! Carrying out commands. -/
namespace PointsTo

/-- Why a command was not carried out. -/
inductive RunError where
  | load (error : LoadError)
  | analysis (error : AnalysisError)
  | save (error : SaveError)
  deriving DecidableEq, Repr

def RunError.message : RunError → String
  | load e => e.message
  | analysis e => e.message
  | save e => e.message

/-- What a command prints, and the events it reports. -/
structure Printed where
  text : String
  events : List Event
  deriving DecidableEq, Repr

def Outcome.summary (o : Outcome) (path : String) : String :=
  let s := o.stats
  let halted := if s.converged then "" else ", NOT converged"
  let fallbacks := if 0 < s.fallbacks then s!", {s.fallbacks} fallbacks" else ""
  s!"{o.answers.size} test points -> {path} ({s.methodsInlined} methods, {s.blocks} blocks, " ++
    s!"{s.sites} sites, {s.evaluations} evaluations{halted}{fallbacks})\n"

namespace Command

variable {m : Type → Type} [Monad m]

/-- Makes an error of a step an error of the run. -/
def raise {ε α : Type} (f : ε → RunError) (x : m (Except ε α)) : ExceptT RunError m α :=
  ExceptT.mk ((·.mapError f) <$> x)

def loadConfig (host : Host m) : Option String → ExceptT RunError m Config
  | none => return .default
  | some path => raise .load (Config.load host path)

def override (c : Config) (maxDepth : Option Nat) (output : Option String)
    (format : Option OutputFormat) : Config :=
  { c with
    maxInlineDepth := maxDepth.getD c.maxInlineDepth
    output := ⟨output.getD c.output.path, format.getD c.output.format⟩ }

def runAnalyze (host : Host m) (program : String) (c : Config) (statsJson : Bool) :
    ExceptT RunError m Printed := do
  let p ← raise .load (Program.load host program)
  let start ← host.clock
  match (Analysis.of p c).run with
  | .error e => throw (.analysis e)
  | .ok o =>
    let stop ← host.clock
    let written ← raise .save (o.answers.save host c.output)
    let stats := { o.stats with durationMs := stop - start }
    let text := if statsJson then stats.toJson.renderPretty ++ "\n" else o.summary c.output.path
    return ⟨text, o.events ++ [written]⟩

def runDumpGraph (host : Host m) (program : String) (c : Config) (drawing : Bool) :
    ExceptT RunError m Printed := do
  let p ← raise .load (Program.load host program)
  match (Analysis.of p c).construct with
  | .error e => throw (.analysis e)
  | .ok b =>
    let text := if drawing then (· ++ "\n") <$> b.graph.draw p else b.graph.render b.table p
    match text with
    | .error f => throw (.analysis (.fault f))
    | .ok text => return ⟨text, b.events⟩

def run (host : Host m) : Command → ExceptT RunError m Printed
  | analyze program config maxDepth output format statsJson => do
    let c ← loadConfig host config
    runAnalyze host program (override c maxDepth output format) statsJson
  | dumpGraph program config drawing => do
    let c ← loadConfig host config
    runDumpGraph host program c drawing
  | showConfig config => return ⟨(← loadConfig host config).toDocument, []⟩
  | help => return ⟨usage, []⟩

end Command

structure Report where
  exitCode : Nat
  output : String
  diagnostics : String
  deriving DecidableEq, Repr

/-- Runs a command line. A bad command line ends with 2, a failed run with 1. Of the events only
warnings are shown. -/
def runCommandLine {m : Type → Type} [Monad m] (host : Host m) (args : List String) :
    m Report :=
  match Command.ofArguments args with
  | .error e => pure ⟨2, "", s!"error: {e.message}\n{Command.usage}"⟩
  | .ok command => do
    match ← (command.run host).run with
    | .error e => return ⟨1, "", s!"Error: {e.message}\n"⟩
    | .ok printed =>
      let warnings := printed.events.filter (·.level = .warn)
      return ⟨0, printed.text, String.join (warnings.map fun e => e.line ++ "\n")⟩

end PointsTo
