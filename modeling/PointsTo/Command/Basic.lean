import PointsTo.Config.Basic

/-! What a command line may ask for. -/
namespace PointsTo

inductive Command where
  /-- Analyze a program and write the answers. What is given replaces a setting. -/
  | analyze (program : String) (config : Option String) (maxDepth : Option Nat)
      (output : Option String) (format : Option OutputFormat) (statsJson : Bool)
  /-- Print the inlined graph. -/
  | dumpGraph (program : String) (config : Option String) (drawing : Bool)
  /-- Print the settings. -/
  | showConfig (config : Option String)
  | help
  deriving DecidableEq, Repr

inductive Switch where
  | program
  | config
  | maxDepth
  | output
  | format
  | statsJson
  | dot
  | help
  deriving DecidableEq, Repr

namespace Switch

def name : Switch → String
  | program => "program"
  | config => "config"
  | maxDepth => "max-depth"
  | output => "output"
  | format => "format"
  | statsJson => "stats-json"
  | dot => "dot"
  | help => "help"

def letter? : Switch → Option Char
  | program => some 'p'
  | config => some 'c'
  | output => some 'o'
  | help => some 'h'
  | _ => none

def takesValue : Switch → Bool
  | statsJson | dot | help => false
  | _ => true

end Switch

/-- Why a command line asks for nothing that can be done. -/
inductive UsageError where
  | noCommand
  | unknownCommand (name : String)
  | unknownSwitch (name : String)
  | repeated (switch : Switch)
  | missingValue (switch : Switch)
  | unwantedValue (switch : Switch)
  | badValue (switch : Switch) (value : String)
  | unwantedArgument (text : String)
  | missing (switch : Switch)
  deriving DecidableEq, Repr

def UsageError.message : UsageError → String
  | noCommand => "a command is needed"
  | unknownCommand name => s!"unknown command '{name}'"
  | unknownSwitch name => s!"unknown option '{name}'"
  | repeated switch => s!"option '--{switch.name}' may be given only once"
  | missingValue switch => s!"option '--{switch.name}' needs a value"
  | unwantedValue switch => s!"option '--{switch.name}' takes no value"
  | badValue switch value => s!"'{value}' is no value for option '--{switch.name}'"
  | unwantedArgument text => s!"unexpected argument '{text}'"
  | missing switch => s!"option '--{switch.name}' is needed"

def Command.usage : String :=
  "Commands:\n" ++
  "  analyze -p FILE [-c FILE] [--max-depth N] [-o FILE] [--format text|json] [--stats-json]\n" ++
  "  dump-cfg -p FILE [-c FILE] [--dot]\n" ++
  "  show-config [-c FILE]\n"

end PointsTo
