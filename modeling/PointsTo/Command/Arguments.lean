import PointsTo.Command.Basic
import PointsTo.Text.Digits

/-! Reading command lines. An option comes at most once; its value is attached to it or is the next
argument, which must not look like an option. -/
namespace PointsTo

structure Given where
  program : Option String
  config : Option String
  maxDepth : Option Nat
  output : Option String
  format : Option OutputFormat
  statsJson : Bool
  dot : Bool
  help : Bool
  deriving DecidableEq, Repr

/-- Reads a natural number of 64 bits, which may have a plus sign. -/
def readCount (s : String) : Option Nat :=
  let digits := match s.toList with
    | '+' :: cs => cs
    | cs => cs
  (readDigits 10 digits).filter (· < capacity 64)

namespace Given

def nothing : Given := ⟨none, none, none, none, none, false, false, false⟩

def has (g : Given) : Switch → Bool
  | .program => g.program.isSome
  | .config => g.config.isSome
  | .maxDepth => g.maxDepth.isSome
  | .output => g.output.isSome
  | .format => g.format.isSome
  | .statsJson => g.statsJson
  | .dot => g.dot
  | .help => g.help

def turnOn (g : Given) : Switch → Given
  | .statsJson => { g with statsJson := true }
  | .dot => { g with dot := true }
  | .help => { g with help := true }
  | _ => g

/-- Gives a switch its value, unless the value does not fit. -/
def put? (g : Given) (value : String) : Switch → Option Given
  | .program => some { g with program := some value }
  | .config => some { g with config := some value }
  | .output => some { g with output := some value }
  | .maxDepth => (readCount value).map fun n => { g with maxDepth := some n }
  | .format => (OutputFormat.ofName value).toOption.map fun f => { g with format := some f }
  | .statsJson | .dot | .help => none

/-- Gives a switch its value. No value is empty. -/
def put (g : Given) (switch : Switch) (value : String) : Except UsageError Given :=
  match if value = "" then none else g.put? value switch with
  | some g => .ok g
  | none => .error (.badValue switch value)

end Given

/-- An option as one argument has it, with the value attached to it. -/
structure Mention where
  switch : Switch
  value : Option String
  deriving DecidableEq, Repr

namespace Mention

/-- Reads a long option, without its dashes. -/
def ofLong (allowed : List Switch) (cs : List Char) : Except UsageError Mention :=
  let name := String.ofList (cs.takeWhile (· ≠ '='))
  match allowed.find? (·.name = name), cs.dropWhile (· ≠ '=') with
  | none, _ => .error (.unknownSwitch ("--" ++ name))
  | some switch, _ :: value => .ok ⟨switch, some (String.ofList value)⟩
  | some switch, [] => .ok ⟨switch, none⟩

/-- Reads a short option, without its dash. The value may follow an equals sign. -/
def ofShort (allowed : List Switch) (letter : Char) (cs : List Char) : Except UsageError Mention :=
  match allowed.find? (·.letter? = some letter) with
  | none => .error (.unknownSwitch (String.ofList ['-', letter]))
  | some switch =>
    if !switch.takesValue then .ok ⟨switch, none⟩
    else match cs with
      | [] => .ok ⟨switch, none⟩
      | '=' :: value => .ok ⟨switch, some (String.ofList value)⟩
      | value => .ok ⟨switch, some (String.ofList value)⟩

end Mention

/-- A command line read up to some argument. -/
structure Reading where
  given : Given
  /-- The option that waits for its value. -/
  waiting : Option Switch
  /-- After two dashes there are no more options. -/
  ended : Bool
  deriving DecidableEq, Repr

namespace Reading

def mention (r : Reading) (m : Mention) : Except UsageError Reading :=
  if r.given.has m.switch then .error (.repeated m.switch)
  else match m.switch.takesValue, m.value with
    | false, some _ => .error (.unwantedValue m.switch)
    | false, none => .ok { r with given := r.given.turnOn m.switch }
    | true, none => .ok { r with waiting := some m.switch }
    | true, some value => return { r with given := ← r.given.put m.switch value }

/-- Takes up an argument. Whoever asks for help is not listened to any further. -/
def argument (allowed : List Switch) (r : Reading) (text : String) : Except UsageError Reading := do
  if r.given.help then return r
  match r.ended, r.waiting, text.toList with
  | true, _, _ => throw (.unwantedArgument text)
  | _, some switch, '-' :: _ :: _ => throw (.missingValue switch)
  | _, some switch, _ => return ⟨← r.given.put switch text, none, false⟩
  | _, none, ['-', '-'] => return { r with ended := true }
  | _, none, '-' :: '-' :: cs => r.mention (← Mention.ofLong allowed cs)
  | _, none, '-' :: c :: cs => r.mention (← Mention.ofShort allowed c cs)
  | _, none, _ => throw (.unwantedArgument text)

/-- Reads the arguments of a command that has the given options, and help. -/
def arguments (switches : List Switch) (texts : List String) : Except UsageError Given := do
  let r ← texts.foldlM (argument (.help :: switches)) ⟨.nothing, none, false⟩
  match r.waiting with
  | some switch => throw (.missingValue switch)
  | none => return r.given

end Reading

namespace Command

def names : List String := ["analyze", "dump-cfg", "show-config", "help"]

def needProgram (g : Given) (command : String → Command) : Except UsageError Command :=
  match g.help, g.program with
  | true, _ => .ok .help
  | false, some program => .ok (command program)
  | false, none => .error (.missing .program)

def ofArguments : List String → Except UsageError Command
  | [] => .error .noCommand
  | "analyze" :: rest => do
    let g ← Reading.arguments [.program, .config, .maxDepth, .output, .format, .statsJson] rest
    needProgram g fun program =>
      .analyze program g.config g.maxDepth g.output g.format g.statsJson
  | "dump-cfg" :: rest => do
    let g ← Reading.arguments [.program, .config, .dot] rest
    needProgram g fun program => .dumpGraph program g.config g.dot
  | "show-config" :: rest => do
    let g ← Reading.arguments [.config] rest
    return if g.help then .help else .showConfig g.config
  | "help" :: [] | "--help" :: _ => .ok .help
  | "help" :: name :: rest =>
    if name ∉ names then .error (.unknownCommand name)
    else match rest with
      | [] => .ok .help
      | text :: _ => .error (.unwantedArgument text)
  | name :: _ => if name.startsWith "-h" then .ok .help else .error (.unknownCommand name)

end Command

end PointsTo
