import PointsTo.Yaml.Scalar

/-! The tokens of documents and what is known while they are found. The columns of its keys tell
where a block mapping starts and ends. A key without a mark is known by its colon, so its own token
is put in late. -/
namespace PointsTo.Yaml

inductive Token where
  | documentStart
  | documentEnd
  | blockStart
  | blockEnd
  | openMap
  | closeMap
  | comma
  | key
  | colon
  | scalar (value : YamlScalar)
  deriving DecidableEq, Repr

/-- Where a scan stands; what was read of the current scalar is kept in reverse. -/
inductive ScanMode where
  | between
  | comment
  /-- Inside the dashes or points that start or end a document. -/
  | marker (missing : Nat)
  | plain (read : List Char) (gap : Gap)
  | single (read : List Char) (gap : Gap)
  /-- After a quote that either ends the scalar or is doubled. -/
  | singleQuote (read : List Char)
  | double (read : List Char) (gap : Gap)
  | escape (read : List Char)
  | hex (read : List Char) (missing : Nat) (value : Nat)
  | header (h : BlockHeader)
  | block (b : BlockText)

/-- A node on this line that is a key if a colon follows. -/
structure PossibleKey where
  /-- How many tokens come before it. -/
  position : Nat
  column : Nat
  /-- It stands where a mapping needs a key. -/
  isRequired : Bool
  deriving DecidableEq, Repr

structure ScanState where
  mode : ScanMode
  /-- The column of the next character. -/
  column : Nat
  /-- Tokens so far, in reverse. -/
  done : List Token
  /-- Columns of the open block mappings, innermost first. -/
  indents : List Nat
  /-- What a colon would make a key. -/
  key : Option PossibleKey
  /-- For each open brace the key that it may be part of, innermost first. -/
  outerKeys : List (Option PossibleKey)
  /-- The next node may become a key. -/
  mayStartKey : Bool

/-- How far a possible key and its colon may be apart. -/
def maxKeySize : Nat := 1024

/-- Puts an element behind the first `n` ones of a list that is kept in reverse. -/
def insertAt {α : Type} (n : Nat) (x : α) (reversed : List α) : List α :=
  reversed.insertIdx (reversed.length - n) x

namespace ScanState

/-- At the start of a text. -/
def start : ScanState := ⟨.between, 0, [], [], none, [], true⟩

def inBraces (s : ScanState) : Bool := !s.outerKeys.isEmpty

/-- The first column that is deeper than the innermost block mapping. -/
def deeper (s : ScanState) : Nat := s.indents.head?.elim 0 (· + 1)

def emit (s : ScanState) (t : Token) : ScanState := { s with mode := .between, done := t :: s.done }

def push (s : ScanState) (read : List Char) (isPlain : Bool) : ScanState :=
  s.emit (.scalar ⟨String.ofList read.reverse, isPlain⟩)

/-- Gives up the possible keys that meet a condition. A required one cannot be given up. -/
def dropKeys (s : ScanState) (drop : PossibleKey → Bool) : Except YamlError ScanState :=
  let keep := fun (k : Option PossibleKey) => k.filter (!drop ·)
  if (s.key :: s.outerKeys).any (·.any fun k => k.isRequired && drop k) then .error .missingColon
  else .ok { s with key := keep s.key, outerKeys := s.outerKeys.map keep }

/-- Gives up the possible key between the innermost braces. -/
def dropKey (s : ScanState) : Except YamlError ScanState :=
  if s.key.any (·.isRequired) then .error .missingColon else .ok { s with key := none }

/-- Takes the next node for a possible key where there may be one. -/
def noteKey (s : ScanState) : Except YamlError ScanState := do
  if !s.mayStartKey then return s
  let s ← s.dropKey
  let isRequired := !s.inBraces && s.indents.head? = some s.column
  return { s with key := some ⟨s.done.length, s.column, isRequired⟩ }

/-- Starts a block mapping in a column, unless one is open there. -/
def openBlock (s : ScanState) (position column : Nat) : ScanState :=
  if s.inBraces ∨ column < s.deeper then s
  else { s with indents := column :: s.indents, done := insertAt position .blockStart s.done }

/-- Ends the block mappings that are deeper than a column. -/
def closeBlocks (s : ScanState) (column : Nat) : ScanState :=
  if s.inBraces then s
  else
    let (ended, others) := s.indents.span (column < ·)
    { s with indents := others, done := ended.map (fun _ => .blockEnd) ++ s.done }

def closeAll (s : ScanState) : ScanState :=
  { s with indents := [], done := s.indents.map (fun _ => .blockEnd) ++ s.done }

/-- Takes the first character of the mark where a document starts or ends. -/
def startMarker (s : ScanState) (t : Token) : Except YamlError ScanState := do
  if s.inBraces then throw .marker
  let s ← s.closeAll.dropKey
  return { s.emit t with mode := .marker 2, mayStartKey := false }

def openBrace (s : ScanState) : Except YamlError ScanState := do
  let s ← s.noteKey
  return { s.emit .openMap with
    key := none, outerKeys := s.key :: s.outerKeys, mayStartKey := true }

def closeBrace (s : ScanState) : Except YamlError ScanState := do
  let s ← s.dropKey
  match s.outerKeys with
  | key :: outerKeys =>
    return { s.emit .closeMap with key := key, outerKeys := outerKeys, mayStartKey := false }
  | [] => throw .unexpectedToken

def addComma (s : ScanState) : Except YamlError ScanState := do
  if !s.inBraces then throw .unexpectedToken
  let s ← s.dropKey
  return { s.emit .comma with mayStartKey := true }

def addKeyMark (s : ScanState) : Except YamlError ScanState := do
  if !s.inBraces ∧ !s.mayStartKey then throw .unexpectedToken
  let s ← (s.openBlock s.done.length s.column).dropKey
  return { s.emit .key with mayStartKey := !s.inBraces }

/-- Takes a colon, which makes a possible key one. -/
def addColon (s : ScanState) : Except YamlError ScanState :=
  match s.key with
  | some k =>
    let s := { s with key := none, done := insertAt k.position .key s.done }
    .ok { (s.openBlock k.position k.column).emit .colon with mayStartKey := false }
  | none =>
    if !s.inBraces ∧ !s.mayStartKey then .error .unexpectedToken
    else .ok { (s.openBlock s.done.length s.column).emit .colon with mayStartKey := !s.inBraces }

/-- Takes the character that a block scalar starts with. -/
def startBlockScalar (s : ScanState) (isLiteral : Bool) : Except YamlError ScanState := do
  let s ← s.dropKey
  return { s with mode := .header ⟨isLiteral, none, none, false, false⟩, mayStartKey := true }

def startScalar (s : ScanState) (mode : ScanMode) : Except YamlError ScanState := do
  let s ← s.noteKey
  return { s with mode := mode, mayStartKey := false }

end ScanState

end PointsTo.Yaml
