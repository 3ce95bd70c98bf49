import PointsTo.Text.Double

/-! The part of YAML that settings need: mappings of strings to scalars and mappings. -/
namespace PointsTo

/-- A scalar as written. Only a plain one can be a null, a truth value or a number. -/
structure YamlScalar where
  text : String
  isPlain : Bool
  deriving DecidableEq, Repr

/-- Entries of a mapping keep their order and may repeat. -/
inductive Yaml where
  | scalar (value : YamlScalar)
  | mapping (entries : List (String × Yaml))

inductive YamlError where
  | character (c : Char)
  | indicator (c : Char)
  | tab
  | escape
  | blockHeader
  | marker
  | missingColon
  | unclosed
  | unexpectedToken
  | emptyDocument
  | expected (shape : String)
  | missing (name : String)
  | repeated (name : String)
  | unknown (name : String)
  deriving DecidableEq, Repr

def YamlError.message : YamlError → String
  | character c => s!"character '{c}' is not allowed"
  | indicator c => s!"'{c}' cannot start a value here"
  | tab => "a tab cannot indent a line"
  | escape => "malformed escape in a string"
  | blockHeader => "malformed first line of a block"
  | marker => "a document cannot start or end here"
  | missingColon => "a key without a colon"
  | unclosed => "a quote or a brace is not closed"
  | unexpectedToken => "unexpected token"
  | emptyDocument => "there is no document"
  | expected shape => s!"expected {shape}"
  | missing name => s!"missing key '{name}'"
  | repeated name => s!"repeated key '{name}'"
  | unknown name => s!"unknown key '{name}'"

namespace Yaml

instance : Inhabited Yaml := ⟨mapping []⟩

def plain (text : String) : Yaml := scalar ⟨text, true⟩

def nullScalar : YamlScalar := ⟨"", true⟩

def isNullText (s : String) : Bool := s ∈ ["", "~", "null", "Null", "NULL"]

def boolOfText? (s : String) : Option Bool :=
  if s ∈ ["true", "True", "TRUE"] then some true
  else if s ∈ ["false", "False", "FALSE"] then some false
  else none

/-- Several digits of which the first is a zero, perhaps with a sign. They are no number. -/
def isPaddedDigits (cs : List Char) : Bool :=
  let cs := match cs with
    | '-' :: cs | '+' :: cs => cs
    | cs => cs
  1 < cs.length && cs.head? = some '0' && cs.all Char.isDigit

/-- Digits after a base mark, or decimal digits without padding. -/
def readUnsigned : List Char → Option Nat
  | '0' :: 'x' :: cs => readDigits 16 cs
  | '0' :: 'o' :: cs => readDigits 8 cs
  | '0' :: 'b' :: cs => readDigits 2 cs
  | cs => if isPaddedDigits cs then none else readDigits 10 cs

/-- The natural number that a plain text means; it may have a plus sign. -/
def natOfText? (s : String) : Option Nat :=
  match s.toList with
  | '+' :: cs => readUnsigned cs
  | cs => readUnsigned cs

/-- An integer of at most 128 bits. -/
def isIntegerText (cs : List Char) : Bool :=
  match cs with
  | '-' :: cs => (readUnsigned cs).any (· ≤ capacity 127)
  | '+' :: cs => (readUnsigned cs).any (· < capacity 128)
  | cs => (readUnsigned cs).any (· < capacity 128)

/-- Digits with at most one point among or beside them, and perhaps an exponent. -/
def isDecimalText (cs : List Char) : Bool :=
  let whole := cs.takeWhile Char.isDigit
  let rest := cs.dropWhile Char.isDigit
  let (fraction, rest) := match rest with
    | '.' :: rest => (rest.takeWhile Char.isDigit, rest.dropWhile Char.isDigit)
    | rest => ([], rest)
  match readDigits 10 (whole ++ fraction), readExponent rest with
  | some n, some e => fitsDouble n (e - fraction.length)
  | _, _ => false

/-- A finite decimal number, or a name of infinity or of what is no number. -/
def isFloatText (cs : List Char) : Bool :=
  let unsigned := match cs with
    | '-' :: cs | '+' :: cs => cs
    | cs => cs
  isDecimalText unsigned || String.ofList unsigned ∈ [".inf", ".Inf", ".INF"] ||
    String.ofList cs ∈ [".nan", ".NaN", ".NAN"]

/-- A plain scalar with this text would be no string. -/
def isSpecialText (s : String) : Bool :=
  isNullText s || (boolOfText? s).isSome || isIntegerText s.toList || isFloatText s.toList

end Yaml

end PointsTo
