import PointsTo.Yaml.Scalar

/-! Writing documents: block mappings with two spaces for each level. A scalar stays on the line of
its key unless it has line breaks. -/
namespace PointsTo.Yaml

inductive Style where
  | plain
  | single
  | double
  /-- Lines below the key, as they are. -/
  | literal
  deriving DecidableEq, Repr

/-- The text would not be read to its end as a plain scalar. -/
def breaksPlain : List Char → Bool
  | [] => false
  | ' ' :: '#' :: _ => true
  | ':' :: cs => isGap cs || breaksPlain cs
  | _ :: cs => breaksPlain cs

/-- The text would not be read from its start as a plain scalar. -/
def startsMarkup : List Char → Bool
  | '-' :: '-' :: '-' :: _ | '.' :: '.' :: '.' :: _ => true
  | c :: cs => isIndicator c || ((c = '-' || c = '?') && isGap cs)
  | [] => true

def hasSpaceBreak : List Char → Bool
  | ' ' :: c :: cs => isBreak c || hasSpaceBreak (c :: cs)
  | _ :: cs => hasSpaceBreak cs
  | [] => false

def hasBreakSpace : List Char → Bool
  | c :: ' ' :: cs => isBreak c || hasBreakSpace cs
  | _ :: cs => hasBreakSpace cs
  | [] => false

/-- A string is plain if it then reads as the same string, literal if it has line feeds, and quoted
otherwise. Spaces that would be lost need double quotes. -/
def style (s : String) : Style :=
  let cs := s.toList
  let endsBlank := cs.getLast? = some ' '
  if cs.any (fun c => c ≠ '\n' && !isPrintable c) || hasSpaceBreak cs then .double
  else if '\n' ∈ cs then if endsBlank then .double else .literal
  else if cs.any isBreak then if hasBreakSpace cs then .double else .single
  else if isSpecialText s || isPaddedDigits cs || startsMarkup cs || breaksPlain cs ||
      cs.head? = some ' ' || endsBlank then .single
  else .plain

def hexChars (digits n : Nat) : List Char :=
  let ds := (Nat.toDigits 16 n).map Char.toUpper
  List.replicate (digits - ds.length) '0' ++ ds

def escaped (c : Char) : List Char :=
  match c with
  | '\x00' => ['\\', '0']
  | '\x07' => ['\\', 'a']
  | '\x08' => ['\\', 'b']
  | '\t' => ['\\', 't']
  | '\n' => ['\\', 'n']
  | '\x0b' => ['\\', 'v']
  | '\x0c' => ['\\', 'f']
  | '\r' => ['\\', 'r']
  | '\x1b' => ['\\', 'e']
  | '"' => ['\\', '"']
  | '\\' => ['\\', '\\']
  | '\x85' => ['\\', 'N']
  | '\u2028' => ['\\', 'L']
  | '\u2029' => ['\\', 'P']
  | c =>
    if isPrintable c then [c]
    else if c.toNat < 0x100 then '\\' :: 'x' :: hexChars 2 c.toNat
    else if c.toNat < 0x10000 then '\\' :: 'u' :: hexChars 4 c.toNat
    else '\\' :: 'U' :: hexChars 8 c.toNat

def spaces (n : Nat) : List Char := List.replicate n ' '

/-- Text whose lines are indented, given whether a line has just been broken. Lines without text
stay empty. -/
def indentLines (indent : Nat) : Bool → List Char → List Char
  | _, [] => []
  | broken, c :: cs =>
    if isBreak c then c :: indentLines indent true cs
    else (if broken then spaces indent else []) ++ c :: indentLines indent false cs

def singleQuoted (indent : Nat) (cs : List Char) : List Char :=
  let body := indentLines indent false (cs.flatMap fun c => if c = '\'' then ['\'', '\''] else [c])
  '\'' :: body ++ (if cs.getLast?.any isBreak then spaces indent else []) ++ ['\'']

/-- How many levels deeper than its key a block lies, if its first line does not show it. -/
def depthMark (cs : List Char) : List Char :=
  if cs.head?.any fun c => c = ' ' || isBreak c then ['2'] else []

/-- Which breaks at the end of a block belong to it, unless it is just one. -/
def tailMark (cs : List Char) : List Char :=
  match cs.reverse with
  | [] => ['-']
  | c :: before =>
    if !isBreak c then ['-'] else if before.head?.all isBreak then ['+'] else []

/-- A string in lines of its own. -/
def literalBlock (indent : Nat) (cs : List Char) : List Char :=
  '|' :: depthMark cs ++ tailMark cs ++ '\n' :: indentLines indent true cs

/-- A string in the style that suits it, with further lines indented. -/
def stringChars (indent : Nat) (s : String) : List Char :=
  match style s with
  | .plain => s.toList
  | .single => singleQuoted indent s.toList
  | .double => '"' :: s.toList.flatMap escaped ++ ['"']
  | .literal => literalBlock indent s.toList

/-- A scalar and the end of its last line. -/
def scalarChars (indent : Nat) (s : YamlScalar) : List Char :=
  let cs := if s.isPlain then s.text.toList else stringChars indent s.text
  cs ++ if cs.getLast?.any isBreak then [] else ['\n']

mutual

/-- What follows a key: a scalar, or a mapping on the lines below. -/
def valueChars (indent : Nat) : Yaml → List Char
  | scalar s => ' ' :: scalarChars (indent + 2) s
  | mapping [] => [' ', '\x7b', '\x7d', '\n']
  | mapping (e :: es) => '\n' :: entriesChars (indent + 2) (e :: es)

def entriesChars (indent : Nat) : List (String × Yaml) → List Char
  | [] => []
  | (k, v) :: es =>
    spaces indent ++ stringChars indent k ++ ':' :: valueChars indent v ++ entriesChars indent es

end

def render : Yaml → String
  | scalar s => String.ofList (scalarChars 2 s)
  | mapping [] => "\x7b\x7d\n"
  | mapping (e :: es) => String.ofList (entriesChars 0 (e :: es))

end PointsTo.Yaml
