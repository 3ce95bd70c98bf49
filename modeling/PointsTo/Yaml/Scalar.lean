import PointsTo.Text.Digits
import PointsTo.Yaml.Basic
import PointsTo.Yaml.Character

/-! Scalars that go over several lines. What is read of them is kept in reverse. -/
namespace PointsTo.Yaml

/-- White space in a plain or quoted scalar, before it is known what follows. -/
inductive Gap where
  | blanks (read : List Char)
  /-- Line breaks, of which the first one may be escaped. -/
  | breaks (first : Option Char) (more : List Char)
  deriving DecidableEq, Repr

namespace Gap

def none : Gap := blanks []

def isBroken : Gap → Bool
  | blanks _ => false
  | breaks _ _ => true

/-- Adds a blank. Those at the start of a line do not count. -/
def addBlank (c : Char) : Gap → Gap
  | blanks read => blanks (c :: read)
  | breaks first more => breaks first more

/-- Adds a line break. The blanks before it do not count. -/
def addBreak (c : Char) : Gap → Gap
  | blanks _ => breaks (some c) []
  | breaks first more => breaks first (c :: more)

/-- What it becomes: one line feed is a space, and the first one of several is dropped. -/
def fold : Gap → List Char
  | blanks read => read
  | breaks (some '\n') [] => [' ']
  | breaks (some '\n') more => more
  | breaks first more => more ++ first.toList

end Gap

def unescape : Char → Option Char
  | '0' => some '\x00'
  | 'a' => some '\x07'
  | 'b' => some '\x08'
  | 't' | '\t' => some '\t'
  | 'n' => some '\n'
  | 'v' => some '\x0b'
  | 'f' => some '\x0c'
  | 'r' => some '\r'
  | 'e' => some '\x1b'
  | ' ' => some ' '
  | '"' => some '"'
  | '/' => some '/'
  | '\\' => some '\\'
  | 'N' => some '\x85'
  | '_' => some '\xa0'
  | 'L' => some '\u2028'
  | 'P' => some '\u2029'
  | _ => none

/-- How many hexadecimal digits follow a letter after a backslash. -/
def hexDigits : Char → Option Nat
  | 'x' => some 2
  | 'u' => some 4
  | 'U' => some 8
  | _ => none

/-- The character with a code that escapes may give. -/
def charOfCode? (n : Nat) : Option Char := if n.isValidChar then some (Char.ofNat n) else none

/-- Which line breaks at its end a block scalar keeps. -/
inductive Tail where
  | first
  | none
  | all
  deriving DecidableEq, Repr

/-- The first line of a block scalar. -/
structure BlockHeader where
  /-- Lines stay apart. -/
  isLiteral : Bool
  tail : Option Tail
  /-- How much deeper than the mapping around it the scalar is indented. -/
  depth : Option Nat
  /-- A blank has come, after which there is nothing but a comment. -/
  ended : Bool
  inComment : Bool
  deriving DecidableEq, Repr

namespace BlockHeader

def add (h : BlockHeader) (c : Char) : Except YamlError BlockHeader :=
  if h.inComment then .ok h
  else if isBlank c then .ok { h with ended := true }
  else if c = '#' then .ok { h with inComment := true }
  else if h.ended then .error .blockHeader
  else match c, h.tail, h.depth with
    | '+', .none, _ => .ok { h with tail := some .all }
    | '-', .none, _ => .ok { h with tail := some .none }
    | '0', _, _ => .error .blockHeader
    | c, _, .none => (digitValue? c).elim (.error .blockHeader) fun n =>
        if n < 10 then .ok { h with depth := some n } else .error .blockHeader
    | _, _, _ => .error .blockHeader

end BlockHeader

/-- A block scalar as far as it is read. -/
structure BlockText where
  isLiteral : Bool
  tail : Tail
  /-- Known from the header or the first line with text. -/
  indent : Option Nat
  /-- The indentation is at least that of all lines without text before the first one with it. -/
  atLeast : Nat
  read : List Char
  /-- The break after the last line. -/
  ending : Option Char
  /-- The breaks of lines without text that follow. -/
  empty : List Char
  /-- The last line starts with a blank. -/
  startsBlank : Bool
  inLine : Bool
  deriving DecidableEq, Repr

namespace BlockText

/-- The text after a header. In a scalar without a depth the columns from `least` on may be its
indentation. -/
def start (h : BlockHeader) (least : Nat) : BlockText where
  isLiteral := h.isLiteral
  tail := h.tail.getD .first
  indent := h.depth.map (least - 1 + ·)
  atLeast := max least 1
  read := []
  ending := none
  empty := []
  startsBlank := false
  inLine := false

/-- How the break after the last line appears before a line that starts with `c`. A folded one
becomes a space between two lines that do not start with blanks. -/
def joint (b : BlockText) (c : Char) : List Char :=
  if b.isLiteral ∨ b.ending ≠ some '\n' ∨ b.startsBlank ∨ isBlank c then b.ending.toList
  else if b.empty.isEmpty then [' '] else []

def startLine (b : BlockText) (indent : Nat) (c : Char) : BlockText :=
  { b with indent := some indent, read := c :: b.empty ++ b.joint c ++ b.read
           ending := none, empty := [], startsBlank := isBlank c, inLine := true }

/-- Takes the character in a column, unless the scalar ends before it. -/
def add (b : BlockText) (column : Nat) (c : Char) : Except YamlError (Option BlockText) :=
  let isIndentation := b.indent.all (column < ·)
  if b.inLine then
    .ok (some (if isBreak c then { b with ending := some c, inLine := false }
      else { b with read := c :: b.read }))
  else if isIndentation ∧ c = ' ' then .ok (some b)
  else if isIndentation ∧ c = '\t' then .error .tab
  else if isBreak c then
    .ok (some { b with empty := c :: b.empty, atLeast := max b.atLeast column })
  else
    let indent := b.indent.getD (max b.atLeast column)
    .ok (if column = indent then some (b.startLine indent c) else none)

/-- What it reads, in reverse. -/
def text (b : BlockText) : List Char :=
  let ending := if b.tail = .none then [] else b.ending.toList
  let empty := if b.tail = .all then b.empty else []
  empty ++ ending ++ b.read

end BlockText

end PointsTo.Yaml
