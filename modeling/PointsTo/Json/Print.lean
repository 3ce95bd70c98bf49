import PointsTo.Json.Token

/-! Writing JSON texts, compact or indented. -/
namespace PointsTo.Json

/-- The digits of `n` below 16, in lower case. -/
def hexDigit (n : Nat) : Char := Nat.digitChar n

/-- A character inside a string literal. Only quotes, backslashes and control characters are
escaped. -/
def charLiteral (c : Char) : List Char :=
  match shortEscape c with
  | some e => ['\\', e]
  | none =>
    if c < ' ' then ['\\', 'u', '0', '0', hexDigit (c.toNat / 16), hexDigit (c.toNat % 16)]
    else [c]

/-- A string literal. What denotes no text is written as half a surrogate pair. -/
def textLiteral : JsonText → List Char
  | some s => '"' :: s.toList.flatMap charLiteral ++ ['"']
  | none => ['"', '\\', 'u', 'd', '8', '0', '0', '"']

def intLiteral : Int → List Char
  | .ofNat n => Nat.toDigits 10 n
  | .negSucc n => '-' :: Nat.toDigits 10 (n + 1)

def decimalLiteral (negative : Bool) (significand : Nat) (exponent : Int) : List Char :=
  (if negative then ['-'] else []) ++ Nat.toDigits 10 significand ++ 'e' :: intLiteral exponent

def joinWith (separator : List Char) : List (List Char) → List Char
  | [] => []
  | [x] => x
  | x :: xs => x ++ separator ++ joinWith separator xs

mutual

def compact : Json → List Char
  | null => ['n', 'u', 'l', 'l']
  | bool true => ['t', 'r', 'u', 'e']
  | bool false => ['f', 'a', 'l', 's', 'e']
  | int n => intLiteral n
  | decimal negative significand exponent => decimalLiteral negative significand exponent
  | str s => textLiteral s
  | arr items => '[' :: joinWith [','] (compactItems items) ++ [']']
  | obj members => '\x7b' :: joinWith [','] (compactMembers members) ++ ['\x7d']

def compactItems : List Json → List (List Char)
  | [] => []
  | x :: xs => compact x :: compactItems xs

def compactMembers : List (JsonText × Json) → List (List Char)
  | [] => []
  | (k, v) :: ms => (textLiteral k ++ ':' :: compact v) :: compactMembers ms

end

/-- A line break and two spaces for each level. -/
def lineBreak (level : Nat) : List Char := '\n' :: List.replicate (2 * level) ' '

/-- Items between brackets, each on its own line. Without items the brackets touch. -/
def indented (opening closing : Char) (level : Nat) (items : List (List Char)) : List Char :=
  if items.isEmpty then [opening, closing]
  else opening :: lineBreak (level + 1) ++ joinWith (',' :: lineBreak (level + 1)) items ++
    lineBreak level ++ [closing]

mutual

def pretty (level : Nat) : Json → List Char
  | arr items => indented '[' ']' level (prettyItems (level + 1) items)
  | obj members => indented '\x7b' '\x7d' level (prettyMembers (level + 1) members)
  | null => ['n', 'u', 'l', 'l']
  | bool true => ['t', 'r', 'u', 'e']
  | bool false => ['f', 'a', 'l', 's', 'e']
  | int n => intLiteral n
  | decimal negative significand exponent => decimalLiteral negative significand exponent
  | str s => textLiteral s

def prettyItems (level : Nat) : List Json → List (List Char)
  | [] => []
  | x :: xs => pretty level x :: prettyItems level xs

def prettyMembers (level : Nat) : List (JsonText × Json) → List (List Char)
  | [] => []
  | (k, v) :: ms => (textLiteral k ++ [':', ' '] ++ pretty level v) :: prettyMembers level ms

end

def render (j : Json) : String := String.ofList j.compact

def renderPretty (j : Json) : String := String.ofList (j.pretty 0)

end PointsTo.Json
