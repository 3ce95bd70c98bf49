import PointsTo.Json.Basic
import PointsTo.Text.Digits

/-! The tokens of JSON texts. -/
namespace PointsTo.Json

inductive Token where
  | openArr
  | closeArr
  | openObj
  | closeObj
  | comma
  | colon
  /-- A string literal, and whether some of it is given by the codes of characters. -/
  | text (s : JsonText) (coded : Bool)
  | scalar (value : Json)

/-- One element of a string literal: a character, or a UTF-16 unit given by an escape. -/
inductive TextUnit where
  | char (c : Char)
  | code (unit : Nat)
  deriving DecidableEq, Repr

def TextUnit.isCode : TextUnit → Bool
  | char _ => false
  | code _ => true

/-- Joins surrogate pairs. A surrogate without its partner denotes nothing. -/
def joinUnits : List TextUnit → Option (List Char)
  | [] => some []
  | .char c :: us => (joinUnits us).map (c :: ·)
  | .code n :: us =>
    if 0xD800 ≤ n ∧ n < 0xDC00 then
      match us with
      | .code m :: us =>
        if 0xDC00 ≤ m ∧ m < 0xE000 then
          (joinUnits us).map (Char.ofNat (0x10000 + (n - 0xD800) * 0x400 + (m - 0xDC00)) :: ·)
        else none
      | _ => none
    else if 0xDC00 ≤ n ∧ n < 0xE000 then none
    else (joinUnits us).map (Char.ofNat n :: ·)

def unescape : Char → Option Char
  | '"' => some '"'
  | '\\' => some '\\'
  | '/' => some '/'
  | 'b' => some '\x08'
  | 'f' => some '\x0c'
  | 'n' => some '\n'
  | 'r' => some '\r'
  | 't' => some '\t'
  | _ => none

/-- The letter that stands for a character after a backslash. -/
def shortEscape : Char → Option Char
  | '"' => some '"'
  | '\\' => some '\\'
  | '\x08' => some 'b'
  | '\x0c' => some 'f'
  | '\n' => some 'n'
  | '\r' => some 'r'
  | '\t' => some 't'
  | _ => none

def readMagnitude (negative : Bool) (cs : List Char) : Option Json :=
  let whole := cs.takeWhile Char.isDigit
  let rest := cs.dropWhile Char.isDigit
  if whole.head? = some '0' ∧ whole.length ≠ 1 then none
  else
    match rest with
    | [] => (readDigits 10 whole).map fun n =>
        if negative then if n = 0 then decimal true 0 0 else int (-n) else int n
    | '.' :: rest =>
      let fraction := rest.takeWhile Char.isDigit
      if fraction.isEmpty ∨ whole.isEmpty then none
      else do
        let n ← readDigits 10 (whole ++ fraction)
        let e ← readExponent (rest.dropWhile Char.isDigit)
        return decimal negative n (e - fraction.length)
    | rest => do
      let n ← readDigits 10 whole
      let e ← readExponent rest
      return decimal negative n e

/-- Reads a number: no leading zeros, and a digit on both sides of a point. -/
def readNumber : List Char → Option Json
  | '-' :: cs => readMagnitude true cs
  | cs => readMagnitude false cs

def readWord : List Char → Option Json
  | ['n', 'u', 'l', 'l'] => some null
  | ['t', 'r', 'u', 'e'] => some (bool true)
  | ['f', 'a', 'l', 's', 'e'] => some (bool false)
  | _ => none

/-- Where a scan stands; what was read of the current token is kept in reverse. -/
inductive ScanMode where
  | between
  | word (read : List Char)
  | number (read : List Char)
  | text (read : List TextUnit)
  | escape (read : List TextUnit)
  | hex (read : List TextUnit) (missing : Nat) (value : Nat)

/-- Tokens so far, in reverse, and the mode for the next character. -/
abbrev ScanState := ScanMode × List Token

def isNumberChar (c : Char) : Bool :=
  c.isDigit || c = '-' || c = '+' || c = '.' || c = 'e' || c = 'E'

def isBlank (c : Char) : Bool := c = ' ' || c = '\t' || c = '\n' || c = '\r'

def startToken (done : List Token) (c : Char) : Except JsonError ScanState :=
  if isBlank c then .ok (.between, done)
  else if c = '[' then .ok (.between, .openArr :: done)
  else if c = ']' then .ok (.between, .closeArr :: done)
  else if c = '\x7b' then .ok (.between, .openObj :: done)
  else if c = '\x7d' then .ok (.between, .closeObj :: done)
  else if c = ',' then .ok (.between, .comma :: done)
  else if c = ':' then .ok (.between, .colon :: done)
  else if c = '"' then .ok (.text [], done)
  else if c.isDigit ∨ c = '-' then .ok (.number [c], done)
  else if c.isLower then .ok (.word [c], done)
  else .error (.character c)

def endWord (read : List Char) (done : List Token) : Except JsonError (List Token) :=
  (readWord read.reverse).elim (.error (.word (String.ofList read.reverse))) fun v =>
    .ok (.scalar v :: done)

def endNumber (read : List Char) (done : List Token) : Except JsonError (List Token) :=
  (readNumber read.reverse).elim (.error (.number (String.ofList read.reverse))) fun v =>
    .ok (.scalar v :: done)

def scanChar : ScanState → Char → Except JsonError ScanState
  | (.between, done), c => startToken done c
  | (.word read, done), c =>
    if c.isLower then .ok (.word (c :: read), done)
    else do startToken (← endWord read done) c
  | (.number read, done), c =>
    if isNumberChar c then .ok (.number (c :: read), done)
    else do startToken (← endNumber read done) c
  | (.text read, done), c =>
    if c = '"' then
      let s := (joinUnits read.reverse).map String.ofList
      .ok (.between, .text s (read.any (·.isCode)) :: done)
    else if c = '\\' then .ok (.escape read, done)
    else if c < ' ' then .error (.character c)
    else .ok (.text (.char c :: read), done)
  | (.escape read, done), c =>
    if c = 'u' then .ok (.hex read 4 0, done)
    else (unescape c).elim (.error .escape) fun c => .ok (.text (.char c :: read), done)
  | (.hex read missing value, done), c =>
    match digitValue? c with
    | none => .error .escape
    | some d =>
      let value := value * 16 + d
      if missing ≤ 1 then .ok (.text (.code value :: read), done)
      else .ok (.hex read (missing - 1) value, done)

def endScan : ScanState → Except JsonError (List Token)
  | (.between, done) => .ok done.reverse
  | (.word read, done) => List.reverse <$> endWord read done
  | (.number read, done) => List.reverse <$> endNumber read done
  | _ => .error .unfinished

def tokenize (cs : List Char) : Except JsonError (List Token) := do
  endScan (← cs.foldlM scanChar (.between, []))

end PointsTo.Json
