import PointsTo.Yaml.Token

/-! Splitting documents into tokens, one character at a time. -/
namespace PointsTo.Yaml

namespace ScanState

/-- Takes the first character of a token, given those after it. -/
def startToken (s : ScanState) (c : Char) (cs : List Char) : Except YamlError ScanState := do
  let s := (← s.dropKeys fun k => k.column + maxKeySize < s.column).closeBlocks s.column
  let isMark := s.inBraces || isGap cs
  if s.column = 0 ∧ isMarker (c :: cs) then
    s.startMarker (if c = '-' then .documentStart else .documentEnd)
  else if c = '\x7b' then s.openBrace
  else if c = '\x7d' then s.closeBrace
  else if c = ',' then s.addComma
  else if c = '?' ∧ isMark then s.addKeyMark
  else if c = ':' ∧ isMark then s.addColon
  else if (c = '|' ∨ c = '>') ∧ !s.inBraces then s.startBlockScalar (c = '|')
  else if c = '\'' then s.startScalar (.single [] .none)
  else if c = '"' then s.startScalar (.double [] .none)
  else if isIndicator c ∨ isBlank c ∨ (c = '-' ∧ isGap cs) then throw (.indicator c)
  else s.startScalar (.plain [c] .none)

/-- Takes a character between tokens, given those after it. A tab cannot come before a key. -/
def addBetween (s : ScanState) (c : Char) (cs : List Char) : Except YamlError ScanState :=
  if c = '\ufeff' ∧ s.column = 0 then .ok s
  else if c = ' ' ∨ (c = '\t' ∧ (s.inBraces ∨ !s.mayStartKey)) then .ok s
  else if c = '#' then .ok { s with mode := .comment }
  else if isBreak c then
    .ok { s with mode := .between, mayStartKey := s.mayStartKey || !s.inBraces }
  else s.startToken c cs

/-- Ends a plain scalar. After a line break a key may start. -/
def endPlain (s : ScanState) (read : List Char) (gap : Gap) : ScanState :=
  { s.push read true with mayStartKey := s.mayStartKey || gap.isBroken }

/-- A plain scalar ends before this character. -/
def endsPlain (s : ScanState) (gap : Gap) (c : Char) (cs : List Char) : Bool :=
  (gap.isBroken && !s.inBraces && s.column < s.deeper) ||
    (gap.isBroken && s.column = 0 && isMarker (c :: cs)) || (c = '#' && gap ≠ .none) ||
    (c = ':' && isGap cs) || (s.inBraces && isFlowIndicator c)

/-- Takes a character of a plain scalar, given those after it. -/
def addPlain (s : ScanState) (read : List Char) (gap : Gap) (c : Char) (cs : List Char) :
    Except YamlError ScanState :=
  if isBlank c then
    if gap.isBroken ∧ c = '\t' ∧ s.column < s.deeper then .error .tab
    else .ok { s with mode := .plain read (gap.addBlank c) }
  else if isBreak c then .ok { s with mode := .plain read (gap.addBreak c) }
  else if s.endsPlain gap c cs then (s.endPlain read gap).addBetween c cs
  else if s.inBraces ∧ c = ':' ∧ cs.head?.any (fun d => d = '?' || isFlowIndicator d) then
    .error (.indicator c)
  else .ok { s with mode := .plain (c :: gap.fold ++ read) .none }

/-- A document starts or ends inside a quoted scalar. -/
def isCut (s : ScanState) (c : Char) (cs : List Char) : Bool := s.column = 0 && isMarker (c :: cs)

/-- Takes a character in single quotes, given those after it. -/
def addSingle (s : ScanState) (read : List Char) (gap : Gap) (c : Char) (cs : List Char) :
    Except YamlError ScanState :=
  if isBlank c then .ok { s with mode := .single read (gap.addBlank c) }
  else if isBreak c then .ok { s with mode := .single read (gap.addBreak c) }
  else if s.isCut c cs then .error .marker
  else if c = '\'' then .ok { s with mode := .singleQuote (gap.fold ++ read) }
  else .ok { s with mode := .single (c :: gap.fold ++ read) .none }

/-- Takes a character in double quotes, given those after it. -/
def addDouble (s : ScanState) (read : List Char) (gap : Gap) (c : Char) (cs : List Char) :
    Except YamlError ScanState :=
  if isBlank c then .ok { s with mode := .double read (gap.addBlank c) }
  else if isBreak c then .ok { s with mode := .double read (gap.addBreak c) }
  else if s.isCut c cs then .error .marker
  else if c = '"' then .ok (s.push (gap.fold ++ read) false)
  else if c = '\\' then .ok { s with mode := .escape (gap.fold ++ read) }
  else .ok { s with mode := .double (c :: gap.fold ++ read) .none }

/-- Takes a character after a backslash. An escaped line break is dropped. -/
def addEscape (s : ScanState) (read : List Char) (c : Char) : Except YamlError ScanState :=
  if isBreak c then .ok { s with mode := .double read (.breaks none []) }
  else match hexDigits c, unescape c with
    | some n, _ => .ok { s with mode := .hex read n 0 }
    | none, some c => .ok { s with mode := .double (c :: read) .none }
    | none, none => .error .escape

def addHex (s : ScanState) (read : List Char) (missing value : Nat) (c : Char) :
    Except YamlError ScanState :=
  match digitValue? c with
  | none => .error .escape
  | some d =>
    let value := value * 16 + d
    if 1 < missing then .ok { s with mode := .hex read (missing - 1) value }
    else (charOfCode? value).elim (.error .escape) fun c =>
      .ok { s with mode := .double (c :: read) .none }

/-- Takes one character, given those after it. -/
def add (s : ScanState) (c : Char) (cs : List Char) : Except YamlError ScanState :=
  match s.mode with
  | .between => s.addBetween c cs
  | .comment => if isBreak c then s.addBetween c cs else .ok s
  | .marker missing =>
    .ok { s with mode := if missing ≤ 1 then .between else .marker (missing - 1) }
  | .plain read gap => s.addPlain read gap c cs
  | .single read gap => s.addSingle read gap c cs
  | .singleQuote read =>
    if c = '\'' then .ok { s with mode := .single (c :: read) .none }
    else (s.push read false).addBetween c cs
  | .double read gap => s.addDouble read gap c cs
  | .escape read => s.addEscape read c
  | .hex read missing value => s.addHex read missing value c
  | .header h =>
    if isBreak c then .ok { s with mode := .block (.start h s.deeper) }
    else return { s with mode := .header (← h.add c) }
  | .block b => do
    match ← b.add s.column c with
    | some b => return { s with mode := .block b }
    | none => (s.push b.text false).addBetween c cs

/-- Goes on to the next column, or the next line, where no possible key is left. -/
def advance (s : ScanState) (c : Char) : Except YamlError ScanState :=
  if isBreak c then do return { ← s.dropKeys fun _ => true with column := 0 }
  else .ok { s with column := s.column + 1 }

def endScalar (s : ScanState) : Except YamlError ScanState :=
  match s.mode with
  | .between | .comment | .marker _ => .ok s
  | .plain read _ => .ok (s.push read true)
  | .singleQuote read => .ok (s.push read false)
  | .header _ => .ok (s.push [] false)
  | .block b => .ok (s.push b.text false)
  | .single .. | .double .. | .escape _ | .hex .. => .error .unclosed

def finish (s : ScanState) : Except YamlError (List Token) := do
  if s.inBraces then throw .unclosed
  let s ← (← s.endScalar).closeAll.dropKey
  return s.done.reverse

def run (s : ScanState) : List Char → Except YamlError (List Token)
  | [] => s.finish
  | c :: cs => do run (← (← s.add c cs).advance c) cs

end ScanState

def tokenize (cs : List Char) : Except YamlError (List Token) :=
  match cs.find? (!isAllowed ·) with
  | some c => .error (.character c)
  | none => ScanState.start.run (unifyBreaks cs)

end PointsTo.Yaml
