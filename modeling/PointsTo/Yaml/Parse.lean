import PointsTo.Yaml.Scan

/-! Reading documents. Open mappings wait on a stack. What a mapping leaves out is a null. -/
namespace PointsTo.Yaml

/-- A mapping that is being read; its entries are in reverse. -/
structure OpenMap where
  inBraces : Bool
  done : List (String × Yaml)

def OpenMap.add (m : OpenMap) (key : String) (v : Yaml) : OpenMap :=
  { m with done := (key, v) :: m.done }

def OpenMap.addKey (m : OpenMap) (key : String) : OpenMap := m.add key (.scalar nullScalar)

/-- The mappings around a node with the keys whose values they wait for, innermost first. -/
abbrev Around := List (OpenMap × String)

inductive ParseState where
  | start
  /-- After the dashes that start the document. -/
  | document
  /-- A key or the end of a mapping. -/
  | entry (m : OpenMap) (around : Around)
  /-- An entry is complete. -/
  | entryEnd (m : OpenMap) (around : Around)
  /-- After the mark of a key. -/
  | key (m : OpenMap) (around : Around)
  | colon (m : OpenMap) (key : String) (around : Around)
  | value (m : OpenMap) (key : String) (around : Around)
  | ended (value : Yaml)

namespace ParseState

def close (m : OpenMap) (around : Around) : ParseState :=
  match around with
  | [] => ended (.mapping m.done.reverse)
  | (outer, k) :: around => entryEnd (outer.add k (.mapping m.done.reverse)) around

/-- Between braces a scalar is a key even without a mark. -/
def atEntry (m : OpenMap) (around : Around) (t : Token) : Except YamlError ParseState :=
  match t, m.inBraces with
  | .key, _ => .ok (key m around)
  | .blockEnd, false | .closeMap, true => .ok (close m around)
  | .scalar s, true => .ok (entryEnd (m.addKey s.text) around)
  | _, _ => .error .unexpectedToken

def atEntryEnd (m : OpenMap) (around : Around) (t : Token) : Except YamlError ParseState :=
  match t, m.inBraces with
  | .comma, true => .ok (entry m around)
  | .closeMap, true => .ok (close m around)
  | _, true => .error .unexpectedToken
  | t, false => atEntry m around t

def atColon (m : OpenMap) (k : String) (around : Around) (t : Token) :
    Except YamlError ParseState :=
  match t with
  | .colon => .ok (value m k around)
  | t => atEntryEnd (m.addKey k) around t

def atKey (m : OpenMap) (around : Around) (t : Token) : Except YamlError ParseState :=
  match t with
  | .scalar s => .ok (colon m s.text around)
  | t => atColon m "" around t

def atValue (m : OpenMap) (k : String) (around : Around) (t : Token) :
    Except YamlError ParseState :=
  match t with
  | .scalar s => .ok (entryEnd (m.add k (.scalar s)) around)
  | .openMap => .ok (entry ⟨true, []⟩ ((m, k) :: around))
  | .blockStart => .ok (entry ⟨false, []⟩ ((m, k) :: around))
  | t => atEntryEnd (m.addKey k) around t

def atDocument (t : Token) : Except YamlError ParseState :=
  match t with
  | .scalar s => .ok (ended (.scalar s))
  | .openMap => .ok (entry ⟨true, []⟩ [])
  | .blockStart => .ok (entry ⟨false, []⟩ [])
  | _ => .error .unexpectedToken

/-- Takes one token. After the document only further ends of it may come. -/
def next : ParseState → Token → Except YamlError ParseState
  | start, .documentStart => .ok document
  | start, t => atDocument t
  | document, .documentEnd => .ok (ended (.scalar nullScalar))
  | document, t => atDocument t
  | entry m around, t => atEntry m around t
  | entryEnd m around, t => atEntryEnd m around t
  | key m around, t => atKey m around t
  | colon m k around, t => atColon m k around t
  | value m k around, t => atValue m k around t
  | ended v, .documentEnd => .ok (ended v)
  | ended _, _ => .error .unexpectedToken

def result : ParseState → Except YamlError Yaml
  | ended v => .ok v
  | start | document => .error .emptyDocument
  | _ => .error .unclosed

end ParseState

def ofTokens (ts : List Token) : Except YamlError Yaml := do
  (← ts.foldlM ParseState.next .start).result

def parse (s : String) : Except YamlError Yaml := do ofTokens (← tokenize s.toList)

end PointsTo.Yaml
