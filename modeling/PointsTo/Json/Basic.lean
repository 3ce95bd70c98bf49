/-! JSON values. Members of an object keep their order and may repeat. -/
namespace PointsTo

/-- What a string literal denotes: nothing when its escapes spell half of a surrogate pair. -/
abbrev JsonText := Option String

inductive Json where
  | null
  | bool (value : Bool)
  | int (value : Int)
  /-- A number written with a fraction or an exponent, or a negative zero. -/
  | decimal (negative : Bool) (significand : Nat) (exponent : Int)
  | str (text : JsonText)
  | arr (items : List Json)
  | obj (members : List (JsonText × Json))

inductive JsonError where
  | character (c : Char)
  | word (letters : String)
  | number (literal : String)
  | escape
  | unfinished
  | unexpectedToken
  | expected (shape : String)
  | missing (name : String)
  | repeated (name : String)
  | unknown (name : String)
  | unreadable
  deriving DecidableEq, Repr

def JsonError.message : JsonError → String
  | character c => s!"unexpected character '{c}'"
  | word letters => s!"unknown word '{letters}'"
  | number literal => s!"malformed number '{literal}'"
  | escape => "malformed escape in a string"
  | unfinished => "unexpected end of text"
  | unexpectedToken => "unexpected token"
  | expected shape => s!"expected {shape}"
  | missing name => s!"missing field '{name}'"
  | repeated name => s!"repeated field '{name}'"
  | unknown name => s!"unknown name '{name}'"
  | unreadable => "a value is too deep, too large or ill-formed"

namespace Json

instance : Inhabited Json := ⟨null⟩

def text (s : String) : Json := str (some s)

def nat (n : Nat) : Json := int n

def record (members : List (String × Json)) : Json :=
  obj (members.map fun (k, v) => (some k, v))

/-- A value that may be absent. -/
def ofOption {α : Type} (f : α → Json) (o : Option α) : Json := o.elim null f

def ofList {α : Type} (f : α → Json) (xs : List α) : Json := arr (xs.map f)

end Json

end PointsTo
