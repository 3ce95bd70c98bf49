import PointsTo.Json.Basic
import PointsTo.Text.Double

/-! Reading typed data from JSON values. A record is an object, or an array of its fields in
order; a choice is a name, or an object whose only key is the name. -/
namespace PointsTo.Json

def readText : Json → Except JsonError String
  | str (some s) => .ok s
  | _ => .error (.expected "a string")

def readBool : Json → Except JsonError Bool
  | bool b => .ok b
  | _ => .error (.expected "true or false")

/-- Reads an integer between bounds, the upper one excluded. -/
def readInt (low high : Int) : Json → Except JsonError Int
  | int n => if low ≤ n ∧ n < high then .ok n else .error (.expected "an integer in range")
  | _ => .error (.expected "an integer")

def readInt64 : Json → Except JsonError Int := readInt (-capacity 63) (capacity 63)

def readNat32 (j : Json) : Except JsonError Nat := Int.toNat <$> readInt 0 (capacity 32) j

def readNat64 (j : Json) : Except JsonError Nat := Int.toNat <$> readInt 0 (capacity 64) j

def readOption {α : Type} (read : Json → Except JsonError α) : Json → Except JsonError (Option α)
  | null => .ok none
  | j => some <$> read j

def readList {α : Type} (read : Json → Except JsonError α) : Json → Except JsonError (List α)
  | arr items => items.mapM read
  | _ => .error (.expected "an array")

/-- What a record holds in one field. -/
inductive Field where
  | given (value : Json)
  /-- An object without the key. -/
  | absent (name : String)
  /-- An array that ends before the field. -/
  | cutOff (name : String)

namespace Field

variable {α : Type}

def required (read : Json → Except JsonError α) : Field → Except JsonError α
  | given j => read j
  | absent name | cutOff name => .error (.missing name)

def orElse (default : α) (read : Json → Except JsonError α) : Field → Except JsonError α
  | given j => read j
  | absent _ | cutOff _ => .ok default

/-- A field that may be null or left out. -/
def optional (read : Json → Except JsonError α) : Field → Except JsonError (Option α)
  | given j => readOption read j
  | absent _ | cutOff _ => .ok none

/-- A field that may be null or, in an object, left out. -/
def nullable (read : Json → Except JsonError α) : Field → Except JsonError (Option α)
  | given j => readOption read j
  | absent _ => .ok none
  | cutOff name => .error (.missing name)

end Field

def member? (name : String) (members : List (JsonText × Json)) : Option Json :=
  (members.find? fun m => m.1 = some name).map (·.2)

def checkRepeated (names : List String) (members : List (JsonText × Json)) :
    Except JsonError Unit :=
  match names.find? fun name => 1 < members.countP fun m => m.1 = some name with
  | some name => .error (.repeated name)
  | none => .ok ()

/-- Fails at a key that is no text or, in a closed record, none of the names. -/
def checkKeys (closed : Bool) (names : List String) (members : List (JsonText × Json)) :
    Except JsonError Unit :=
  members.forM fun m =>
    match m.1 with
    | none => .error .unreadable
    | some k => if closed ∧ k ∉ names then .error (.unknown k) else .ok ()

/-- The fields of a record by name. -/
def fields (names : List String) (closed : Bool) : Json → Except JsonError (String → Field)
  | obj members => do
    checkKeys closed names members
    checkRepeated names members
    return fun name => (member? name members).elim (.absent name) .given
  | arr items =>
    if names.length < items.length then .error (.expected s!"at most {names.length} fields")
    else .ok fun name =>
      ((names.idxOf? name).bind fun i => items[i]?).elim (.cutOff name) .given
  | _ => .error (.expected "an object")

/-- The name of a choice and what comes with it. -/
def readChoice : Json → Except JsonError (String × Option Json)
  | str (some name) => .ok (name, none)
  | obj [(some name, j)] => .ok (name, some j)
  | _ => .error (.expected "one name")

def payload {α : Type} (read : Json → Except JsonError α) : Option Json → Except JsonError α
  | some j => read j
  | none => .error (.expected "a value")

/-- A choice that comes with nothing may be written with null. -/
def noPayload : Option Json → Except JsonError Unit
  | none | some null => .ok ()
  | some _ => .error (.expected "null")

def readName {α : Type} (names : List (String × α)) (j : Json) : Except JsonError α := do
  let (name, j) ← readChoice j
  match names.lookup name with
  | none => .error (.unknown name)
  | some a =>
    noPayload j
    return a

/-- Every text in the value is well formed, no number in it is computed beyond double precision,
and it is nested less than `depth` deep. -/
def isReadable : (depth : Nat) → Json → Bool
  | _, null | _, bool _ => true
  | _, int n => productFitsDouble n.natAbs 0
  | _, decimal _ significand exponent => productFitsDouble significand exponent
  | _, str s => s.isSome
  | 0, arr _ | 0, obj _ => false
  | depth + 1, arr items => items.all (isReadable depth)
  | depth + 1, obj members => members.all fun m => m.1.isSome && isReadable depth m.2

end PointsTo.Json
