import PointsTo.Json.Parse
import PointsTo.Json.Print
import PointsTo.Json.Read
import PointsTo.Program.Basic

/-! Programs as JSON. All fields are written; when reading, those with a default may be left
out, and keys may come in any order. -/
namespace PointsTo

def Var.toJson (v : Var) : Json := .record [("method", .nat v.method), ("local", .nat v.slot)]

def Var.ofJson (j : Json) : Except JsonError Var := do
  let f ← j.fields ["method", "local"] false
  return ⟨← (f "method").required Json.readNat32, ← (f "local").required Json.readNat32⟩

def FieldRef.toJson (f : FieldRef) : Json :=
  .record [("class", .text f.owner), ("name", .text f.name)]

def FieldRef.ofJson (j : Json) : Except JsonError FieldRef := do
  let f ← j.fields ["class", "name"] false
  return ⟨← (f "class").required Json.readText, ← (f "name").required Json.readText⟩

def MethodRef.toJson (m : MethodRef) : Json :=
  .record [("class", .text m.owner), ("name", .text m.name), ("descriptor", .text m.descriptor)]

def MethodRef.ofJson (j : Json) : Except JsonError MethodRef := do
  let f ← j.fields ["class", "name", "descriptor"] false
  return ⟨← (f "class").required Json.readText, ← (f "name").required Json.readText,
    ← (f "descriptor").orElse "" Json.readText⟩

def Literal.toJson : Literal → Json
  | null => .text "null"
  | int n => .record [("int", .int n)]
  | str s => .record [("str", .text s)]

/-- Inside a statement an empty object may stand for the null that comes with a name. -/
def Literal.ofJson (inStmt : Bool) (j : Json) : Except JsonError Literal := do
  match ← j.readChoice with
  | ("null", some (.obj [])) =>
    if inStmt then return .null else .error (.expected "null")
  | ("null", j) => do
    Json.noPayload j
    return .null
  | ("int", j) => return .int (← Json.payload Json.readInt64 j)
  | ("str", j) => return .str (← Json.payload Json.readText j)
  | (name, _) => .error (.unknown name)

def Operand.toJson : Operand → Json
  | var s => .record [("var", .nat s)]
  | const l => .record [("const", l.toJson)]

def Operand.ofJson (inStmt : Bool) (j : Json) : Except JsonError Operand := do
  match ← j.readChoice with
  | ("var", j) => return .var (← Json.payload Json.readNat32 j)
  | ("const", j) => return .const (← Json.payload (Literal.ofJson inStmt) j)
  | (name, _) => .error (.unknown name)

namespace Call

def members (c : Call) : List (String × Json) :=
  [("result", .ofOption .nat c.result), ("callee", c.callee.toJson),
    ("args", .ofList Operand.toJson c.args), ("base", .ofOption .nat c.base)]

def toJson (c : Call) : Json := .record c.members

def fieldNames : List String := ["result", "callee", "args", "base"]

def ofFields (inStmt : Bool) (f : String → Json.Field) : Except JsonError Call := do
  return {
    result := ← (f "result").optional Json.readNat32
    callee := ← (f "callee").required MethodRef.ofJson
    args := ← (f "args").orElse [] (Json.readList (Operand.ofJson inStmt))
    base := ← (f "base").optional Json.readNat32 }

def ofJson (inStmt : Bool) (j : Json) : Except JsonError Call := do
  ofFields inStmt (← j.fields fieldNames false)

end Call

namespace Stmt

def members : Stmt → String × List (String × Json)
  | new lhs type => ("new", [("lhs", .nat lhs), ("class", .text type)])
  | copy lhs rhs => ("copy", [("lhs", .nat lhs), ("rhs", rhs.toJson)])
  | load lhs base field =>
    ("load_field", [("lhs", .nat lhs), ("base", .ofOption .nat base), ("field", field.toJson)])
  | store base field rhs =>
    ("store_field",
      [("base", .ofOption .nat base), ("field", field.toJson), ("rhs", rhs.toJson)])
  | call c => ("invoke", c.members)
  | branch targets => ("if", [("targets", .ofList .nat targets)])
  | goto targets => ("goto", [("targets", .ofList .nat targets)])
  | ret value => ("return", [("value", .ofOption Operand.toJson value)])
  | other text => ("other", [("text", .text text)])

def toJson (s : Stmt) : Json := .record (("kind", .text s.members.1) :: s.members.2)

def ofKind (kind : String) (j : Json) : Except JsonError Stmt := do
  match kind with
  | "new" =>
    let f ← j.fields ["lhs", "class"] false
    return .new (← (f "lhs").required Json.readNat32) (← (f "class").required Json.readText)
  | "copy" =>
    let f ← j.fields ["lhs", "rhs"] false
    return .copy (← (f "lhs").required Json.readNat32)
      (← (f "rhs").required (Operand.ofJson true))
  | "load_field" =>
    let f ← j.fields ["lhs", "base", "field"] false
    return .load (← (f "lhs").required Json.readNat32) (← (f "base").optional Json.readNat32)
      (← (f "field").required FieldRef.ofJson)
  | "store_field" =>
    let f ← j.fields ["base", "field", "rhs"] false
    return .store (← (f "base").optional Json.readNat32)
      (← (f "field").required FieldRef.ofJson) (← (f "rhs").required (Operand.ofJson true))
  | "invoke" => return .call (← Call.ofJson true j)
  | "if" =>
    let f ← j.fields ["targets"] false
    return .branch (← (f "targets").required (Json.readList Json.readNat64))
  | "goto" =>
    let f ← j.fields ["targets"] false
    return .goto (← (f "targets").required (Json.readList Json.readNat64))
  | "return" =>
    let f ← j.fields ["value"] false
    return .ret (← (f "value").optional (Operand.ofJson true))
  | "other" =>
    let f ← j.fields ["text"] false
    return .other (← (f "text").orElse "" Json.readText)
  | name => .error (.unknown name)

/-- Nesting that a text may have where every value in it is kept. -/
def maxNesting : Nat := 127

/-- Reads a statement that lies in `above` containers. Its kind may come anywhere among its keys,
so all of it has to be readable before the kind is known. In an array the kind comes first. -/
def ofJson (above : Nat) (j : Json) : Except JsonError Stmt := do
  if !j.isReadable (maxNesting - above) then throw .unreadable
  match j with
  | .obj members =>
    Json.checkRepeated ["kind"] members
    match Json.member? "kind" members with
    | some kind => ofKind (← kind.readText) (.obj (members.filter (·.1 ≠ some "kind")))
    | none => .error (.missing "kind")
  | .arr (kind :: items) => ofKind (← kind.readText) (.arr items)
  | .arr [] => .error (.missing "kind")
  | _ => .error (.expected "an object")

end Stmt

def ClassDecl.toJson (c : ClassDecl) : Json :=
  .record [("name", .text c.name), ("superclass", .ofOption .text c.superclass)]

def ClassDecl.ofJson (j : Json) : Except JsonError ClassDecl := do
  let f ← j.fields ["name", "superclass"] false
  return ⟨← (f "name").required Json.readText, ← (f "superclass").optional Json.readText⟩

namespace Method

def toJson (m : Method) : Json :=
  .record [("class", .text m.owner), ("name", .text m.name), ("descriptor", .text m.descriptor),
    ("is_static", .bool m.isStatic), ("is_abstract", .bool m.isAbstract),
    ("this_var", .ofOption .nat m.this), ("params", .ofList .nat m.params),
    ("vars", .ofList .text m.vars), ("stmts", .ofList Stmt.toJson m.stmts)]

def fieldNames : List String :=
  ["class", "name", "descriptor", "is_static", "is_abstract", "this_var", "params", "vars", "stmts"]

/-- Reads a method whose statements lie in `above` containers. -/
def ofJson (above : Nat) (j : Json) : Except JsonError Method := do
  let f ← j.fields fieldNames false
  return {
    owner := ← (f "class").required Json.readText
    name := ← (f "name").required Json.readText
    descriptor := ← (f "descriptor").orElse "" Json.readText
    isStatic := ← (f "is_static").orElse false Json.readBool
    isAbstract := ← (f "is_abstract").orElse false Json.readBool
    this := ← (f "this_var").optional Json.readNat32
    params := ← (f "params").orElse [] (Json.readList Json.readNat32)
    vars := ← (f "vars").orElse [] (Json.readList Json.readText)
    stmts := ← (f "stmts").orElse [] (Json.readList (Stmt.ofJson above)) }

end Method

namespace Program

def toJson (p : Program) : Json :=
  .record [("classes", .ofList ClassDecl.toJson p.classes),
    ("methods", .ofList Method.toJson p.methods), ("entry", .ofOption .text p.entry)]

def ofJson (j : Json) : Except JsonError Program := do
  let f ← j.fields ["classes", "methods", "entry"] false
  return {
    classes := ← (f "classes").orElse [] (Json.readList ClassDecl.ofJson)
    methods := ← (f "methods").required (Json.readList (Method.ofJson 4))
    entry := ← (f "entry").optional Json.readText }

def parse (text : String) : Except JsonError Program := do ofJson (← Json.parse text)

def render (p : Program) : String := p.toJson.render

end Program

end PointsTo
