import PointsTo.Pointer.Basic
import PointsTo.Program.Json

/-! Pointers as JSON. -/
namespace PointsTo.Pointer

def toJson : Pointer → Json
  | var v => .record [("Variable", v.toJson)]
  | staticField f => .record [("StaticField", f.toJson)]
  | instanceField base f =>
    .record [("InstanceField", .record [("base", base.toJson), ("field", f.toJson)])]
  | allocation m s =>
    .record [("Allocation", .record [("method", .nat m), ("stmt", .nat s)])]

def readInstanceField (j : Json) : Except JsonError Pointer := do
  let f ← j.fields ["base", "field"] false
  return .instanceField (← (f "base").required Var.ofJson) (← (f "field").required FieldRef.ofJson)

def readAllocation (j : Json) : Except JsonError Pointer := do
  let f ← j.fields ["method", "stmt"] false
  return .allocation (← (f "method").required Json.readNat32) (← (f "stmt").required Json.readNat64)

def ofJson (j : Json) : Except JsonError Pointer := do
  match ← j.readChoice with
  | ("Variable", j) => return .var (← Json.payload Var.ofJson j)
  | ("StaticField", j) => return .staticField (← Json.payload FieldRef.ofJson j)
  | ("InstanceField", j) => Json.payload readInstanceField j
  | ("Allocation", j) => Json.payload readAllocation j
  | (name, _) => .error (.unknown name)

end PointsTo.Pointer
