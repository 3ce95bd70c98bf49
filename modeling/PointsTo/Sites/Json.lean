import PointsTo.Json.Read
import PointsTo.Sites

/-! Allocation sites as JSON. -/
namespace PointsTo.Site

def toJson (s : Site) : Json :=
  .record [("id", .nat s.id), ("method", .nat s.method), ("stmt", .nat s.stmt),
    ("type_info", .text s.type), ("label", .ofOption .int s.label)]

def ofJson (j : Json) : Except JsonError Site := do
  let f ← j.fields ["id", "method", "stmt", "type_info", "label"] false
  return {
    id := ← (f "id").required Json.readNat32
    method := ← (f "method").required Json.readNat32
    stmt := ← (f "stmt").required Json.readNat64
    type := ← (f "type_info").required Json.readText
    label := ← (f "label").nullable Json.readInt64 }

end PointsTo.Site
