import PointsTo.Graph.Basic
import PointsTo.Json.Read

/-! The parts of a graph as JSON. -/
namespace PointsTo

namespace Origin

def name : Origin → String
  | statement => "Statement"
  | call => "Call"
  | fieldCopy => "FieldCopy"

def names : List (String × Origin) :=
  [("Statement", statement), ("Call", call), ("FieldCopy", fieldCopy)]

def toJson (o : Origin) : Json := .text o.name

def ofJson : Json → Except JsonError Origin := Json.readName names

end Origin

namespace Copy

def toJson (c : Copy) : Json :=
  .record [("target", .nat c.target), ("source", .nat c.source), ("origin", c.origin.toJson)]

def ofJson (j : Json) : Except JsonError Copy := do
  let f ← j.fields ["target", "source", "origin"] false
  return ⟨← (f "target").required Json.readNat32, ← (f "source").required Json.readNat32,
    ← (f "origin").required Origin.ofJson⟩

end Copy

namespace BlockKind

def toJson : BlockKind → Json
  | body m first last depth =>
    .record [("Body", .record [("method", .nat m), ("from", .nat first), ("to", .nat last),
      ("depth", .nat depth)])]
  | enter callee depth =>
    .record [("Call", .record [("callee", .nat callee), ("depth", .nat depth)])]
  | leave callee depth =>
    .record [("Return", .record [("callee", .nat callee), ("depth", .nat depth)])]

def readBody (j : Json) : Except JsonError BlockKind := do
  let f ← j.fields ["method", "from", "to", "depth"] false
  return .body (← (f "method").required Json.readNat32) (← (f "from").required Json.readNat64)
    (← (f "to").required Json.readNat64) (← (f "depth").required Json.readNat64)

def readEnd (make : MethodId → Nat → BlockKind) (j : Json) : Except JsonError BlockKind := do
  let f ← j.fields ["callee", "depth"] false
  return make (← (f "callee").required Json.readNat32) (← (f "depth").required Json.readNat64)

def ofJson (j : Json) : Except JsonError BlockKind := do
  match ← j.readChoice with
  | ("Body", j) => Json.payload readBody j
  | ("Call", j) => Json.payload (readEnd .enter) j
  | ("Return", j) => Json.payload (readEnd .leave) j
  | (name, _) => .error (.unknown name)

end BlockKind

namespace TestMark

def toJson (m : TestMark) : Json :=
  .record [("test_id", .int m.testId), ("traced", .nat m.traced)]

def ofJson (j : Json) : Except JsonError TestMark := do
  let f ← j.fields ["test_id", "traced"] false
  return ⟨← (f "test_id").required Json.readInt64, ← (f "traced").required Json.readNat32⟩

end TestMark

namespace Block

def toJson (b : Block) : Json :=
  .record [("id", .nat b.id), ("kind", b.kind.toJson), ("edges", .ofList Copy.toJson b.copies),
    ("test_mark", .ofOption TestMark.toJson b.mark)]

def ofJson (j : Json) : Except JsonError Block := do
  let f ← j.fields ["id", "kind", "edges", "test_mark"] false
  return {
    id := ← (f "id").required Json.readNat32
    kind := ← (f "kind").required BlockKind.ofJson
    copies := ← (f "edges").required (Json.readList Copy.ofJson)
    mark := ← (f "test_mark").nullable TestMark.ofJson }

end Block

end PointsTo
