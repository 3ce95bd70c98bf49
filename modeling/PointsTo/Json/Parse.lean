import PointsTo.Json.Token

/-! Reading JSON texts. Open arrays and objects wait on a stack, so nesting may be of any
depth. -/
namespace PointsTo.Json

/-- A container that waits for the value of an item or member; what it has is in reverse. -/
inductive Frame where
  | items (done : List Json)
  | members (done : List (JsonText × Json)) (key : JsonText)

/-- What may come next, inside the given containers. -/
inductive ParseState where
  | value (stack : List Frame)
  | itemOrEnd (stack : List Frame)
  | keyOrEnd (stack : List Frame)
  | key (done : List (JsonText × Json)) (stack : List Frame)
  | colon (done : List (JsonText × Json)) (key : JsonText) (stack : List Frame)
  | ended (value : Json) (stack : List Frame)

namespace ParseState

def startValue (stack : List Frame) : Token → Except JsonError ParseState
  | .scalar v => .ok (ended v stack)
  | .text s _ => .ok (ended (.str s) stack)
  | .openArr => .ok (itemOrEnd stack)
  | .openObj => .ok (keyOrEnd stack)
  | _ => .error .unexpectedToken

def next : ParseState → Token → Except JsonError ParseState
  | value stack, t => startValue stack t
  | itemOrEnd stack, .closeArr => .ok (ended (.arr []) stack)
  | itemOrEnd stack, t => startValue (.items [] :: stack) t
  | keyOrEnd stack, .closeObj => .ok (ended (.obj []) stack)
  | keyOrEnd stack, .text k _ => .ok (colon [] k stack)
  | key done stack, .text k _ => .ok (colon done k stack)
  | colon done k stack, .colon => .ok (value (.members done k :: stack))
  | ended v (.items done :: stack), .comma => .ok (value (.items (v :: done) :: stack))
  | ended v (.items done :: stack), .closeArr => .ok (ended (.arr (v :: done).reverse) stack)
  | ended v (.members done k :: stack), .comma => .ok (key ((k, v) :: done) stack)
  | ended v (.members done k :: stack), .closeObj =>
    .ok (ended (.obj ((k, v) :: done).reverse) stack)
  | _, _ => .error .unexpectedToken

def result : ParseState → Except JsonError Json
  | ended v [] => .ok v
  | _ => .error .unfinished

end ParseState

def ofTokens (ts : List Token) : Except JsonError Json := do
  (← ts.foldlM ParseState.next (.value [])).result

def parse (s : String) : Except JsonError Json := do ofTokens (← tokenize s.toList)

end PointsTo.Json
