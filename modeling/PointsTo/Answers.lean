import PointsTo.Json.Parse
import PointsTo.Json.Print
import PointsTo.Json.Read
import PointsTo.OrderedSet

/-! The answers of an analysis: for each test point the labels of the sites that its variable may
refer to. -/
namespace PointsTo

structure Answers where
  entries : List (Int × OrderedSet Int)
  ascending : entries.Pairwise (fun a b => a.1 < b.1)
  deriving DecidableEq, Repr

namespace Answers

def empty : Answers := ⟨[], .nil⟩

instance : EmptyCollection Answers := ⟨empty⟩

instance : Inhabited Answers := ⟨empty⟩

def size (a : Answers) : Nat := a.entries.length

def isEmpty (a : Answers) : Bool := a.entries.isEmpty

def get? (a : Answers) (id : Int) : Option (OrderedSet Int) := a.entries.lookup id

/-- The labels of a test point, ascending; an unknown one has none. -/
def labels (a : Answers) (id : Int) : List Int := ((a.get? id).map (·.toList)).getD []

/-- Puts an entry at its place, over an earlier one of the same test point. -/
def insertEntry (id : Int) (labels : OrderedSet Int) :
    List (Int × OrderedSet Int) → List (Int × OrderedSet Int)
  | [] => [(id, labels)]
  | e :: es =>
    if id < e.1 then (id, labels) :: e :: es
    else if id = e.1 then (id, labels) :: es
    else e :: insertEntry id labels es

theorem mem_insertEntry {id : Int} {labels : OrderedSet Int} {es : List (Int × OrderedSet Int)}
    {e : Int × OrderedSet Int} (h : e ∈ insertEntry id labels es) : e = (id, labels) ∨ e ∈ es := by
  induction es with
  | nil => simpa [insertEntry] using h
  | cons x xs ih =>
    rw [insertEntry] at h
    split at h
    · simpa using h
    · split at h
      · rcases List.mem_cons.1 h with h | h
        · exact .inl h
        · exact .inr (List.mem_cons_of_mem _ h)
      · rcases List.mem_cons.1 h with h | h
        · exact .inr (h ▸ List.mem_cons_self)
        · exact (ih h).imp_right (List.mem_cons_of_mem _)

theorem ascending_insertEntry {id : Int} {labels : OrderedSet Int}
    {es : List (Int × OrderedSet Int)} (h : es.Pairwise (fun a b => a.1 < b.1)) :
    (insertEntry id labels es).Pairwise (fun a b => a.1 < b.1) := by
  induction es with
  | nil => simp [insertEntry]
  | cons x xs ih =>
    obtain ⟨hx, hxs⟩ := List.pairwise_cons.1 h
    rw [insertEntry]
    split
    next hlt =>
      refine .cons (fun y hy => ?_) h
      rcases List.mem_cons.1 hy with rfl | hy
      · exact hlt
      · exact Int.lt_trans hlt (hx y hy)
    next hlt =>
      split
      next heq => exact .cons (fun y hy => heq ▸ hx y hy) hxs
      next hne =>
        refine .cons (fun y hy => ?_) (ih hxs)
        rcases mem_insertEntry hy with rfl | hy
        · show x.1 < id
          omega
        · exact hx y hy

def insert (a : Answers) (id : Int) (labels : OrderedSet Int) : Answers :=
  ⟨insertEntry id labels a.entries, ascending_insertEntry a.ascending⟩

def add (a : Answers) (id : Int) (labels : OrderedSet Int) : Answers :=
  a.insert id (((a.get? id).getD ∅) ∪ labels)

def map (a : Answers) (f : OrderedSet Int → OrderedSet Int) : Answers :=
  ⟨a.entries.map fun e => (e.1, f e.2), by
    simpa [List.pairwise_map] using a.ascending⟩

/-- A line for each test point: its identifier, a colon and the labels. -/
def toText (a : Answers) : String :=
  String.join (a.entries.map fun (id, labels) =>
    s!"{id}:" ++ String.join (labels.toList.map fun l => s!" {l}") ++ "\n")

def toJson (a : Answers) : Json :=
  .record (a.entries.map fun (id, labels) => (toString id, .ofList .int labels.toList))

/-- Reads an integer of 64 bits from its one decimal form. -/
def readKey (key : JsonText) : Except JsonError Int := do
  let some s := key | throw .unreadable
  let n := match s.toList with
    | '-' :: cs => (readDigits 10 cs).map fun n => -(n : Int)
    | cs => (readDigits 10 cs).map fun n => (n : Int)
  let some n := n | throw (.expected "an integer key")
  if toString n ≠ s then throw (.expected "an integer key")
  Json.readInt64 (.int n)

/-- Reads an object from test points to labels. Of a repeated key the last value counts. -/
def ofJson : Json → Except JsonError Answers
  | .obj members => members.foldlM (fun a (k, v) => do
      return a.insert (← readKey k) (.ofList (← Json.readList Json.readInt64 v))) ∅
  | _ => .error (.expected "an object")

/-- Reads answers from a text. Their keys are the only strings in it, and no digit of a key may be
given by its code. -/
def parse (s : String) : Except JsonError Answers := do
  let tokens ← Json.tokenize s.toList
  if tokens.any fun t => t matches .text _ true then throw .escape
  ofJson (← Json.ofTokens tokens)

end Answers

end PointsTo
