import PointsTo.Facts
import PointsTo.Hooks
import PointsTo.Log
import PointsTo.Pointer.Table

/-! Allocation sites. Every `new` of the given methods is one site; the allocation hook before it
in its method gives it a label, and only labeled sites are reported. -/
namespace PointsTo

structure Site where
  id : Nat
  method : MethodId
  stmt : Nat
  type : String
  label : Option Int
  deriving DecidableEq, Repr

namespace Site

def isReported (s : Site) : Bool := s.label.isSome

def display (s : Site) : String :=
  s!"new {s.type}@m{s.method}:{s.stmt}" ++ s.label.elim "" fun l => s!"#{l}"

end Site

/-- A `new` statement with the label that waits for it. -/
structure Allocation where
  method : MethodId
  stmt : Nat
  lhs : Slot
  type : String
  label : Option Int
  deriving DecidableEq, Repr

/-- The `new` statements of a method from statement `i` on, given the label that waits at it. A
label waits for one `new` only, and a later hook replaces it. -/
def allocations (h : Recognizer) (m : MethodId) (i : Nat) (waiting : Option Int) :
    List Stmt → List Allocation
  | [] => []
  | .new lhs type :: ss => ⟨m, i, lhs, type, waiting⟩ :: allocations h m (i + 1) none ss
  | .call c :: ss =>
    match h c with
    | some (.alloc label) => allocations h m (i + 1) label ss
    | _ => allocations h m (i + 1) waiting ss
  | _ :: ss => allocations h m (i + 1) waiting ss

/-- The allocation hooks that give no label. -/
def unlabeledHooks (h : Recognizer) (stmts : List Stmt) : List Nat :=
  stmts.zipIdx.filterMap fun (s, i) =>
    match s with
    | .call c => if h c = some (.alloc none) then some i else none
    | _ => none

structure Sites where
  sites : Array Site
  /-- Each allocation refers to its own site. -/
  generators : Facts
  /-- The generators, and each variable assigned by a `new` refers to its site. -/
  seed : Facts
  deriving DecidableEq, Repr

namespace Sites

def empty : Sites := ⟨#[], ∅, ∅⟩

instance : Inhabited Sites := ⟨empty⟩

def size (s : Sites) : Nat := s.sites.size

def isEmpty (s : Sites) : Bool := s.sites.isEmpty

def register (s : Sites) (t : PointerTable) (a : Allocation) : Sites × PointerTable :=
  let id := s.size
  let (source, t) := t.intern (.allocation a.method a.stmt)
  let (target, t) := t.intern (.var ⟨a.method, a.lhs⟩)
  ({ sites := s.sites.push ⟨id, a.method, a.stmt, a.type, a.label⟩
     generators := s.generators.add source id
     seed := (s.seed.add source id).add target id }, t)

def registerAll (s : Sites) (t : PointerTable) : List Allocation → Sites × PointerTable
  | [] => (s, t)
  | a :: as =>
    let (s, t) := s.register t a
    registerAll s t as

def ofMethods (p : Program) (h : Recognizer) (methods : List MethodId) (t : PointerTable) :
    Except Fault (Sites × PointerTable) := do
  let found ← (OrderedSet.ofList methods).toList.mapM fun m => do
    return allocations h m 0 none (← p.method m).stmts
  return registerAll empty t found.flatten

def events (s : Sites) (p : Program) (h : Recognizer) (methods : List MethodId) : List Event :=
  let hooks := (OrderedSet.ofList methods).toList.flatMap fun m =>
    (p.method? m).elim [] fun method => (unlabeledHooks h method.stmts).map fun i =>
      Event.unlabeledAllocation s!"{method.qualifiedName}:{i}"
  hooks ++ [.sitesRegistered s.size (s.sites.toList.countP Site.isReported)]

/-- Every label that can be reported. -/
def allLabels (s : Sites) : OrderedSet Int := .ofList (s.sites.toList.filterMap (·.label))

def site (s : Sites) (id : Nat) : Except Fault Site := orFault s.sites[id]? (.site id)

def labelsOf (s : Sites) (ids : List Nat) : Except Fault (OrderedSet Int) := do
  return .ofList ((← ids.mapM s.site).filterMap (·.label))

end Sites

end PointsTo
