import PointsTo.Graph.Draft
import PointsTo.Log
import PointsTo.Method.Blocks
import PointsTo.Resolver

/-! Inlining. The graph of the whole program is made of instances of methods: a call is replaced
by a fresh instance of its callee, entered through a block that binds the arguments and left
through a block that writes them back. Instances of one method share its variables. -/
namespace PointsTo

structure InlineStats where
  instances : Nat
  spliced : Nat
  truncated : Nat
  unresolved : Nat
  maxDepth : Nat
  deriving DecidableEq, Repr

structure Inlining where
  draft : Draft
  table : PointerTable
  /-- The methods with an instance. -/
  methods : OrderedSet MethodId
  /-- Names of the call targets that were not found. -/
  unresolved : OrderedSet String
  stats : InlineStats
  events : Array Event

def Inlining.start (t : PointerTable) : Inlining := ⟨∅, t, ∅, ∅, ⟨0, 0, 0, 0, 0⟩, #[]⟩

/-- A call waiting for an instance of its callee. -/
structure PendingCall where
  /-- The block that the call ends. -/
  block : Nat
  caller : MethodId
  call : Call
  callee : MethodId
  /-- Depth of the callee's instance. -/
  depth : Nat
  deriving DecidableEq, Repr

structure Instance where
  entry : Nat
  exits : List Nat
  calls : List PendingCall
  deriving DecidableEq, Repr

structure Inliner where
  program : Program
  resolver : Resolver
  hooks : Recognizer
  maxDepth : Nat

namespace Inliner

/-- The method that a call runs, if it is known and has a body. -/
def target (inl : Inliner) (c : Call) : Except Fault (Option MethodId) :=
  match inl.resolver inl.program c.callee with
  | none => .ok none
  | some id => do return if (← inl.program.method id).hasBody then some id else none

def addBlocks (m : MethodId) (depth : Nat) (blocks : List LocalBlock) (d : Draft) : Draft :=
  let base := d.size
  let d := blocks.foldl
    (fun d b => d.addBlock (.body m b.first b.last depth) b.copies b.mark) d
  blocks.zipIdx.foldl (fun d (b, i) => d.linkAll (base + i) (b.succs.toList.map (base + ·))) d

/-- Sorts a call that ends a block of an instance: it is to be spliced, too deep, or unknown. -/
def classifyCall (inl : Inliner) (m : MethodId) (depth block : Nat) (c : Call) (st : Inlining) :
    Except Fault (Option PendingCall × Inlining) := do
  match ← inl.target c with
  | some callee =>
    if depth < inl.maxDepth then
      return (some ⟨block, m, c, callee, depth + 1⟩, st)
    else
      let name := (← inl.program.method callee).qualifiedName
      return (none, { st with
        stats := { st.stats with truncated := st.stats.truncated + 1 }
        events := st.events.push (.depthReached inl.maxDepth name) })
  | none =>
    return (none, { st with
      stats := { st.stats with unresolved := st.stats.unresolved + 1 }
      unresolved := st.unresolved.insert c.callee.qualifiedName })

def classifyCalls (inl : Inliner) (m : MethodId) (depth base : Nat) :
    List (LocalBlock × Nat) → Inlining → Except Fault (List PendingCall × Inlining)
  | [], st => return ([], st)
  | (b, i) :: bs, st => do
    match b.call with
    | none => inl.classifyCalls m depth base bs st
    | some (_, c) =>
      let (call?, st) ← inl.classifyCall m depth (base + i) c st
      let (calls, st) ← inl.classifyCalls m depth base bs st
      return (call?.toList ++ calls, st)

def instantiate (inl : Inliner) (m : MethodId) (receiver : Option Var) (depth : Nat)
    (st : Inlining) : Except Fault (Instance × Inlining) := do
  let method ← inl.program.method m
  let (blocks, table) := methodBlocks inl.hooks m method.stmts receiver st.table
  let malformed := (malformedTests inl.hooks method.stmts).map fun i =>
    Event.malformedTest s!"{method.qualifiedName}:{i}"
  let base := st.draft.size
  let st := { st with
    draft := addBlocks m depth blocks st.draft
    table
    methods := st.methods.insert m
    stats := { st.stats with
      instances := st.stats.instances + 1
      maxDepth := max st.stats.maxDepth depth }
    events := st.events ++ malformed }
  let (calls, st) ← inl.classifyCalls m depth base blocks.zipIdx st
  return (⟨base, (exitsOf blocks).map (base + ·), calls⟩, st)

/-- The pairs of formal and actual variables of a call: arguments in order, then the receiver.
Constant arguments bind nothing. -/
def bindings (caller : MethodId) (c : Call) (callee : MethodId) (method : Method) :
    List (Var × Var) :=
  let args := (c.args.zip method.params).filterMap fun (arg, param) =>
    arg.slot?.map fun a => (⟨callee, param⟩, ⟨caller, a⟩)
  let this := (c.base.bind fun b => method.this.map fun t =>
    ((⟨callee, t⟩, ⟨caller, b⟩) : Var × Var)).toList
  args ++ this

/-- Numbers pairs of variables, the second of each pair first. -/
def numberPairs (t : PointerTable) : List (Var × Var) → List (Nat × Nat) × PointerTable
  | [] => ([], t)
  | (formal, actual) :: pairs =>
    let (a, t) := t.intern (.var actual)
    let (f, t) := t.intern (.var formal)
    let (rest, t) := numberPairs t pairs
    ((f, a) :: rest, t)

def internReceiver (t : PointerTable) : Option Var → Option Nat × PointerTable
  | none => (none, t)
  | some r =>
    let (id, t) := t.intern (.var r)
    (some id, t)

/-- Copies from actuals to formals. -/
def bindCopies (pairs : List (Nat × Nat)) : List Copy :=
  pairs.map fun (formal, actual) => ⟨formal, actual, .call⟩

/-- Copies from formals back to actuals. The variable that takes the result is left out, since
the return statements of the callee assign it. -/
def writeBackCopies (receiver : Option Nat) (pairs : List (Nat × Nat)) : List Copy :=
  (pairs.filter fun (_, actual) => some actual ≠ receiver).map fun (formal, actual) =>
    ⟨actual, formal, .call⟩

/-- Puts the blocks around an instance and leads control through it. -/
def wire (d : Draft) (p : PendingCall) (inst : Instance) (bind writeBack : List Copy) : Draft :=
  let enter := d.size
  let leave := enter + 1
  let d := d.addBlock (.enter p.callee p.depth) bind none
  let d := d.addBlock (.leave p.callee p.depth) writeBack none
  let continuation := d.successors p.block
  let d := (d.unlink p.block).link p.block enter
  let d := d.link enter inst.entry
  let d := inst.exits.foldl (fun d e => d.link e leave) d
  d.linkAll leave continuation

/-- Replaces a call by an instance of its callee. -/
def splice (inl : Inliner) (p : PendingCall) (st : Inlining) :
    Except Fault (Instance × Inlining) := do
  let receiver := p.call.result.map fun r => (⟨p.caller, r⟩ : Var)
  let (receiverId, table) := internReceiver st.table receiver
  let (inst, st) ← inl.instantiate p.callee receiver p.depth { st with table }
  let method ← inl.program.method p.callee
  let (pairs, table) := numberPairs st.table (bindings p.caller p.call p.callee method)
  return (inst, { st with
    draft := wire st.draft p inst (bindCopies pairs) (writeBackCopies receiverId pairs)
    table
    stats := { st.stats with spliced := st.stats.spliced + 1 } })

/-- Splices calls, the last one first, each with the calls of its callee right after it. The
calls lie at most `levels` above the depth limit. -/
def expand (inl : Inliner) : Nat → List PendingCall → Inlining → Except Fault Inlining
  | 0, _, st => .ok st
  | levels + 1, calls, st =>
    calls.reverse.foldlM (fun st p => do
      let (inst, st) ← inl.splice p st
      inl.expand levels inst.calls st) st

end Inliner

structure Inlined where
  draft : Draft
  entry : Nat
  table : PointerTable
  methods : OrderedSet MethodId
  unresolved : OrderedSet String
  stats : InlineStats
  events : List Event

/-- Inlines all that the entry method reaches. Without statements there is nothing to inline. -/
def Inliner.run (inl : Inliner) (entry : MethodId) : Except Fault (Option Inlined) := do
  if (← inl.program.method entry).stmts.isEmpty then return none
  let (root, st) ← inl.instantiate entry none 0 (.start ∅)
  let st ← inl.expand inl.maxDepth root.calls st
  let summary := Event.inlined st.stats.instances st.methods.size st.draft.size
    st.stats.truncated st.stats.unresolved
  return some ⟨st.draft, root.entry, st.table, st.methods, st.unresolved, st.stats,
    st.events.toList ++ [summary]⟩

end PointsTo
