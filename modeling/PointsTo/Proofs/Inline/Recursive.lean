import Mathlib.Algebra.BigOperators.Group.List.Basic
import PointsTo.Proofs.Inline.Bindings
import PointsTo.Proofs.Inline.Layout
import PointsTo.Proofs.NamedBlocks

/-! The inlined graph by recursion over calls: the graph of a callee is complete before it is put
into the graph of its caller. Blocks are named by points and copy between named pointers, so neither
the order of the blocks nor a table of pointers plays a part. -/
namespace PointsTo

structure Node where
  kind : BlockKind
  origin : Origin
  copies : List (Pointer × Pointer)
  mark : Option (Int × Pointer)

namespace InlineStats

instance : Zero InlineStats := ⟨⟨0, 0, 0, 0, 0⟩⟩

/-- Parts of a graph are counted together. The greatest depth is the depth of one of them. -/
instance : Add InlineStats where
  add s s' := ⟨s.instances + s'.instances, s.spliced + s'.spliced, s.truncated + s'.truncated,
    s.unresolved + s'.unresolved, max s.maxDepth s'.maxDepth⟩

theorem add_eq (s s' : InlineStats) : s + s' = ⟨s.instances + s'.instances, s.spliced + s'.spliced,
    s.truncated + s'.truncated, s.unresolved + s'.unresolved, max s.maxDepth s'.maxDepth⟩ := rfl

theorem zero_eq : (0 : InlineStats) = ⟨0, 0, 0, 0, 0⟩ := rfl

instance : AddCommMonoid InlineStats where
  add_assoc s s' s'' := by simp only [add_eq, Nat.add_assoc, Nat.max_assoc]
  zero_add s := by simp [add_eq, zero_eq]
  add_zero s := by simp [add_eq, zero_eq]
  add_comm s s' := by simp only [add_eq, Nat.add_comm, Nat.max_comm]
  nsmul := nsmulRec

end InlineStats

/-- A graph with the methods that have instances in it, the names of the call targets that were not
found, and its counters. -/
structure Fragment where
  nodes : List (Point × Node)
  edges : List (Point × Point)
  /-- The blocks after which control leaves the graph. -/
  exits : List Point
  methods : List MethodId
  unresolved : List String
  stats : InlineStats

namespace Fragment

def places (f : Fragment) : List Point := f.nodes.map Prod.fst

def empty : Fragment := ⟨[], [], [], [], [], 0⟩

instance : EmptyCollection Fragment := ⟨empty⟩

instance : Append Fragment where
  append f g := ⟨f.nodes ++ g.nodes, f.edges ++ g.edges, f.exits ++ g.exits,
    f.methods ++ g.methods, f.unresolved ++ g.unresolved, f.stats + g.stats⟩

def join (fs : List Fragment) : Fragment := fs.foldr (· ++ ·) ∅

section Parts

variable (f g : Fragment) (fs : List Fragment)

@[simp] theorem nodes_append : (f ++ g).nodes = f.nodes ++ g.nodes := rfl

@[simp] theorem edges_append : (f ++ g).edges = f.edges ++ g.edges := rfl

@[simp] theorem exits_append : (f ++ g).exits = f.exits ++ g.exits := rfl

@[simp] theorem methods_append : (f ++ g).methods = f.methods ++ g.methods := rfl

@[simp] theorem unresolved_append : (f ++ g).unresolved = f.unresolved ++ g.unresolved := rfl

@[simp] theorem stats_append : (f ++ g).stats = f.stats + g.stats := rfl

@[simp] theorem places_append : (f ++ g).places = f.places ++ g.places := List.map_append

@[simp] theorem nodes_join : (join fs).nodes = fs.flatMap (·.nodes) := by
  induction fs with
  | nil => rfl
  | cons f fs ih => exact congrArg (f.nodes ++ ·) ih

@[simp] theorem edges_join : (join fs).edges = fs.flatMap (·.edges) := by
  induction fs with
  | nil => rfl
  | cons f fs ih => exact congrArg (f.edges ++ ·) ih

@[simp] theorem exits_join : (join fs).exits = fs.flatMap (·.exits) := by
  induction fs with
  | nil => rfl
  | cons f fs ih => exact congrArg (f.exits ++ ·) ih

@[simp] theorem methods_join : (join fs).methods = fs.flatMap (·.methods) := by
  induction fs with
  | nil => rfl
  | cons f fs ih => exact congrArg (f.methods ++ ·) ih

@[simp] theorem unresolved_join : (join fs).unresolved = fs.flatMap (·.unresolved) := by
  induction fs with
  | nil => rfl
  | cons f fs ih => exact congrArg (f.unresolved ++ ·) ih

@[simp] theorem stats_join : (join fs).stats = (fs.map (·.stats)).sum := by
  induction fs with
  | nil => rfl
  | cons f fs ih => exact congrArg (f.stats + ·) ih

theorem empty_append : ∅ ++ f = f := by
  change Fragment.mk f.nodes f.edges f.exits f.methods f.unresolved (0 + f.stats) = f
  rw [zero_add]

theorem append_assoc (h : Fragment) : f ++ g ++ h = f ++ (g ++ h) := by
  change Fragment.mk _ _ _ _ _ _ = Fragment.mk _ _ _ _ _ _
  simp only [nodes_append, edges_append, exits_append, methods_append, unresolved_append,
    stats_append, List.append_assoc, add_assoc]

theorem join_append (gs : List Fragment) : join (fs ++ gs) = join fs ++ join gs := by
  induction fs with
  | nil => exact (empty_append _).symm
  | cons f fs ih => exact (congrArg (f ++ ·) ih).trans (append_assoc f _ _).symm

@[simp] theorem places_join : (join fs).places = fs.flatMap (·.places) := by
  rw [places, nodes_join, List.map_flatMap]
  rfl

end Parts

end Fragment

namespace Inliner

variable (inl : Inliner)

def namedBlocksOf (m : MethodId) (receiver : Option Var) : List NamedBlock :=
  namedBlocks inl.hooks m (inl.stmtsOf m) receiver

def namedAt (a : Activation) : Option NamedBlock :=
  (inl.namedBlocksOf a.method a.receiver)[a.block]?

def activations (m : MethodId) (receiver : Option Var) : List Activation :=
  (List.range (inl.namedBlocksOf m receiver).length).map (⟨m, receiver, ·⟩)

def resolved (a : Activation) : Option (Call × MethodId) := do
  let c ← (← inl.namedAt a).call
  let callee ← inl.callee? c
  return (c, callee)

def followed (a : Activation) (callers : List Activation) : Option (Call × MethodId) :=
  if callers.length < inl.maxDepth then inl.resolved a else none

def following (a : Activation) (callers : List Activation) : List Point :=
  (inl.namedAt a).elim [] fun b => b.succs.toList.map fun j => .block { a with block := j } callers

def onward (a : Activation) (callers : List Activation) : List Point :=
  if (inl.followed a callers).isSome then [.enter a callers] else inl.following a callers

def callsOf (m : MethodId) (receiver : Option Var) : List Call :=
  (inl.namedBlocksOf m receiver).filterMap (·.call)

def unknownCalls (calls : List Call) : List Call :=
  calls.filter fun c => (inl.callee? c).isNone

def deepCalls (depth : Nat) (calls : List Call) : List Call :=
  if depth < inl.maxDepth then [] else calls.filter fun c => (inl.callee? c).isSome

/-- One instance of a method, without what its calls run. -/
def alone (m : MethodId) (receiver : Option Var) (callers : List Activation) : Fragment where
  nodes := (inl.namedBlocksOf m receiver).zipIdx.map fun (b, i) => (.block ⟨m, receiver, i⟩ callers,
    ⟨.body m b.first b.last callers.length, .statement, b.copies, b.mark⟩)
  edges := (inl.activations m receiver).flatMap fun a =>
    (inl.onward a callers).map (.block a callers, ·)
  exits := ((inl.activations m receiver).filter fun a => (inl.onward a callers).isEmpty).map
    (.block · callers)
  methods := [m]
  unresolved := (inl.unknownCalls (inl.callsOf m receiver)).map (·.callee.qualifiedName)
  stats := ⟨1, 0, (inl.deepCalls callers.length (inl.callsOf m receiver)).length,
    (inl.unknownCalls (inl.callsOf m receiver)).length, callers.length⟩

/-- The graph of a callee between the two blocks of its call. Behind them control goes on where the
block of the call would have gone on. -/
def around (a : Activation) (callers : List Activation) (c : Call) (callee : MethodId)
    (f : Fragment) : Fragment where
  nodes :=
    (.enter a callers, ⟨.enter callee (callers.length + 1), .call,
      Pointer.ofVars (inl.passedTo a.method c callee), none⟩) ::
    (.leave a callers, ⟨.leave callee (callers.length + 1), .call,
      Pointer.ofVars (writtenBack (receiverOf a.method c) (inl.passedTo a.method c callee)),
      none⟩) :: f.nodes
  edges :=
    (.enter a callers, .block ⟨callee, receiverOf a.method c, 0⟩ (a :: callers)) ::
      (f.edges ++ f.exits.map (·, .leave a callers) ++
        (inl.following a callers).map (.leave a callers, ·))
  exits := if (inl.following a callers).isEmpty then [.leave a callers] else []
  methods := f.methods
  unresolved := f.unresolved
  stats := f.stats + ⟨0, 1, 0, 0, 0⟩

def resolvedCalls (m : MethodId) (receiver : Option Var) : List (Activation × Call × MethodId) :=
  (inl.activations m receiver).filterMap fun a => (inl.resolved a).map (a, ·)

/-- The graph of a method whose result goes to `receiver`, called from the given sites. At the depth
limit its calls are not followed. -/
def graphOf (m : MethodId) (receiver : Option Var) (callers : List Activation) : Fragment :=
  inl.alone m receiver callers ++
    if callers.length < inl.maxDepth then
      .join ((inl.resolvedCalls m receiver).map fun (a, c, callee) =>
        inl.around a callers c callee (graphOf callee (receiverOf m c) (a :: callers)))
    else ∅
termination_by inl.maxDepth - callers.length


variable {inl} {m : MethodId} {receiver : Option Var} {callers : List Activation} {a : Activation}
  {c : Call} {callee : MethodId} {p q : Point} {t : PointerTable}

def followedCalls (inl : Inliner) (m : MethodId) (receiver : Option Var)
    (callers : List Activation) : List (Activation × Call × MethodId) :=
  (inl.activations m receiver).filterMap fun a => (inl.followed a callers).map (a, ·)

def part (inl : Inliner) (callers : List Activation) (f : Activation × Call × MethodId) :
    Fragment :=
  inl.around f.1 callers f.2.1 f.2.2
    (inl.graphOf f.2.2 (receiverOf f.1.method f.2.1) (f.1 :: callers))

theorem mem_activations : a ∈ inl.activations m receiver ↔
    a.method = m ∧ a.receiver = receiver ∧ a.block < (inl.namedBlocksOf m receiver).length := by
  rw [activations, List.mem_map]
  constructor
  · rintro ⟨i, hi, rfl⟩
    exact ⟨rfl, rfl, List.mem_range.1 hi⟩
  · rintro ⟨rfl, rfl, hi⟩
    exact ⟨a.block, List.mem_range.2 hi, rfl⟩

theorem mem_followedCalls : (a, c, callee) ∈ inl.followedCalls m receiver callers ↔
    a ∈ inl.activations m receiver ∧ inl.followed a callers = some (c, callee) := by
  simp [followedCalls]

theorem graphOf_eq : inl.graphOf m receiver callers = inl.alone m receiver callers ++
    .join ((inl.followedCalls m receiver callers).map (inl.part callers)) := by
  rw [graphOf]
  congr 1
  by_cases hd : callers.length < inl.maxDepth
  · have hcalls : inl.followedCalls m receiver callers = inl.resolvedCalls m receiver := by
      simp only [followedCalls, resolvedCalls, followed, if_pos hd]
    rw [if_pos hd, hcalls]
    congr 1
    refine List.map_congr_left fun f hf => ?_
    obtain ⟨a, ha, hf⟩ := List.mem_filterMap.1 hf
    obtain ⟨found, -, rfl⟩ := Option.map_eq_some_iff.1 hf
    obtain ⟨rfl, -⟩ := mem_activations.1 ha
    rfl
  · have hcalls : inl.followedCalls m receiver callers = [] := by
      simp [followedCalls, followed, if_neg hd]
    rw [if_neg hd, hcalls]
    rfl

theorem places_alone : (inl.alone m receiver callers).places =
    instancePoints m receiver (inl.namedBlocksOf m receiver).length callers := by
  have hpos : (inl.namedBlocksOf m receiver).zipIdx.map Prod.snd =
      List.range (inl.namedBlocksOf m receiver).length := by
    rw [List.zipIdx_map_snd, List.range_eq_range']
  rw [Fragment.places, alone, List.map_map, instancePoints, ← hpos, List.map_map]
  rfl

theorem places_around (f : Fragment) : (inl.around a callers c callee f).places =
    .enter a callers :: .leave a callers :: f.places := rfl

theorem block_mem_places (ha : a ∈ inl.activations m receiver) :
    .block a callers ∈ (inl.graphOf m receiver callers).places := by
  obtain ⟨rfl, rfl, hi⟩ := mem_activations.1 ha
  rw [graphOf_eq, Fragment.places_append, places_alone]
  exact List.mem_append_left _ (mem_instancePoints.2 ⟨a.block, hi, rfl⟩)

/-- The blocks of an instance, and for each of its calls that are followed the two blocks of the
call and the blocks of the callee. -/
theorem mem_places_graphOf : p ∈ (inl.graphOf m receiver callers).places ↔
    (∃ a ∈ inl.activations m receiver, p = .block a callers) ∨
      ∃ a c callee, (a, c, callee) ∈ inl.followedCalls m receiver callers ∧
        (p = .enter a callers ∨ p = .leave a callers ∨
          p ∈ (inl.graphOf callee (receiverOf m c) (a :: callers)).places) := by
  have hblocks : p ∈ (inl.alone m receiver callers).places ↔
      ∃ a ∈ inl.activations m receiver, p = .block a callers := by
    rw [places_alone, mem_instancePoints]
    simp [activations]
  rw [graphOf_eq, Fragment.places_append, List.mem_append, hblocks, Fragment.places_join,
    List.mem_flatMap]
  refine or_congr_right ?_
  constructor
  · rintro ⟨f, hf, hp⟩
    obtain ⟨⟨a, c, callee⟩, hcall, rfl⟩ := List.mem_map.1 hf
    obtain ⟨rfl, -⟩ := mem_activations.1 (mem_followedCalls.1 hcall).1
    exact ⟨a, c, callee, hcall, by simpa [part, places_around] using hp⟩
  · rintro ⟨a, c, callee, hcall, hp⟩
    obtain ⟨rfl, -⟩ := mem_activations.1 (mem_followedCalls.1 hcall).1
    exact ⟨_, List.mem_map.2 ⟨_, hcall, rfl⟩, by simpa [part, places_around] using hp⟩

/-- Induction over the calls that are followed. -/
theorem graphOf_induction {motive : MethodId → Option Var → List Activation → Prop}
    (step : ∀ m receiver callers, (∀ a c callee,
      (a, c, callee) ∈ inl.followedCalls m receiver callers →
        motive callee (receiverOf m c) (a :: callers)) → motive m receiver callers)
    (m : MethodId) (receiver : Option Var) (callers : List Activation) :
    motive m receiver callers := by
  induction m, receiver, callers using @graphOf.induct inl with
  | case1 m receiver callers ih =>
    apply step
    intro a c callee hcall
    apply ih
    by_contra hd
    have hfollowed := (mem_followedCalls.1 hcall).2
    rw [followed, if_neg hd] at hfollowed
    cases hfollowed

theorem suffix_callers_of_mem_places (hp : p ∈ (inl.graphOf m receiver callers).places) :
    callers <:+ p.callers := by
  induction m, receiver, callers using @graphOf_induction inl with
  | step m receiver callers ih =>
    rcases mem_places_graphOf.1 hp with ⟨a, -, rfl⟩ | ⟨a, c, callee, hcall, rfl | rfl | hp⟩
    · exact List.suffix_refl _
    · exact List.suffix_refl _
    · exact List.suffix_refl _
    · exact List.IsSuffix.trans (List.suffix_cons a callers) (ih a c callee hcall hp)

end Inliner

end PointsTo
