import PointsTo.Proofs.Graph
import PointsTo.Proofs.Moves
import PointsTo.Proofs.Numbering

/-! A stack machine over the blocks of single methods. A call binds its arguments, pushes its
site and enters the callee; after a block without successors the machine pops a site, writes back,
and goes on behind the call. Pointers are numbered by one fixed table. -/
namespace PointsTo

structure Activation where
  method : MethodId
  receiver : Option Var
  block : Nat
  deriving DecidableEq, Repr

/-- Where the machine is. The callers are the sites it comes back to, the latest first. -/
inductive Point where
  | block (current : Activation) (callers : List Activation)
  | enter (site : Activation) (callers : List Activation)
  | leave (site : Activation) (callers : List Activation)
  deriving DecidableEq, Repr

namespace Point

def callers : Point → List Activation
  | block _ cs | enter _ cs | leave _ cs => cs

def sites : Point → List Activation
  | block _ cs => cs
  | enter s cs | leave s cs => s :: cs

def Within (site : Activation) (callers : List Activation) (p : Point) : Prop :=
  (site :: callers) <:+ p.callers

instance (site : Activation) (callers : List Activation) (p : Point) :
    Decidable (p.Within site callers) :=
  inferInstanceAs (Decidable (_ <:+ _))

end Point

namespace Inliner

variable (inl : Inliner) (t : PointerTable)

def stmtsOf (m : MethodId) : List Stmt := (inl.program.method? m).elim [] (·.stmts)

def blocksOf (m : MethodId) (receiver : Option Var) : List LocalBlock :=
  (methodBlocks inl.hooks m (inl.stmtsOf m) receiver t).1

def blockAt (a : Activation) : Option LocalBlock := (inl.blocksOf t a.method a.receiver)[a.block]?

def callee? (c : Call) : Option MethodId :=
  (inl.resolver inl.program c.callee).filter fun id => (inl.program.method? id).any Method.hasBody

def callAt (a : Activation) : Option Call := (inl.blockAt t a).bind fun b => b.call.map (·.2)

/-- The call that the machine follows, with its callee: there is one, and the depth allows it. -/
def entered (a : Activation) (callers : List Activation) : Option (Call × MethodId) := do
  let c ← inl.callAt t a
  let callee ← inl.callee? c
  if callers.length < inl.maxDepth then some (c, callee) else none

/-- What the parameters of a callee get, in order: a variable is passed on, a constant is not. -/
def passedArgs (caller callee : MethodId) : List Operand → List Slot → List (Var × Var)
  | .var a :: args, x :: params =>
    (⟨callee, x⟩, ⟨caller, a⟩) :: passedArgs caller callee args params
  | .const _ :: args, _ :: params => passedArgs caller callee args params
  | _, _ => []

/-- The formals that a call sets, each with its actual. The base of the call comes last. -/
def passed (caller : MethodId) (c : Call) (callee : MethodId) (method : Method) :
    List (Var × Var) :=
  match c.base, method.this with
  | some b, some x => passedArgs caller callee c.args method.params ++ [(⟨callee, x⟩, ⟨caller, b⟩)]
  | _, _ => passedArgs caller callee c.args method.params

def passedTo (caller : MethodId) (c : Call) (callee : MethodId) : List (Var × Var) :=
  (inl.program.method? callee).elim [] (passed caller c callee)

def receiverOf (caller : MethodId) (c : Call) : Option Var := c.result.map (⟨caller, ·⟩)

/-- What actuals get back from their formals: all but the one that takes the result. -/
def writtenBack (receiver : Option Var) (vars : List (Var × Var)) : List (Var × Var) :=
  (vars.filter fun v => some v.2 ≠ receiver).map Prod.swap

def callCopies (moves : List (Var × Var)) : List Copy :=
  moves.map fun (target, source) => ⟨t.numberOf (.var target), t.numberOf (.var source), .call⟩

def succsAt (a : Activation) : List Nat := (inl.blockAt t a).elim [] (·.succs.toList)

def afterwards (a : Activation) (callers : List Activation) : List Point :=
  match inl.succsAt t a, callers with
  | [], [] => []
  | [], site :: callers => [.leave site callers]
  | js, callers => js.map fun j => .block { a with block := j } callers

def next : Point → List Point
  | .block a cs => if (inl.entered t a cs).isSome then [.enter a cs] else inl.afterwards t a cs
  | .enter a cs => (inl.entered t a cs).toList.map fun (c, callee) =>
      .block ⟨callee, receiverOf a.method c, 0⟩ (a :: cs)
  | .leave a cs => inl.afterwards t a cs

/-- The block of a graph that stands for a point. -/
def blockFor (id : Nat) : Point → Option Block
  | .block a cs => (inl.blockAt t a).map fun b =>
      ⟨id, .body a.method b.first b.last cs.length, b.copies, b.mark⟩
  | .enter a cs => (inl.entered t a cs).map fun (c, callee) =>
      ⟨id, .enter callee (cs.length + 1), callCopies t (inl.passedTo a.method c callee), none⟩
  | .leave a cs => (inl.entered t a cs).map fun (c, callee) =>
      ⟨id, .leave callee (cs.length + 1),
        callCopies t (writtenBack (receiverOf a.method c) (inl.passedTo a.method c callee)), none⟩

def copiesAt (p : Point) : List Copy := (inl.blockFor t 0 p).elim [] (·.copies)

def startPoint (entry : MethodId) : Point := .block ⟨entry, none, 0⟩ []

def Run (entry : MethodId) : List Point → Point → Prop :=
  Path (fun p q => q ∈ inl.next t p) (startPoint entry)

def Numbered : Point → Prop
  | .block a _ => (methodBlocks inl.hooks a.method (inl.stmtsOf a.method) a.receiver t).2 = t
  | .enter a cs | .leave a cs => ∀ c callee, inl.entered t a cs = some (c, callee) →
      (∀ r ∈ receiverOf a.method c, .var r ∈ t.pointers) ∧
        ∀ v ∈ inl.passedTo a.method c callee, .var v.1 ∈ t.pointers ∧ .var v.2 ∈ t.pointers

variable {inl t}

theorem stmtsOf_eq {m : MethodId} {method : Method} (hm : inl.program.method? m = some method) :
    inl.stmtsOf m = method.stmts := by
  rw [stmtsOf, hm]
  rfl

theorem method_of_stmt {m : MethodId} {s : Stmt} (hs : s ∈ inl.stmtsOf m) :
    ∃ method, inl.program.method? m = some method ∧ inl.stmtsOf m = method.stmts := by
  cases hm : inl.program.method? m with
  | none =>
    rw [stmtsOf, hm] at hs
    cases hs
  | some method => exact ⟨method, rfl, stmtsOf_eq hm⟩

theorem copies_eq_copiesAt {id : Nat} {p : Point} {b : Block}
    (h : inl.blockFor t id p = some b) : b.copies = inl.copiesAt t p := by
  unfold copiesAt
  cases p <;> · obtain ⟨x, hx, rfl⟩ := Option.map_eq_some_iff.1 h; simp [blockFor, hx]

theorem blockFor_id {id : Nat} {p : Point} {b : Block} (h : inl.blockFor t id p = some b) :
    b.id = id := by
  cases p <;> · obtain ⟨x, hx, rfl⟩ := Option.map_eq_some_iff.1 h; rfl

theorem entered_eq_some {a : Activation} {cs : List Activation} {c : Call} {callee : MethodId} :
    inl.entered t a cs = some (c, callee) ↔
      inl.callAt t a = some c ∧ inl.callee? c = some callee ∧ cs.length < inl.maxDepth := by
  unfold entered
  simp only [Option.bind_eq_bind, Option.bind_eq_some_iff]
  constructor
  · rintro ⟨c', hc, m, hm, hs⟩
    split at hs
    · next hd =>
      cases hs
      exact ⟨hc, hm, hd⟩
    · cases hs
  · rintro ⟨hc, hm, hd⟩
    exact ⟨c, hc, callee, hm, by rw [if_pos hd]⟩

theorem callee?_eq_some {c : Call} {callee : MethodId} : inl.callee? c = some callee ↔
    inl.resolver inl.program c.callee = some callee ∧
      ∃ method, inl.program.method? callee = some method ∧ method.hasBody = true := by
  simp [callee?, Option.filter_eq_some_iff, Option.any_eq_true]

theorem method_of_entered {a : Activation} {cs : List Activation} {c : Call} {callee : MethodId}
    (h : inl.entered t a cs = some (c, callee)) :
    ∃ method, inl.program.method? callee = some method ∧ method.hasBody = true :=
  (callee?_eq_some.1 (entered_eq_some.1 h).2.1).2

/-- What follows a block is in the same instance, or it is the way out of the instance. -/
theorem mem_afterwards {a : Activation} {cs : List Activation} {q : Point} :
    q ∈ inl.afterwards t a cs ↔ (∃ j ∈ inl.succsAt t a, q = .block { a with block := j } cs) ∨
      (inl.succsAt t a = [] ∧ ∃ s cs', cs = s :: cs' ∧ q = .leave s cs') := by
  unfold afterwards
  cases hs : inl.succsAt t a with
  | nil =>
    cases cs with
    | nil => simp
    | cons s cs => simp only [List.mem_singleton, List.cons.injEq]; grind
  | cons j js => simp [eq_comm]

section Calls

variable {c : Call} {caller callee : MethodId} {method : Method} {vars : List (Var × Var)}

theorem passedTo_eq (hm : inl.program.method? callee = some method) :
    inl.passedTo caller c callee = passed caller c callee method := by
  rw [passedTo, hm, Option.elim_some]

theorem passedArgs_eq (args : List Operand) (params : List Slot) :
    passedArgs caller callee args params = (args.zip params).filterMap fun (arg, param) =>
      arg.slot?.map fun a => (⟨callee, param⟩, ⟨caller, a⟩) := by
  induction args generalizing params with
  | nil => rfl
  | cons arg args ih =>
    cases params with
    | nil => cases arg <;> rfl
    | cons x params =>
      cases arg with
      | var a => exact congrArg (_ :: ·) (ih params)
      | const k => exact ih params

/-- What is bound is what is passed. -/
theorem bindings_eq (caller : MethodId) (c : Call) (callee : MethodId) (method : Method) :
    bindings caller c callee method = passed caller c callee method := by
  rw [bindings, ← passedArgs_eq, passed]
  cases c.base with
  | none => exact List.append_nil _
  | some b =>
    cases method.this with
    | none => exact List.append_nil _
    | some x => rfl

theorem names_callCopies {T : PointerTable} (hle : t ≤ T)
    (h : ∀ v ∈ vars, .var v.1 ∈ t.pointers ∧ .var v.2 ∈ t.pointers) :
    List.Forall₂ (Copy.Names T) (callCopies t vars) (Pointer.ofVars vars) := by
  rw [callCopies, Pointer.ofVars, List.forall₂_map_left_iff, List.forall₂_map_right_iff,
    List.forall₂_same]
  intro v hv
  exact ⟨PointerTable.get?_of_le hle (PointerTable.get?_numberOf (h v hv).1),
    PointerTable.get?_of_le hle (PointerTable.get?_numberOf (h v hv).2)⟩

theorem mem_pointers_of_fixed (h : (numberPairs t vars).2 = t) {v : Var × Var} (hv : v ∈ vars) :
    .var v.1 ∈ t.pointers ∧ .var v.2 ∈ t.pointers := by
  obtain ⟨i, hi, rfl⟩ := List.getElem_of_mem hv
  have hall := List.forall₂_iff_get.1 (numberPairs_fixed h)
  have hnames := hall.2 i (hall.1 ▸ hi) hi
  exact ⟨PointerTable.mem_of_get? hnames.1, PointerTable.mem_of_get? hnames.2⟩

theorem receiver_mem_of_fixed {receiver : Option Var} (hr : (internReceiver t receiver).2 = t) :
    ∀ r ∈ receiver, .var r ∈ t.pointers := by
  rintro r rfl
  obtain ⟨n, -, hget⟩ := internReceiver_fixed hr
  exact PointerTable.mem_of_get? hget

theorem numberPairs_eq (h : (numberPairs t vars).2 = t) : (numberPairs t vars).1 =
    vars.map fun v => (t.numberOf (.var v.1), t.numberOf (.var v.2)) := by
  have hnumbers := numberPairs_fixed h
  generalize (numberPairs t vars).1 = nums at hnumbers
  clear h
  induction hnumbers with
  | nil => rfl
  | @cons n v ns vs hnv _ ih =>
    rw [List.map_cons, PointerTable.numberOf_eq hnv.1, PointerTable.numberOf_eq hnv.2, ← ih]

theorem bindCopies_fixed (h : (numberPairs t vars).2 = t) :
    bindCopies (numberPairs t vars).1 = callCopies t vars := by
  rw [numberPairs_eq h, bindCopies, List.map_map]
  rfl

theorem writeBackCopies_fixed {receiver : Option Var} (h : (numberPairs t vars).2 = t)
    (hr : (internReceiver t receiver).2 = t) :
    writeBackCopies (internReceiver t receiver).1 (numberPairs t vars).1 =
      callCopies t (writtenBack receiver vars) := by
  have hkeep : ∀ v ∈ vars,
      (some (t.numberOf (.var v.2)) = (internReceiver t receiver).1 ↔ some v.2 = receiver) := by
    intro v hv
    have hactual := PointerTable.get?_numberOf (mem_pointers_of_fixed h hv).2
    cases receiver with
    | none => simp [internReceiver]
    | some r =>
      obtain ⟨k, hk, hget⟩ := internReceiver_fixed hr
      rw [hk, Option.some_inj, Option.some_inj]
      constructor
      · rintro rfl
        exact Pointer.var.inj (Option.some.inj (hactual.symm.trans hget))
      · rintro rfl
        exact PointerTable.numberOf_eq hget
  rw [numberPairs_eq h, writeBackCopies, callCopies, writtenBack, List.filter_map, List.map_map,
    List.map_map]
  refine congrArg (List.map _) (List.filter_congr fun v hv => ?_)
  exact decide_eq_decide.2 (not_congr (hkeep v hv))

end Calls

variable {site a : Activation} {callers cs : List Activation} {p q : Point}

/-- Only the block behind a call leads out of what the call runs. -/
theorem leave_of_not_within (hq : q ∈ inl.next t p) (hp : p.Within site callers)
    (hout : ¬ q.Within site callers) : q = .leave site callers := by
  have hafter : ∀ a cs, (site :: callers) <:+ cs → q ∈ inl.afterwards t a cs →
      q = .leave site callers := by
    intro a cs hcs hmem
    rcases mem_afterwards.1 hmem with ⟨j, -, rfl⟩ | ⟨-, s, cs', rfl, rfl⟩
    · exact absurd hcs hout
    · rcases List.suffix_cons_iff.1 hcs with heq | hsuffix
      · cases heq
        rfl
      · exact absurd hsuffix hout
  cases p with
  | block a cs =>
    rw [next] at hq
    split at hq
    · obtain rfl := List.mem_singleton.1 hq
      exact absurd hp hout
    · exact hafter a cs hp hq
  | enter a cs =>
    obtain ⟨⟨c, callee⟩, -, rfl⟩ := List.mem_map.1 hq
    exact absurd (List.IsSuffix.trans hp (List.suffix_cons a cs)) hout
  | leave a cs => exact hafter a cs hp hq

/-- Only the block before a call leads into what the call runs. -/
theorem enter_of_within (hq : q ∈ inl.next t p) (hp : ¬ p.Within site callers)
    (hin : q.Within site callers) : p = .enter site callers := by
  have hafter : ∀ a cs, ¬ (site :: callers) <:+ cs → ¬ q ∈ inl.afterwards t a cs := by
    intro a cs hcs hmem
    rcases mem_afterwards.1 hmem with ⟨j, -, rfl⟩ | ⟨-, s, cs', rfl, rfl⟩
    · exact hcs hin
    · exact hcs (List.IsSuffix.trans hin (List.suffix_cons s cs'))
  cases p with
  | block a cs =>
    rw [next] at hq
    split at hq
    · obtain rfl := List.mem_singleton.1 hq
      exact absurd hin hp
    · exact absurd hq (hafter a cs hp)
  | enter a cs =>
    obtain ⟨⟨c, callee⟩, -, rfl⟩ := List.mem_map.1 hq
    rcases List.suffix_cons_iff.1 hin with heq | hsuffix
    · cases heq
      rfl
    · exact absurd hsuffix hp
  | leave a cs => exact absurd hq (hafter a cs hp)

end Inliner

end PointsTo
