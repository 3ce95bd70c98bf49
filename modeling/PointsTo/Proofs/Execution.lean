import PointsTo.Proofs.Inline.Bindings

/-! Concrete executions with calls by value. Every call has a frame with locals of its own, and a
return gives the caller nothing but the result. Fields are left out. -/
namespace PointsTo

/-- An object, known by the statement that created it. -/
structure Object where
  method : MethodId
  stmt : Nat
  deriving DecidableEq, Repr

abbrev Locals := Slot → Option Object

namespace Locals

def empty : Locals := fun _ => none

def set (ρ : Locals) (x : Slot) (value : Option Object) : Locals :=
  fun y => if y = x then value else ρ y

def value (ρ : Locals) : Operand → Option Object
  | .var x => ρ x
  | .const _ => none

def ofCall (ρ : Locals) (c : Call) (callee : Method) : Locals :=
  let args := (c.args.zip callee.params).foldl (fun σ (arg, x) => σ.set x (ρ.value arg)) empty
  match c.base, callee.this with
  | some b, some this => args.set this (ρ b)
  | _, _ => args

def assignResult (ρ : Locals) (c : Call) (returned : Option Object) : Locals :=
  match c.result with
  | some x => ρ.set x returned
  | none => ρ

theorem set_eq_some {ρ : Locals} {x y : Slot} {v : Option Object} {o : Object} :
    ρ.set x v y = some o ↔ (y = x ∧ v = some o) ∨ (y ≠ x ∧ ρ y = some o) := by
  rw [set]
  split <;> simp_all

theorem assignResult_apply (ρ : Locals) (c : Call) (v : Option Object) (x : Slot) :
    ρ.assignResult c v x = if c.result = some x then v else ρ x := by
  rw [assignResult]
  cases c.result with
  | none => rfl
  | some y => simp [set, eq_comm]

end Locals

structure Frame where
  method : MethodId
  /-- The next statement, or in a caller the call that is not over yet. -/
  pc : Nat
  locals : Locals

def Stmt.usesField : Stmt → Bool
  | load .. | store .. => true
  | _ => false

def Stmt.assigned? : Stmt → Option Slot
  | new x _ | copy x _ | load x _ _ => some x
  | call c => c.result
  | _ => none

def Program.KeepsFormals (p : Program) : Prop :=
  ∀ m ∈ p.methods, ∀ s ∈ m.stmts, ∀ x ∈ s.assigned?, x ∉ m.formals

instance (p : Program) : Decidable p.KeepsFormals :=
  inferInstanceAs (Decidable (∀ m ∈ p.methods, ∀ s ∈ m.stmts, ∀ x ∈ s.assigned?, x ∉ m.formals))

/-- Programs without fields, whose methods have distinct formals and end with a return or a
jump. -/
structure Program.Plain (p : Program) : Prop where
  no_fields : ∀ m ∈ p.methods, ∀ s ∈ m.stmts, s.usesField = false
  formals : ∀ m ∈ p.methods, m.formals.Nodup
  ends : ∀ m ∈ p.methods, ∀ s ∈ m.stmts.getLast?, s.fallsThrough = false

namespace Inliner

variable (inl : Inliner)

def stmtAt (f : Frame) : Option Stmt := (inl.stmtsOf f.method)[f.pc]?

/-- A statement that neither calls nor returns. Hooks do nothing, and jumps past the end lead
nowhere. -/
inductive LocalStep (f : Frame) : Frame → Prop where
  | new {x type} : inl.stmtAt f = some (.new x type) →
      LocalStep f ⟨f.method, f.pc + 1, f.locals.set x (some ⟨f.method, f.pc⟩)⟩
  | copy {x operand} : inl.stmtAt f = some (.copy x operand) →
      LocalStep f ⟨f.method, f.pc + 1, f.locals.set x (f.locals.value operand)⟩
  | hook {c} : inl.stmtAt f = some (.call c) → inl.hooks c ≠ none →
      LocalStep f ⟨f.method, f.pc + 1, f.locals⟩
  | other {text} : inl.stmtAt f = some (.other text) →
      LocalStep f ⟨f.method, f.pc + 1, f.locals⟩
  | stay {targets} : inl.stmtAt f = some (.branch targets) →
      LocalStep f ⟨f.method, f.pc + 1, f.locals⟩
  | jump {s target} : inl.stmtAt f = some s → target ∈ s.jumpTargets →
      target < (inl.stmtsOf f.method).length → LocalStep f ⟨f.method, target, f.locals⟩

def returned (ρ : Locals) (value : Option Operand) : Option Object := value.bind ρ.value

inductive Step : List Frame → List Frame → Prop where
  | inner {f f' fs} : inl.LocalStep f f' → Step (f :: fs) (f' :: fs)
  | call {f fs c callee method} : inl.stmtAt f = some (.call c) → inl.hooks c = none →
      inl.callee? c = some callee → inl.program.method? callee = some method →
      Step (f :: fs) (⟨callee, 0, f.locals.ofCall c method⟩ :: f :: fs)
  | ret {f f' fs value c} : inl.stmtAt f = some (.ret value) → inl.stmtAt f' = some (.call c) →
      Step (f :: f' :: fs)
        (⟨f'.method, f'.pc + 1, f'.locals.assignResult c (returned f.locals value)⟩ :: fs)

def Execution (entry : MethodId) : List (List Frame) → List Frame → Prop :=
  Path inl.Step [⟨entry, 0, .empty⟩]

/-- When a method returns, its formals still hold an object that the actuals of its call hold. The
variable that takes the result does not matter. -/
def KeepsActuals (o : Object) (frames : List Frame) : Prop :=
  ∀ f f' fs value c method, frames = f :: f' :: fs → inl.stmtAt f = some (.ret value) →
    inl.stmtAt f' = some (.call c) → inl.program.method? f.method = some method →
    ∀ formal actual, (formal, actual) ∈ passed f'.method c f.method method →
      c.result ≠ some actual.slot →
        f'.locals actual.slot = some o → f.locals formal.slot = some o

end Inliner

end PointsTo
