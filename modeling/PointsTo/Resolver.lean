import PointsTo.Program.Lookup

/-! Resolving a call target to a method. -/
namespace PointsTo

abbrev Resolver := Program → MethodRef → Option MethodId

namespace MethodRef

/-- The class, the name and the descriptor fit; an empty descriptor fits any. -/
def Fits (r : MethodRef) (owner : String) (m : Method) : Prop :=
  m.owner = owner ∧ m.name = r.name ∧
    (r.descriptor = "" ∨ m.descriptor = "" ∨ m.descriptor = r.descriptor)

instance (r : MethodRef) (owner : String) (m : Method) : Decidable (r.Fits owner m) :=
  inferInstanceAs (Decidable (_ ∧ _ ∧ (_ ∨ _ ∨ _)))

end MethodRef

namespace Program

def methodIn (p : Program) (r : MethodRef) (owner : String) : Option MethodId :=
  p.methods.findIdx? fun m => r.Fits owner m

/-- Walks up the superclasses from `owner`, looking at no more than `steps` classes. -/
def resolveFrom (p : Program) (r : MethodRef) : Nat → String → Option MethodId
  | 0, _ => none
  | steps + 1, owner =>
    p.methodIn r owner <|> (p.superclassOf owner).bind (p.resolveFrom r steps)

end Program

/-- Looks in the class of the target, then in its superclasses. A walk without a repeated class
sees each declared class and at most one undeclared one, which is the number of steps. -/
def Resolver.hierarchy : Resolver := fun p r =>
  p.resolveFrom r (p.classes.length + 1) r.owner

/-- Resolves by a table from displayed targets. -/
def Resolver.table (entries : List (String × MethodId)) : Resolver := fun _ r =>
  entries.lookup r.display

end PointsTo
