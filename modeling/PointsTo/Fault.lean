/-! References to things that do not exist. -/
namespace PointsTo

inductive Fault where
  | method (id : Nat)
  | block (id : Nat)
  | pointer (id : Nat)
  | site (id : Nat)
  deriving DecidableEq, Repr

def Fault.message : Fault → String
  | method id => s!"no method has the number {id}"
  | block id => s!"no block has the number {id}"
  | pointer id => s!"no pointer has the number {id}"
  | site id => s!"no allocation site has the number {id}"

def orFault {α : Type} (o : Option α) (f : Fault) : Except Fault α := o.elim (.error f) .ok

end PointsTo
