/-! The values of digit strings. -/
namespace PointsTo

/-- How many numbers have at most `bits` binary digits. -/
def capacity (bits : Nat) : Nat := Nat.pow 2 bits

def digitValue? (c : Char) : Option Nat :=
  if '0' ≤ c ∧ c ≤ '9' then some (c.toNat - '0'.toNat)
  else if 'a' ≤ c ∧ c ≤ 'f' then some (c.toNat - 'a'.toNat + 10)
  else if 'A' ≤ c ∧ c ≤ 'F' then some (c.toNat - 'A'.toNat + 10)
  else none

/-- The number written by digits of a base; without digits there is none. -/
def readDigits (base : Nat) : List Char → Option Nat
  | [] => none
  | cs => cs.foldlM (fun n c => do
      let d ← digitValue? c
      if d < base then some (n * base + d) else none) 0

/-- Reads the exponent of a decimal number, from its letter on; without one it is zero. -/
def readExponent : List Char → Option Int
  | [] => some 0
  | e :: '-' :: ds => if e.toLower = 'e' then (readDigits 10 ds).map fun n => -(n : Int) else none
  | e :: '+' :: ds => if e.toLower = 'e' then (readDigits 10 ds).map fun n => (n : Int) else none
  | e :: ds => if e.toLower = 'e' then (readDigits 10 ds).map fun n => (n : Int) else none

end PointsTo
