import PointsTo.Text.Digits

/-! Which decimal numbers are too large for double precision. -/
namespace PointsTo

/-- The least number that rounds to infinity. -/
def doubleLimit : Nat := capacity 1024 - capacity 970

/-- The number `significand * 10 ^ exponent` does not round to infinity. -/
def fitsDouble (significand : Nat) (exponent : Int) : Bool :=
  let magnitude := (Nat.toDigits 10 significand).length + exponent
  if significand = 0 ∨ magnitude < 300 then true
  else if magnitude > 310 then false
  else if 0 ≤ exponent then significand * Nat.pow 10 exponent.toNat < doubleLimit
  else significand < doubleLimit * Nat.pow 10 (-exponent).toNat

/-- The nearest number that is all zeros after 53 binary digits; of two the one whose last digit of
those is zero. -/
def roundToDouble (n : Nat) : Nat :=
  let unit := capacity (n.log2 - 52)
  let rest := n % unit
  let isUp := unit < 2 * rest || (unit = 2 * rest && n / unit % 2 = 1)
  (n / unit + if isUp then 1 else 0) * unit

/-- As many leading digits as fit in 64 bits, and how many digits are left out. -/
def leadingDigits (n : Nat) : Nat × Nat :=
  let surplus := (Nat.toDigits 10 n).length - 20
  let head := n / Nat.pow 10 surplus
  if head < capacity 64 then (head, surplus) else (head / 10, surplus + 1)

/-- The leading digits of `significand` times the power of ten that brings them to their place do
not round to infinity, if the digits, the power and the product are all rounded. -/
def productFitsDouble (significand : Nat) (exponent : Int) : Bool :=
  let (head, leftOut) := leadingDigits significand
  let exponent := exponent + leftOut
  if head = 0 ∨ exponent < 0 then true
  else if 308 < exponent then false
  else roundToDouble head * roundToDouble (Nat.pow 10 exponent.toNat) < doubleLimit

end PointsTo
