/-!
# Binary numbers with a fixed number of decimal places

A finite binary number is a sign, a natural significand and a power of two, and is rounded as
that exact value. A tie goes to the even neighbour. The sign is kept even where every
digit is zero.
-/

namespace RobinHood

namespace Decimal

/-- The quotient rounded to the nearest natural number, a tie going to the even one. -/
def roundDiv (num den : Nat) : Nat :=
  let quotient := num / den
  let doubled := 2 * (num % den)
  if doubled < den then quotient
  else if den < doubled then quotient + 1
  else quotient + quotient % 2

/-- What the bits of a binary number say. -/
inductive Parts where
  /-- Not a number. -/
  | nan
  /-- Infinity with its sign. -/
  | infinite (negative : Bool)
  /-- The value `significand * 2 ^ (exponent - 1074)` with its sign. -/
  | finite (negative : Bool) (significand exponent : Nat)
deriving DecidableEq, Repr

/-- Take the bits of a binary number apart. -/
def Parts.ofBits (bits : UInt64) : Parts :=
  let negative := bits >>> 63 == 1
  let exponent := ((bits >>> 52) &&& 0x7ff).toNat
  let fraction := (bits &&& 0xfffffffffffff).toNat
  if exponent = 0x7ff then
    if fraction = 0 then .infinite negative else .nan
  else if exponent = 0 then .finite negative fraction 0
  else .finite negative (fraction + (1 <<< 52)) (exponent - 1)

/-- The digits of `scaled / 10 ^ places`, at least one of them before the point. -/
def pointed (scaled places : Nat) : String :=
  let digits := (Nat.toDigits 10 scaled).leftpad (places + 1) '0'
  let whole := digits.length - places
  String.ofList (digits.take whole ++ '.' :: digits.drop whole)

/-- A binary number with a fixed number of decimal places. -/
def Parts.fixed (places : Nat) : Parts → String
  | .nan => "NaN"
  | .infinite negative => if negative then "-inf" else "inf"
  | .finite negative significand exponent =>
    (if negative then "-" else "") ++
      pointed (roundDiv ((significand * Nat.pow 10 places) <<< exponent) (1 <<< 1074)) places

end Decimal

/-- A number times one hundred, with two decimal places. -/
def percent (x : Float) : String := (Decimal.Parts.ofBits (x * 100.0).toBits).fixed 2

end RobinHood
