/-
  PropertyGraph.Decimal.Scaled

  Decimal literals as doubles.  A literal is a significand of at most 64 bits and
  a power of ten: digits that no longer fit are dropped, those before the point
  still counting as powers of ten.  The significand is rounded to a double first
  and then multiplied or divided by a rounded power of ten, so that a literal of
  many digits may miss the nearest double by one place; no literal reads as an
  infinity.
-/
import PropertyGraph.Decimal.Double

namespace PropertyGraph.Decimal

/-- A decimal literal, `significand * 10 ^ exponent`. -/
structure Scaled where
  significand : Nat
  exponent : Int
deriving DecidableEq, Repr

namespace Scaled

/-- The largest significand that is kept exactly, the largest number of 64 bits. -/
def limit : Nat := 18446744073709551615

/-- Takes in the digits before the point; those that do not fit count as powers of ten. -/
def whole (significand : Nat) : List Nat → Scaled
  | [] => ⟨significand, 0⟩
  | d :: rest =>
    if significand * 10 + d ≤ limit then whole (significand * 10 + d) rest
    else ⟨significand, (rest.length : Int) + 1⟩

/-- Takes in the digits after the point, up to the first that does not fit. -/
def fraction (x : Scaled) : List Nat → Scaled
  | [] => x
  | d :: rest =>
    if x.significand * 10 + d ≤ limit then
      fraction ⟨x.significand * 10 + d, x.exponent - 1⟩ rest
    else x

/-- The literal of the given digits before and after the point and the given exponent. -/
def ofDigits (before after : List Nat) (exponent : Int) : Scaled :=
  let x := fraction (whole 0 before) after
  ⟨x.significand, x.exponent + exponent⟩

/-- The largest power of ten that is applied in one step. -/
def maxPower : Nat := 308

/-- The power of ten as a double. -/
def power (k : Nat) : Option Double := Double.nearest? false (tenTo k) 1

/-- Divides by the largest power of ten `steps` times, stopping early at zero. -/
def shrink : Nat → Double → Option Double
  | 0, x => some x
  | steps + 1, x =>
    if x.mantissa = 0 then some x
    else ((power maxPower).bind x.div?).bind (shrink steps)

/-- Multiplies by ten to the power `exponent`, nothing when the result is too large. -/
def shift (x : Double) (exponent : Int) : Option Double :=
  if 0 ≤ exponent then
    if exponent.natAbs ≤ maxPower then (power exponent.natAbs).bind x.mul?
    else if x.mantissa = 0 then some x else none
  else
    let steps := (exponent.natAbs - 1) / maxPower
    (shrink steps x).bind fun y => (power (exponent.natAbs - steps * maxPower)).bind y.div?

/-- The double that the literal denotes, nothing when it is too large. -/
def toDouble? (x : Scaled) (negative : Bool) : Option Double :=
  (Double.nearest? false x.significand 1).bind fun s =>
    (shift s x.exponent).map fun y => { y with negative := negative }

end Scaled

end PropertyGraph.Decimal
