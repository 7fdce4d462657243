/-
  PropertyGraph.Decimal.Double

  Finite binary floating-point numbers of double precision, with exact integer
  arithmetic underneath.  A magnitude is `mantissa * 2 ^ exponent`; `nearest?`
  takes any quotient of naturals to the closest magnitude, a tie going to the
  even mantissa, and reports the quotients that lie beyond the largest one.
  Products and quotients are rounded once from their exact value.
-/
import PropertyGraph.Decimal.Power

namespace PropertyGraph.Decimal

/-- A finite double: the sign, and the magnitude `mantissa * 2 ^ exponent`. -/
structure Double where
  negative : Bool
  mantissa : Nat
  exponent : Int
deriving DecidableEq, Repr, Inhabited

namespace Double

/-- The exponent of the smallest doubles. -/
def minExponent : Int := -1074

/-- The exponent of the largest doubles. -/
def maxExponent : Int := 971

/-- The quotient `num / den` brought to the scale of `2 ^ exponent`. -/
def scaleTo (num den : Nat) (exponent : Int) : Nat × Nat :=
  if 0 ≤ exponent then (num, den * twoTo exponent.toNat) else (num * twoTo (-exponent).toNat, den)

/-- The whole number nearest to `num / den`; a half goes to the even neighbour. -/
def roundHalfEven (num den : Nat) : Nat :=
  let q := num / den
  let r := num % den
  if 2 * r < den then q
  else if den < 2 * r then q + 1
  else if q % 2 = 0 then q else q + 1

/-- The exponent at which `num / den` has a mantissa of 53 bits, or the least one. -/
def exponentOf (num den : Nat) : Int :=
  let guess : Int := (Nat.log2 num : Int) - (Nat.log2 den : Int) - 52
  let (n, d) := scaleTo num den guess
  max (if n < d * twoTo 52 then guess - 1 else guess) minExponent

/-- The double nearest to `num / den`, or nothing when it lies beyond the largest. -/
def nearest? (negative : Bool) (num den : Nat) : Option Double :=
  if num = 0 then some ⟨negative, 0, minExponent⟩
  else
    let e := exponentOf num den
    let (n, d) := scaleTo num den e
    let m := roundHalfEven n d
    let (m, e) := if m = twoTo 53 then (twoTo 52, e + 1) else (m, e)
    if maxExponent < e then none else some ⟨negative, m, e⟩

/-- The magnitude as a quotient of naturals. -/
def ratio (x : Double) : Nat × Nat :=
  if 0 ≤ x.exponent then (x.mantissa * twoTo x.exponent.toNat, 1)
  else (x.mantissa, twoTo (-x.exponent).toNat)

/-- The product, rounded once. -/
def mul? (x y : Double) : Option Double :=
  let (a, b) := x.ratio
  let (c, d) := y.ratio
  nearest? (x.negative != y.negative) (a * c) (b * d)

/-- The quotient by a double other than zero, rounded once. -/
def div? (x y : Double) : Option Double :=
  let (a, b) := x.ratio
  let (c, d) := y.ratio
  nearest? (x.negative != y.negative) (a * d) (b * c)

/-- The same number: the two zeros are one. -/
def same (x y : Double) : Bool := x == y || (x.mantissa == 0 && y.mantissa == 0)

end Double

end PropertyGraph.Decimal
