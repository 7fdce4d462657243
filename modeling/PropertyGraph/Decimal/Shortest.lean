/-
  PropertyGraph.Decimal.Shortest

  The fewest decimal digits that identify a double, and the text made of them.
  The numbers that round to a double form an interval around it, ends included
  when its mantissa is even.  For one digit, two digits and so on, the two decimal
  numbers of that many digits next to the double are tried; the first count with a
  hit wins, of two hits the nearer, of two equally near the even one.
-/
import PropertyGraph.Decimal.Double

namespace PropertyGraph.Decimal

/-- How many decimal digits a natural number has; zero has none. -/
def digitCount (n : Nat) : Nat := if n = 0 then 0 else (Nat.toDigits 10 n).length

namespace Double

/-- A double beside the two ends of its rounding interval, as fractions over `den`. -/
structure Interval where
  low : Nat
  value : Nat
  high : Nat
  den : Nat
  closed : Bool

/-- The numbers that round to the given double. -/
def interval (x : Double) : Interval :=
  let up := if 2 ≤ x.exponent then twoTo (x.exponent - 2).toNat else 1
  let den := if 2 ≤ x.exponent then 1 else twoTo (2 - x.exponent).toNat
  let below := if x.mantissa = twoTo 52 ∧ minExponent < x.exponent then 1 else 2
  { low := (4 * x.mantissa - below) * up
    value := 4 * x.mantissa * up
    high := (4 * x.mantissa + 2) * up
    den := den
    closed := x.mantissa % 2 = 0 }

/-- The number of digits before the point of `num / den`; at or below zero for a number
    below one, where it counts the zeros after the point. -/
def pointOf (num den : Nat) : Int :=
  if den ≤ num then (digitCount (num / den) : Int)
  else 1 - (digitCount ((den + num - 1) / num - 1) : Int)

/-- Whether `digits * 10 ^ place` lies in the interval. -/
def Interval.holds (i : Interval) (digits : Nat) (place : Int) : Bool :=
  let n := if 0 ≤ place then digits * tenTo place.toNat * i.den else digits * i.den
  let scale := if 0 ≤ place then 1 else tenTo (-place).toNat
  if i.closed then i.low * scale ≤ n && n ≤ i.high * scale
  else i.low * scale < n && n < i.high * scale

/-- The decimal number of `count` digits nearest to the value, if one lies in the interval. -/
def Interval.pick (i : Interval) (point : Int) (count : Nat) : Option (Nat × Int) :=
  let place := point - count
  let num := if 0 ≤ place then i.value else i.value * tenTo (-place).toNat
  let den := if 0 ≤ place then i.den * tenTo place.toNat else i.den
  let below := num / den
  let rest := num % den
  let belowNearer := 2 * rest < den || (2 * rest == den && below % 2 == 0)
  match i.holds below place, i.holds (below + 1) place with
  | true, true => some (if belowNearer then below else below + 1, place)
  | true, false => some (below, place)
  | false, true => some (below + 1, place)
  | false, false => none

/-- The fewest digits that identify a double other than zero, and the place of the last. -/
def shortest (x : Double) : Nat × Int :=
  let i := x.interval
  let point := pointOf i.value i.den
  ((List.range 17).findSome? fun n => i.pick point (n + 1)).getD (0, 0)

/-- Drops the zeros at the end of a list of digits. -/
def stripZeros (digits : List Char) : List Char :=
  (digits.reverse.dropWhile (· == '0')).reverse

/-- Which decimal exponents are written without an exponent mark: from `0.00001` on and
    below `10000000000000000`. -/
def plainExponents : Int × Int := (-5, 15)

/-- Writes the digits with a point `point` places after the first. -/
def plainText (digits : List Char) (point : Int) : String :=
  if point ≤ 0 then "0." ++ String.ofList (List.replicate (-point).toNat '0' ++ digits)
  else if digits.length ≤ point.toNat then
    String.ofList (digits ++ List.replicate (point.toNat - digits.length) '0') ++ ".0"
  else String.ofList (digits.take point.toNat) ++ "." ++ String.ofList (digits.drop point.toNat)

/-- Writes the digits with a point after the first and a signed exponent. -/
def exponentText (digits : List Char) (exponent : Int) : String :=
  let head := match digits with
    | [] => ""
    | [d] => d.toString
    | d :: rest => d.toString ++ "." ++ String.ofList rest
  head ++ (if 0 ≤ exponent then "e+" else "e-") ++ toString exponent.natAbs

/-- The text of a double: always with a point or an exponent, so that it never reads as an
    integer, and with a sign also before zero. -/
def text (x : Double) : String :=
  let sign := if x.negative then "-" else ""
  if x.mantissa = 0 then sign ++ "0.0"
  else
    let (n, place) := x.shortest
    let all := Nat.toDigits 10 n
    let point : Int := all.length + place
    let digits := stripZeros all
    let exponent := point - 1
    if plainExponents.1 ≤ exponent && exponent ≤ plainExponents.2 then
      sign ++ plainText digits point
    else sign ++ exponentText digits exponent

end Double

end PropertyGraph.Decimal
