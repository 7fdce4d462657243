/-
  PropertyGraph.Yaml.Scalar

  What a YAML word without quotes stands for where any value may stand: null, a truth
  value, an integer in one of four bases, a number with a point or an exponent, or else
  the word itself as a text.
-/
import PropertyGraph.Decimal.Double
import PropertyGraph.Json.Basic
import PropertyGraph.Json.Token

namespace PropertyGraph.Yaml

open Decimal (Double tenTo)

/-! ## Integers -/

/-- The digits of a number in a base, of which there must be one at least. -/
def digits? (base : Nat) (cs : List Char) : Option Nat :=
  if cs.isEmpty then none
  else cs.foldlM (fun acc c => do
    let d ← Json.hexValue? c
    if d < base then some (acc * base + d) else none) 0

/-- Whether a text is a zero with further digits behind it, which is no number. -/
def isPadded : List Char → Bool
  | '0' :: c :: rest => (c :: rest).all Char.isDigit
  | _ => false

/-- The magnitude of an integer without sign. -/
def magnitude? : List Char → Option Nat
  | '0' :: 'x' :: rest => digits? 16 rest
  | '0' :: 'o' :: rest => digits? 8 rest
  | '0' :: 'b' :: rest => digits? 2 rest
  | cs => if isPadded cs then none else digits? 10 cs

/-- The integer that a word denotes. -/
def integer? : List Char → Option Int
  | '-' :: rest => (magnitude? rest).map fun n => -(n : Int)
  | '+' :: rest => (magnitude? rest).map Int.ofNat
  | cs => (magnitude? cs).map Int.ofNat

/-! ## Other numbers -/

/-- The exponent that a number ends in, if what follows its digits is one. -/
def exponent? : List Char → Option Int
  | [] => some 0
  | e :: rest =>
    if e != 'e' && e != 'E' then none
    else match rest with
      | '-' :: more => (digits? 10 more).map fun n => -(n : Int)
      | '+' :: more => (digits? 10 more).map Int.ofNat
      | more => (digits? 10 more).map Int.ofNat

/-- The largest exponent that is looked at; beyond it every number is zero or too large. -/
def maxExponent : Nat := 5000

/-- The number that a word without sign denotes, if it is finite. -/
def decimal? (negative : Bool) (cs : List Char) : Option Double :=
  let whole := cs.takeWhile Char.isDigit
  let tail := cs.dropWhile Char.isDigit
  let (fraction, tail) := match tail with
    | '.' :: more => (more.takeWhile Char.isDigit, more.dropWhile Char.isDigit)
    | _ => ([], tail)
  match digits? 10 (whole ++ fraction), exponent? tail with
  | some n, some e =>
    let e := e - fraction.length
    if n = 0 then some ⟨negative, 0, Double.minExponent⟩
    else if 0 ≤ e then
      if maxExponent < e.natAbs then none else Double.nearest? negative (n * tenTo e.natAbs) 1
    else if cs.length + maxExponent < e.natAbs then some ⟨negative, 0, Double.minExponent⟩
    else Double.nearest? negative n (tenTo e.natAbs)
  | _, _ => none

/-- The number with a point or an exponent that a word denotes. -/
def float? : List Char → Option Double
  | '-' :: rest => decimal? true rest
  | '+' :: rest => decimal? false rest
  | cs => decimal? false cs

/-- The words for numbers that are not finite. -/
def unbounded : List String :=
  [".inf", ".Inf", ".INF", "+.inf", "+.Inf", "+.INF", "-.inf", "-.Inf", "-.INF",
    ".nan", ".NaN", ".NAN"]

/-! ## Words -/

/-- Whether a word with an optional sign in front is a padded number. -/
def isPaddedWord : List Char → Bool
  | '-' :: rest | '+' :: rest => isPadded rest
  | cs => isPadded cs

/-- The bound of the integers of 128 bits. -/
def wideBound : Int := 340282366920938463463374607431768211456

/-- The value of a word.  Integers of more than 64 bits and numbers that are not finite have
    none; beyond 128 bits an integer counts as a number with a point. -/
def value (word : String) : Option Json :=
  if ["", "~", "null", "Null", "NULL"].contains word then some .null
  else if ["true", "True", "TRUE"].contains word then some (.bool true)
  else if ["false", "False", "FALSE"].contains word then some (.bool false)
  else if unbounded.contains word then none
  else
    let cs := word.toList
    let asFloat : Json :=
      if isPaddedWord cs then .string word
      else match float? cs with
        | some x => .number (.float x)
        | none => .string word
    match integer? cs with
    | some i =>
      if Number.fits i then some (.number (.integer i))
      else if -(wideBound / 2) ≤ i && i < wideBound then none
      else some asFloat
    | none => some asFloat

end PropertyGraph.Yaml
