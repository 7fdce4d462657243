/-
  PropertyGraph.Json.Basic

  JSON values.  Objects are entries in order, so that two objects with the same
  entries in another order are different values with different texts; `same` is the
  coarser equality under which the order of entries does not count and the two
  zeros of floating point are one.  Integers and floating-point numbers are never
  the same number.
-/
import PropertyGraph.Decimal.Double
import PropertyGraph.Entries

namespace PropertyGraph

open Decimal (Double)

/-- A number: a whole number of 64 bits, with or without sign, or a finite double. -/
inductive Number where
  | integer (i : Int)
  | float (x : Double)
deriving DecidableEq, Repr, Inhabited

/-- A JSON value. -/
inductive Json where
  | null
  | bool (b : Bool)
  | number (n : Number)
  | string (s : String)
  | array (items : List Json)
  | object (entries : List (String × Json))
deriving Repr, Inhabited

/-- A property bag: the entries of an object. -/
abbrev Bag := Entries Json

/-- The integers that have a place in JSON: those of 64 bits, signed or unsigned. -/
def Number.fits (i : Int) : Bool := -9223372036854775808 ≤ i && i < 18446744073709551616

/-- The same number; an integer is never the same as a double. -/
def Number.same : Number → Number → Bool
  | .integer i, .integer j => i == j
  | .float x, .float y => x.same y
  | _, _ => false

namespace Json

/-- A whole number. -/
def ofInt (i : Int) : Json := .number (.integer i)

/-- The text of a string value. -/
def string? : Json → Option String
  | .string s => some s
  | _ => none

/-- The bag of an object; any other value gives the empty bag. -/
def toBag : Json → Bag
  | .object entries => entries
  | _ => []

mutual

/-- The same value, up to the order of entries in objects and the sign of zero. -/
def same : Json → Json → Bool
  | .null, .null => true
  | .bool a, .bool b => a == b
  | .number a, .number b => a.same b
  | .string a, .string b => a == b
  | .array a, .array b => sameItems a b
  | .object a, .object b => a.length == b.length && sameEntries a b
  | _, _ => false

/-- The same values one by one. -/
def sameItems : List Json → List Json → Bool
  | [], [] => true
  | a :: as, b :: bs => same a b && sameItems as bs
  | _, _ => false

/-- Every entry has its like under the same key on the other side. -/
def sameEntries : List (String × Json) → List (String × Json) → Bool
  | [], _ => true
  | (k, v) :: rest, other =>
    (match Entries.get? k other with
      | some w => same v w
      | none => false) && sameEntries rest other

end

end Json

end PropertyGraph
