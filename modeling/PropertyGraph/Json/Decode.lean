/-
  PropertyGraph.Json.Decode

  Values out of the tree of a text.  A decoder walks the tree in the order of the text
  and stops at the first fault: the text is malformed at that place, or it is well
  written and does not fit what is wanted there.
-/
import PropertyGraph.Json.Syntax

namespace PropertyGraph.Json

/-- Why nothing was decoded. -/
inductive Fault where
  /-- the text is not JSON, or nests too deep -/
  | malformed
  /-- the text is JSON of another form than the wanted one -/
  | misfit
deriving DecidableEq, Repr

/-- What a decoder gives. -/
abbrev Decoded (α : Type) := Except Fault α

namespace Tree

/-- The fault of a tree that does not have the wanted form. -/
def mismatch : Tree → Fault
  | .broken | .number none | .string none => .malformed
  | _ => .misfit

mutual

/-- Whether the text of a tree goes on to its end, so that it may be skipped. -/
def intact : Tree → Bool
  | .broken => false
  | .tooDeep whole => whole
  | .array items closed => intactItems items && closed
  | .object entries closed => intactEntries entries && closed
  | _ => true

/-- Whether all items may be skipped. -/
def intactItems : List Tree → Bool
  | [] => true
  | t :: rest => intact t && intactItems rest

/-- Whether all entries may be skipped. -/
def intactEntries : List (Option String × Tree) → Bool
  | [] => true
  | (_, t) :: rest => intact t && intactEntries rest

end

/-- Skips a tree. -/
def skip (t : Tree) : Decoded Unit := if t.intact then .ok () else .error .malformed

mutual

/-- The value of a tree; repeated keys collapse. -/
def toJson : Tree → Decoded Json
  | .null => .ok .null
  | .bool b => .ok (.bool b)
  | .number (some n) => .ok (.number n)
  | .string (some s) => .ok (.string s)
  | .plain _ (some value) => .ok value
  | .array items closed => do
    let items ← toItems items
    if closed then .ok (.array items) else .error .malformed
  | .object entries closed => do
    let entries ← toEntries entries
    if closed then .ok (.object (Entries.collapse entries)) else .error .malformed
  | _ => .error .malformed

/-- The values of the items of an array. -/
def toItems : List Tree → Decoded (List Json)
  | [] => .ok []
  | t :: rest => do
    let v ← toJson t
    let vs ← toItems rest
    .ok (v :: vs)

/-- The entries of an object, repeated keys included. -/
def toEntries : List (Option String × Tree) → Decoded (List (String × Json))
  | [] => .ok []
  | (none, _) :: _ => .error .malformed
  | (some k, t) :: rest => do
    let v ← toJson t
    let vs ← toEntries rest
    .ok ((k, v) :: vs)

end

/-! ## Values of one kind -/

/-- A string. -/
def toText : Tree → Decoded String
  | .string (some s) => .ok s
  | .plain word _ => .ok word
  | t => .error t.mismatch

/-- A truth value. -/
def toBool : Tree → Decoded Bool
  | .bool b => .ok b
  | .plain _ (some (.bool b)) => .ok b
  | t => .error t.mismatch

/-- An integer between two bounds. -/
def toIntIn (low high : Int) : Tree → Decoded Int
  | .number (some (.integer i)) => if low ≤ i ∧ i ≤ high then .ok i else .error .misfit
  | .plain _ (some (.number (.integer i))) => if low ≤ i ∧ i ≤ high then .ok i else .error .misfit
  | t => .error t.mismatch

/-- A signed integer of 64 bits. -/
def toInt64 : Tree → Decoded Int :=
  toIntIn (-9223372036854775808) 9223372036854775807

/-- A property bag. -/
def toBag : Tree → Decoded Bag
  | .object entries closed => do
    let entries ← toEntries entries
    if closed then .ok (Entries.collapse entries) else .error .malformed
  | .tooDeep _ => .error .malformed
  | t => .error t.mismatch

/-- A value that may be null. -/
def toOption {α : Type} (decode : Tree → Decoded α) : Tree → Decoded (Option α)
  | .null => .ok none
  | .plain _ (some .null) => .ok none
  | t => (decode t).map some

/-- An array of values of one form; an empty plain word counts as an empty array. -/
def toList {α : Type} (decode : Tree → Decoded α) : Tree → Decoded (List α)
  | .array items closed => do
    let items ← items.mapM decode
    if closed then .ok items else .error .malformed
  | .plain "" (some .null) => .ok []
  | .tooDeep _ => .error .malformed
  | t => .error t.mismatch

/-- An object with values of one form under arbitrary keys; repeated keys collapse. -/
def toMap {α : Type} (decode : Tree → Decoded α) : Tree → Decoded (Entries α)
  | .object entries closed => do
    let entries ← entries.mapM fun (key, t) =>
      match key with
      | some k => (decode t).map fun v => (k, v)
      | none => .error .malformed
    if closed then .ok (Entries.collapse entries) else .error .malformed
  | .tooDeep _ => .error .malformed
  | t => .error t.mismatch

/-- One of some names, as a string or as the only key of an object with the value null. -/
def toName {α : Type} (named : String → Option α) : Tree → Decoded α
  | .object [(some k, .null)] true =>
    match named k with
    | some a => .ok a
    | none => .error .misfit
  | .object [] false => .error .malformed
  | .object _ _ => .error .misfit
  | t => do
    let k ← t.toText
    match named k with
    | some a => .ok a
    | none => .error .misfit

end Tree

end PropertyGraph.Json
