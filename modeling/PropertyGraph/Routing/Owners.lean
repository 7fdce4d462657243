/-
  PropertyGraph.Routing.Owners

  Which suite owns which type.  Nodes and relationships have tables of their own; a type
  is claimed by one suite at most, and claiming it again for the same suite changes
  nothing.
-/
import PropertyGraph.Failure
import PropertyGraph.Text.Sorted

namespace PropertyGraph

/-- The owners of types, in the order in which the types were claimed. -/
structure Owners where
  nodes : Entries String
  relationships : Entries String
deriving DecidableEq, Repr

namespace Owners

/-- No type is claimed. -/
def empty : Owners := ⟨[], []⟩

/-- The owners of the types of a class. -/
def table (owners : Owners) : EntityClass → Entries String
  | .node => owners.nodes
  | .relationship => owners.relationships

/-- The same owners but for one class. -/
def withTable (owners : Owners) : EntityClass → Entries String → Owners
  | .node, es => { owners with nodes := es }
  | .relationship, es => { owners with relationships := es }

/-- The owner of a type, if it has one. -/
def owner? (owners : Owners) (c : EntityClass) (type : String) : Option String :=
  (owners.table c).get? type

/-- The owner of a type, which must have one. -/
def owner (owners : Owners) (c : EntityClass) (type : String) : Outcome String :=
  match owners.owner? c type with
  | some name => .ok name
  | none => .error (.unownedType c type)

/-- Claims a type for a suite. -/
def claim (owners : Owners) (c : EntityClass) (type suite : String) : Outcome Owners :=
  match owners.owner? c type with
  | none => .ok (owners.withTable c ((owners.table c).insert type suite))
  | some name =>
    if name = suite then .ok owners else .error (.config (.twoOwners c type name suite))

/-- Claims types for a suite, one after the other up to the first that another one owns. -/
def claimAll (owners : Owners) (suite : String) : List (EntityClass × String) → Outcome Owners
  | [] => .ok owners
  | (c, type) :: rest => do claimAll (← owners.claim c type suite) suite rest

/-- The types that are claimed, in ascending order. -/
def types (owners : Owners) (c : EntityClass) : List String :=
  Text.sorted (owners.table c).keys

end Owners

end PropertyGraph
