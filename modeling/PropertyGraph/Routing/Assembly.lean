/-
  PropertyGraph.Routing.Assembly

  Putting a dispatcher together, suite by suite.  The first offence, a name that is taken
  or a type that has an owner, is kept and everything after it is ignored.
-/
import PropertyGraph.Suite.Basic

namespace PropertyGraph

/-- A dispatcher in the making. -/
structure Assembly where
  members : List (String × Suite)
  owners : Owners
  failure : Option Failure

namespace Assembly

/-- Nothing registered yet. -/
def empty : Assembly := ⟨[], .empty, none⟩

/-- What a suite claims: its node types, then its relationship types. -/
def claims (nodeTypes relationshipTypes : List String) : List (EntityClass × String) :=
  nodeTypes.map (fun t => (.node, t)) ++ relationshipTypes.map (fun t => (.relationship, t))

/-- Registers a suite under a name as the owner of some types. -/
def register (b : Assembly) (name : String) (suite : Suite)
    (nodeTypes relationshipTypes : List String) : Assembly :=
  if b.failure.isSome then b
  else if Entries.contains name b.members then
    { b with failure := some (.config (.suiteTwice name)) }
  else match b.owners.claimAll name (claims nodeTypes relationshipTypes) with
    | .error failure => { b with failure := some failure }
    | .ok owners => { b with members := b.members ++ [(name, suite)], owners }

/-- The dispatcher, unless something was wrong. -/
def dispatcher (b : Assembly) : Outcome Suite :=
  match b.failure with
  | some failure => .error failure
  | none => .ok (.dispatcher b.members b.owners)

end Assembly

end PropertyGraph
