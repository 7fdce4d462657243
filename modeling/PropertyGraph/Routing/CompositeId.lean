/-
  PropertyGraph.Routing.CompositeId

  Composite identities.  A dispatcher gives out the identity of an entity as the name of
  the suite that owns it together with the identity that the suite knows it by.
-/
import PropertyGraph.Entity.Codec
import PropertyGraph.Failure

namespace PropertyGraph

open Json (Tree Decoded Record)

/-- The name of a suite and an identity within it. -/
structure CompositeId where
  suite : String
  id : Id
deriving Repr

namespace CompositeId

/-- The composite as an identity of its own. -/
def toId (c : CompositeId) : Id := ⟨.object [("suite", .string c.suite), ("id", c.id.value)]⟩

/-- The fields of a composite. -/
def record : Record CompositeId :=
  .map (fun (suite, id) => { suite, id })
    (.both (.required "suite" Tree.toText) (.required "id" Id.decode))

/-- Reads a composite; a field of another name is refused. -/
def decode : Tree → Decoded CompositeId := record.read .refused

/-- The composite that an identity is the form of. -/
def ofId (id : Id) : Outcome CompositeId :=
  match decode (.ofJson id.value) with
  | .ok c => .ok c
  | .error _ => .error (.identity (.notComposite id))

end CompositeId

end PropertyGraph
