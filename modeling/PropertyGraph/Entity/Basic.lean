/-
  PropertyGraph.Entity.Basic

  Nodes and relationships.  Both are entities: an identity, a type, a property bag and
  the time of the last change.  A relationship has two endpoints besides, a node has
  none; all else is stated once for both classes.
-/
import PropertyGraph.Json.Printer

namespace PropertyGraph

/-! ## Identities -/

/-- An identity.  Any value may serve; only the store that gave it out knows its form. -/
structure Id where
  value : Json
deriving Repr, Inhabited

namespace Id

/-- The identity that is a text. -/
def ofString (s : String) : Id := ⟨.string s⟩

/-- The identity as a text, if it is one. -/
def string? (id : Id) : Option String := id.value.string?

/-- The identity as shown to a reader: a text as it is, any other value in compact form. -/
def shown (id : Id) : String :=
  match id.value with
  | .string s => s
  | v => v.text

/-- Whether two identities are the same value. -/
def same (a b : Id) : Bool := a.value.same b.value

end Id

/-! ## The two classes -/

/-- The classes of entities; each has identities and types of its own. -/
inductive EntityClass where
  | node
  | relationship
deriving DecidableEq, Repr, Inhabited

/-- The nodes that a relationship leads from and to. -/
structure Endpoints where
  startId : Id
  endId : Id
deriving Repr, Inhabited

/-- New endpoints, each of them optional. -/
structure EndpointsPatch where
  startId : Option Id
  endId : Option Id
deriving Repr, Inhabited

namespace EntityClass

/-- The name of a class in messages and file names. -/
def name : EntityClass → String
  | .node => "node"
  | .relationship => "relationship"

/-- The class of a name. -/
def named : String → Option EntityClass
  | "node" => some .node
  | "relationship" => some .relationship
  | _ => none

/-- What an entity has for endpoints. -/
def Ends : EntityClass → Type
  | .node => Unit
  | .relationship => Endpoints

/-- What a change may say about endpoints. -/
def EndsPatch : EntityClass → Type
  | .node => Unit
  | .relationship => EndpointsPatch

end EntityClass

/-! ## Entities -/

/-- A node or a relationship. -/
structure Entity (c : EntityClass) where
  id : Id
  type : String
  properties : Bag
  ends : c.Ends
  updateTime : Option Int

/-- A node. -/
abbrev Node := Entity .node

/-- A relationship. -/
abbrev Relationship := Entity .relationship

/-- What is needed to create an entity. -/
structure Body (c : EntityClass) where
  type : String
  properties : Bag
  ends : c.Ends

/-- A change of an entity.  What it leaves out stays; a bag replaces the whole bag. -/
structure Patch (c : EntityClass) where
  type : Option String
  properties : Option Bag
  ends : c.EndsPatch

/-- The entity of a body under a new identity, created at a given time. -/
def Body.create {c : EntityClass} (body : Body c) (id : Id) (time : Option Int) : Entity c :=
  { id, type := body.type, properties := body.properties, ends := body.ends, updateTime := time }

/-- The body of a node. -/
def Body.node (type : String) (properties : Bag) : Body .node :=
  { type, properties, ends := () }

/-- The body of a relationship. -/
def Body.relationship (type : String) (properties : Bag) (startId endId : Id) :
    Body .relationship :=
  { type, properties, ends := (⟨startId, endId⟩ : Endpoints) }

/-- The endpoints of an entity, if its class has them. -/
def Entity.endpoints? : {c : EntityClass} → Entity c → Option Endpoints
  | .node, _ => none
  | .relationship, e => some e.ends

/-- Endpoints after a change. -/
def EntityClass.applyEnds : (c : EntityClass) → c.EndsPatch → c.Ends → c.Ends
  | .node, _, ends => ends
  | .relationship, (patch : EndpointsPatch), (ends : Endpoints) =>
    (⟨patch.startId.getD ends.startId, patch.endId.getD ends.endId⟩ : Endpoints)

/-- An entity after a change at the time `now`. -/
def Patch.apply {c : EntityClass} (patch : Patch c) (entity : Entity c) (now : Int) : Entity c :=
  { id := entity.id
    type := patch.type.getD entity.type
    properties := patch.properties.getD entity.properties
    ends := c.applyEnds patch.ends entity.ends
    updateTime := some now }

end PropertyGraph
