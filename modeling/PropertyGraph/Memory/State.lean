/-
  PropertyGraph.Memory.State

  A graph as a plain value: the nodes and the relationships by their text identities, in
  the order in which they came.  All operations of a store are functions on this value;
  one that fails leaves it as it was.
-/
import PropertyGraph.Searcher.Compiled
import PropertyGraph.Text.Sorted

namespace PropertyGraph

open Json (Tree Decoded Record)

/-- Everything that a store in memory holds. -/
structure GraphState where
  nodes : Entries Node
  relationships : Entries Relationship

namespace GraphState

/-- Nothing stored. -/
def empty : GraphState := ⟨[], []⟩

/-- The entities of a class. -/
def entities (s : GraphState) : (c : EntityClass) → Entries (Entity c)
  | .node => s.nodes
  | .relationship => s.relationships

/-- The state with other entities of a class. -/
def withEntities (s : GraphState) : (c : EntityClass) → Entries (Entity c) → GraphState
  | .node, es => { s with nodes := es }
  | .relationship, es => { s with relationships := es }

/-! ## As JSON -/

/-- A state as JSON. -/
def toJson (s : GraphState) : Json :=
  .object [("nodes", .object (s.nodes.map fun (k, e) => (k, e.toJson))),
    ("relationships", .object (s.relationships.map fun (k, e) => (k, e.toJson)))]

/-- Reads a state. -/
def decode : Tree → Decoded GraphState :=
  (Record.map (fun (nodes, relationships) => ({ nodes, relationships } : GraphState))
    (.both (.withDefault "nodes" (Tree.toMap Entity.decode) [])
      (.withDefault "relationships" (Tree.toMap Entity.decode) []))).decode

/-! ## Operations -/

variable {c : EntityClass}

/-- Puts an entity under a key. -/
def insert (s : GraphState) (key : String) (e : Entity c) : GraphState :=
  s.withEntities c ((s.entities c).insert key e)

/-- The entity under a key. -/
def get (s : GraphState) (c : EntityClass) (key : String) : Option (Entity c) :=
  (s.entities c).get? key

/-- Changes the entity under a key. -/
def edit (s : GraphState) (id : Id) (key : String) (patch : Patch c) (time : Int) :
    Outcome (Entity c) × GraphState :=
  match s.get c key with
  | none => (.error (.notFound c id), s)
  | some e => let e := patch.apply e time; (.ok e, s.insert key e)

/-- Removes the entity under a key. -/
def remove (s : GraphState) (c : EntityClass) (id : Id) (key : String) :
    Outcome Unit × GraphState :=
  match s.get c key with
  | none => (.error (.notFound c id), s)
  | some _ => (.ok (), s.withEntities c ((s.entities c).erase key))

/-- The types of the entities of a class. -/
def types (s : GraphState) (c : EntityClass) : List String :=
  Text.sorted ((s.entities c).values.map Entity.type)

end GraphState

end PropertyGraph
