/-
  PropertyGraph.Presentation.Lookup

  How nodes are shown, kept in the graph itself.  A node of type `NodeType` stands for the
  type that it names; relationships of type `Has` lead from it to nodes with metadata, one
  type of node for each kind.  Here is how metadata is found and how it is attached.
-/
import PropertyGraph.Presentation.Basic
import PropertyGraph.Suite.Task

namespace PropertyGraph.SuiteTask

/-! ## Looking metadata up -/

/-- The type of the nodes that stand for types. -/
def typeNodeType : String := "NodeType"

/-- The type of the relationships from them to metadata. -/
def linkType : String := "Has"

/-- The type of the nodes that hold a `Summary`. -/
def summaryType : String := "Node Cell Meta"

/-- The type of the nodes that hold a `Details`. -/
def detailsType : String := "Node Edit Meta"

/-- The nodes that stand for a type. -/
def typeNodes (stamp : Stamp) (type : String) : SuiteTask (List Node) :=
  ask stamp (.search .node
    (.all [.typeEq typeNodeType, .propertyEq "$.name" (.string type)]))

/-- The first node of a type at the end of one of some links. -/
def followLinks (stamp : Stamp) (metaType : String) : List Relationship → SuiteTask (Option Node)
  | [] => return none
  | link :: rest => do
    let ends : Endpoints := link.ends
    match (← ask stamp (.get .node ends.endId) : Option Node) with
    | some node => if node.type = metaType then return some node
                   else followLinks stamp metaType rest
    | none => followLinks stamp metaType rest

/-- The first node of a type that is linked from one of some nodes. -/
def followTypes (stamp : Stamp) (metaType : String) : List Node → SuiteTask (Option Node)
  | [] => return none
  | node :: rest => do
    let links : List Relationship ←
      ask stamp (.search .relationship
        (.all [.typeEq linkType, .adjacency node.id .start]))
    match ← followLinks stamp metaType links with
    | some found => return some found
    | none => followTypes stamp metaType rest

/-- The metadata node of a given type for a type of nodes. -/
def metadataNode (stamp : Stamp) (type metaType : String) : SuiteTask (Option Node) := do
  followTypes stamp metaType (← typeNodes stamp type)

/-- How nodes of a type are summed up. -/
def summaryOf (stamp : Stamp) (type : String) : SuiteTask Summary := do
  match ← metadataNode stamp type summaryType with
  | some node => ofDecoded (Summary.decode (.ofJson (.object node.properties)))
  | none => return Summary.default

/-- How nodes of a type are shown in detail. -/
def detailsOf (stamp : Stamp) (type : String) : SuiteTask Details := do
  match ← metadataNode stamp type detailsType with
  | some node => ofDecoded (Details.decode (.ofJson (.object node.properties)))
  | none => return Details.default

/-! ## Attaching metadata -/

/-- The stamps of the three creations that attaching may take. -/
structure AttachStamps where
  typeNode : Stamp
  metaNode : Stamp
  link : Stamp

/-- Attaches a metadata node to a type of nodes; the node that stands for the type is
    created when there is none. -/
def attach (stamps : AttachStamps) (type metaType : String) (properties : Bag) :
    SuiteTask Node := do
  let typeNode : Node ← do
    match ← typeNodes stamps.typeNode type with
    | node :: _ => pure node
    | [] =>
      ask stamps.typeNode
        (.create .node (Body.node typeNodeType [("name", .string type)]))
  let metaNode : Node ← ask stamps.metaNode (.create .node (Body.node metaType properties))
  let _ : Relationship ←
    ask stamps.link
      (.create .relationship (Body.relationship linkType [] typeNode.id metaNode.id))
  return metaNode

end PropertyGraph.SuiteTask
