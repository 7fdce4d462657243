/-
  PropertyGraph.Entity.Codec

  Entities, bodies and patches as JSON.  Fields are written in a fixed order; a missing
  time and the parts that a patch leaves alone are not written.  When read, a missing
  bag is empty and an identity may be any value, null included.
-/
import PropertyGraph.Entity.Basic
import PropertyGraph.Json.Record

namespace PropertyGraph

open Json (Tree Decoded Record)

/-! ## Parts -/

/-- Reads an identity. -/
def Id.decode (t : Tree) : Decoded Id := t.toJson.map fun v => ⟨v⟩

/-- Reads the name of a class. -/
def EntityClass.decode : Tree → Decoded EntityClass := Tree.toName EntityClass.named

/-- The name of a class as JSON. -/
def EntityClass.toJson (c : EntityClass) : Json := .string c.name

/-- An entry that is only written when there is a value. -/
def optionalEntry {α : Type} (name : String) (encode : α → Json) (value : Option α) :
    List (String × Json) :=
  match value with
  | some v => [(name, encode v)]
  | none => []

/-- The endpoints as entries. -/
def EntityClass.endsEntries : (c : EntityClass) → c.Ends → List (String × Json)
  | .node, _ => []
  | .relationship, (ends : Endpoints) =>
    [("startNodeId", ends.startId.value), ("endNodeId", ends.endId.value)]

/-- The fields that hold the endpoints. -/
def EntityClass.endsRecord : (c : EntityClass) → Record c.Ends
  | .node => .nothing ()
  | .relationship =>
    .map (fun ends => (⟨ends.1, ends.2⟩ : Endpoints))
      (.both (.required "startNodeId" Id.decode) (.required "endNodeId" Id.decode))

/-- The new endpoints as entries. -/
def EntityClass.endsPatchEntries : (c : EntityClass) → c.EndsPatch → List (String × Json)
  | .node, _ => []
  | .relationship, (ends : EndpointsPatch) =>
    optionalEntry "startNodeId" Id.value ends.startId
      ++ optionalEntry "endNodeId" Id.value ends.endId

/-- The fields that hold new endpoints. -/
def EntityClass.endsPatchRecord : (c : EntityClass) → Record c.EndsPatch
  | .node => .nothing ()
  | .relationship =>
    .map (fun ends => (⟨ends.1, ends.2⟩ : EndpointsPatch))
      (.both (.optional "startNodeId" Id.decode) (.optional "endNodeId" Id.decode))

/-! ## Entities -/

variable {c : EntityClass}

/-- An entity as JSON. -/
def Entity.toJson (e : Entity c) : Json :=
  .object ([("id", e.id.value), ("type", .string e.type), ("properties", .object e.properties)]
    ++ c.endsEntries e.ends ++ optionalEntry "updateTime" Json.ofInt e.updateTime)

/-- The fields of an entity. -/
def Entity.record (c : EntityClass) : Record (Entity c) :=
  .map (fun (id, type, properties, ends, updateTime) =>
      { id, type, properties, ends, updateTime })
    (.both (.required "id" Id.decode)
      (.both (.required "type" Tree.toText)
        (.both (.withDefault "properties" Tree.toBag [])
          (.both c.endsRecord (.optional "updateTime" Tree.toInt64)))))

/-- Reads an entity. -/
def Entity.decode : Tree → Decoded (Entity c) := (Entity.record c).decode

/-! ## Bodies -/

/-- A body as JSON. -/
def Body.toJson (b : Body c) : Json :=
  .object ([("type", .string b.type), ("properties", .object b.properties)]
    ++ c.endsEntries b.ends)

/-- The fields of a body. -/
def Body.record (c : EntityClass) : Record (Body c) :=
  .map (fun (type, properties, ends) => { type, properties, ends })
    (.both (.required "type" Tree.toText)
      (.both (.withDefault "properties" Tree.toBag []) c.endsRecord))

/-- Reads a body. -/
def Body.decode : Tree → Decoded (Body c) := (Body.record c).decode

/-! ## Patches -/

/-- A patch as entries. -/
def Patch.entries (p : Patch c) : List (String × Json) :=
  optionalEntry "type" Json.string p.type
    ++ optionalEntry "properties" Json.object p.properties
    ++ c.endsPatchEntries p.ends

/-- A patch as JSON. -/
def Patch.toJson (p : Patch c) : Json := .object p.entries

/-- The fields of a patch. -/
def Patch.record (c : EntityClass) : Record (Patch c) :=
  .map (fun (type, properties, ends) => { type, properties, ends })
    (.both (.optional "type" Tree.toText)
      (.both (.optional "properties" Tree.toBag) c.endsPatchRecord))

/-- Reads a patch. -/
def Patch.decode : Tree → Decoded (Patch c) := (Patch.record c).decode

end PropertyGraph
