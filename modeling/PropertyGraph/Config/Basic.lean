/-
  PropertyGraph.Config.Basic

  The configuration of a server: where it listens, and which suites it puts together,
  each with the types that it owns and the backend that keeps its graph.  A backend is
  told apart by its field `kind`; its other fields are taken in as values before they
  are looked at.
-/
import PropertyGraph.Entity.Codec

namespace PropertyGraph.Config

open Json (Tree Decoded Record)

/-- What keeps the graph of a suite. -/
inductive Backend where
  | memory (idPrefix : Option String)
  | snapshot (path : String) (idPrefix : Option String)
  | filesystem (root : String) (idPrefix : Option String) (rawTextTypes : List String)
  | remote (url : String)
deriving DecidableEq, Repr

/-- A suite with a name and the types that it owns. -/
structure Member where
  name : String
  nodeTypes : List String
  relationshipTypes : List String
  backend : Backend
deriving DecidableEq, Repr

/-- The configuration of a server. -/
structure Settings where
  address : String
  port : Nat
  suites : List Member
deriving DecidableEq, Repr

/-- A list of texts as JSON. -/
def textsJson (texts : List String) : Json := .array (texts.map .string)

/-! ## Backends -/

namespace Backend

/-- An optional text as JSON. -/
def prefixJson (idPrefix : Option String) : Json :=
  match idPrefix with
  | some s => .string s
  | none => .null

/-- A backend as JSON. -/
def toJson : Backend → Json
  | .memory idPrefix => .object [("kind", .string "memory"), ("id_prefix", prefixJson idPrefix)]
  | .snapshot path idPrefix =>
    .object [("kind", .string "snapshot"), ("path", .string path),
      ("id_prefix", prefixJson idPrefix)]
  | .filesystem root idPrefix types =>
    .object [("kind", .string "filesystem"), ("root", .string root),
      ("id_prefix", prefixJson idPrefix), ("raw_text_types", textsJson types)]
  | .remote url => .object [("kind", .string "remote"), ("url", .string url)]

/-- The fields of the backends of a kind. -/
def recordOf : String → Option (Record Backend)
  | "memory" => some (.map .memory (.optional "id_prefix" Tree.toText))
  | "snapshot" =>
    some (.map (fun (path, idPrefix) => .snapshot path idPrefix)
      (.both (.required "path" Tree.toText) (.optional "id_prefix" Tree.toText)))
  | "filesystem" =>
    some (.map (fun (root, idPrefix, types) => .filesystem root idPrefix types)
      (.both (.required "root" Tree.toText)
        (.both (.optional "id_prefix" Tree.toText)
          (.withDefault "raw_text_types" (Tree.toList Tree.toText) []))))
  | "remote" => some (.map .remote (.required "url" Tree.toText))
  | _ => none

/-- The tree of the value of a tree. -/
def settled (t : Tree) : Decoded Tree := t.toJson.map Tree.ofJson

/-- The fields of a backend as values, beside its kind. -/
def settledEntries : List (Option String × Tree) → Decoded (List (Option String × Tree))
  | [] => .ok []
  | (key, t) :: rest => do
    let t ← if key = some "kind" then pure t else settled t
    let more ← settledEntries rest
    .ok ((key, t) :: more)

/-- Reads a backend from an object or an array. -/
def decode : Tree → Decoded Backend
  | .object entries closed => do
    let entries ← settledEntries entries
    match entries.filter fun e => e.1 == some "kind" with
    | [(_, kind)] =>
      match recordOf (← kind.toText) with
      | some record => record.ofEntries .skipped (entries.filter fun e => e.1 != some "kind") closed
      | none => .error .misfit
    | _ => .error .misfit
  | .array (kind :: fields) closed => do
    let fields ← fields.mapM settled
    match recordOf (← kind.toText) with
    | some record => record.ofItems fields closed
    | none => .error .misfit
  | _ => .error .misfit

end Backend

/-! ## Suites and servers -/

/-- Whether records may be given by the places of their fields. -/
inductive Fields where
  | named
  | namedOrPlaced
deriving DecidableEq, Repr

/-- Reads a record in the way that is admitted. -/
def Fields.decode {α : Type} : Fields → Record α → Tree → Decoded α
  | .named, record => record.decodeNamed
  | .namedOrPlaced, record => record.decode

namespace Member

/-- A suite as JSON. -/
def toJson (s : Member) : Json :=
  .object [("name", .string s.name), ("node_types", textsJson s.nodeTypes),
    ("relationship_types", textsJson s.relationshipTypes), ("backend", s.backend.toJson)]

/-- The fields of a suite. -/
def record : Record Member :=
  .map (fun (name, nodeTypes, relationshipTypes, backend) =>
      { name, nodeTypes, relationshipTypes, backend })
    (.both (.required "name" Tree.toText)
      (.both (.withDefault "node_types" (Tree.toList Tree.toText) [])
        (.both (.withDefault "relationship_types" (Tree.toList Tree.toText) [])
          (.required "backend" Backend.decode))))

end Member

namespace Settings

/-- A server on this host without suites. -/
def default : Settings := ⟨"127.0.0.1", 8080, []⟩

/-- A server as JSON. -/
def toJson (s : Settings) : Json :=
  .object [("address", .string s.address), ("port", Json.ofInt s.port),
    ("suites", .array (s.suites.map Member.toJson))]

/-- Reads a port, a number of 16 bits. -/
def decodePort (t : Tree) : Decoded Nat := (t.toIntIn 0 65535).map Int.toNat

/-- The fields of a server; what is absent stands as in the default. -/
def record (fields : Fields) : Record Settings :=
  .map (fun (address, port, suites) => { address, port, suites })
    (.both (.withDefault "address" Tree.toText default.address)
      (.both (.withDefault "port" decodePort default.port)
        (.withDefault "suites" (Tree.toList (fields.decode Member.record)) default.suites)))

/-- Reads a server. -/
def decode (fields : Fields) : Tree → Decoded Settings := fields.decode (record fields)

end Settings

end PropertyGraph.Config
