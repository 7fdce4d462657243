/-
  PropertyGraph.Transport.Wire

  Calls and replies as they travel: a call is a method and a JSON body, a reply is JSON.
  A call that returns nothing replies null.
-/
import PropertyGraph.Call

namespace PropertyGraph

open Json (Tree Decoded Record)

/-! ## Methods -/

/-- The methods of a server, one for each kind of call and class. -/
inductive Method where
  | get (c : EntityClass)
  | search (c : EntityClass)
  | create (c : EntityClass)
  | edit (c : EntityClass)
  | remove (c : EntityClass)
  | types (c : EntityClass)
deriving DecidableEq, Repr

/-- The name of a method. -/
def Method.name : Method → String
  | .get .node => "getNode"
  | .get .relationship => "getRelationship"
  | .search .node => "searchNodes"
  | .search .relationship => "searchRelationships"
  | .create .node => "createNode"
  | .create .relationship => "createRelationship"
  | .edit .node => "editNode"
  | .edit .relationship => "editRelationship"
  | .remove .node => "removeNode"
  | .remove .relationship => "removeRelationship"
  | .types .node => "getNodeTypes"
  | .types .relationship => "getRelationshipTypes"

/-- All methods. -/
def Method.all : List Method :=
  [EntityClass.node, .relationship].flatMap fun c =>
    [.get c, .search c, .create c, .edit c, .remove c, .types c]

/-- The method of a name. -/
def Method.named (name : String) : Option Method := Method.all.find? fun m => m.name == name

/-- The method of a call. -/
def Call.method : Call → Method
  | .get c _ => .get c
  | .search c _ => .search c
  | .create c _ => .create c
  | .edit c _ _ => .edit c
  | .remove c _ => .remove c
  | .types c => .types c

/-! ## Calls -/

/-- A request about one identity. -/
def idRequest (id : Id) : Json := .object [("id", id.value)]

/-- Reads a request about one identity. -/
def decodeIdRequest : Tree → Decoded Id := (Record.required "id" Id.decode).decode

/-- A request for a search. -/
def searchRequest (s : Searcher) : Json := .object [("searcher", s.toJson)]

/-- Reads a request for a search. -/
def decodeSearchRequest : Tree → Decoded Searcher :=
  (Record.required "searcher" Searcher.decode).decode

/-- A request for a change: the identity beside the parts of the patch. -/
def editRequest {c : EntityClass} (id : Id) (patch : Patch c) : Json :=
  .object (("id", id.value) :: patch.entries)

/-- Takes in the entries of a request for a change: the identity, and all else as values. -/
def splitEdit : Option Id → List (Option String × Tree) →
    Decoded (Option Id × List (Option String × Tree))
  | id, [] => .ok (id, [])
  | _, (none, _) :: _ => .error .malformed
  | id, (some key, t) :: rest =>
    if key = "id" then
      if id.isSome then .error .misfit
      else do splitEdit (some (← Id.decode t)) rest
    else do
      let _ ← t.toJson
      let (id, more) ← splitEdit id rest
      .ok (id, (some key, t) :: more)

/-- Reads a request for a change, which must be an object. -/
def decodeEditRequest (c : EntityClass) : Tree → Decoded (Id × Patch c)
  | .object entries closed => do
    let (id, others) ← splitEdit none entries
    if !closed then .error .malformed
    else match id with
      | none => .error .misfit
      | some id =>
        match (Patch.record c).ofEntries .skipped others true with
        | .ok patch => .ok (id, patch)
        | .error _ => .error .misfit
  | .tooDeep _ => .error .malformed
  | t => .error t.mismatch

/-- The body of a call. -/
def Call.body : Call → Json
  | .get _ id => idRequest id
  | .search _ s => searchRequest s
  | .create _ b => b.toJson
  | .edit _ id patch => editRequest id patch
  | .remove _ id => idRequest id
  | .types _ => .object []

/-- The call of a method with a body. -/
def Method.decode : Method → Tree → Decoded Call
  | .get c, t => (decodeIdRequest t).map (.get c)
  | .search c, t => (decodeSearchRequest t).map (.search c)
  | .create c, t => (Body.decode t).map (.create c)
  | .edit c, t => (decodeEditRequest c t).map fun (id, patch) => .edit c id patch
  | .remove c, t => (decodeIdRequest t).map (.remove c)
  | .types c, _ => .ok (.types c)

/-! ## Replies -/

/-- A reply as JSON. -/
def Call.encodeReply : (call : Call) → call.Reply → Json
  | .get _ _, (e : Option (Entity _)) => match e with
    | some e => e.toJson
    | none => .null
  | .search _ _, (es : List (Entity _)) => .array (es.map Entity.toJson)
  | .create _ _, (e : Entity _) => e.toJson
  | .edit _ _ _, (e : Entity _) => e.toJson
  | .remove _ _, _ => .null
  | .types _, (ts : List String) => .array (ts.map .string)

/-- Reads the reply to a call; where nothing is expected, any value will do. -/
def Call.decodeReply : (call : Call) → Tree → Decoded call.Reply
  | .get _ _, t => Tree.toOption Entity.decode t
  | .search _ _, t => Tree.toList Entity.decode t
  | .create _ _, t => Entity.decode t
  | .edit _ _ _, t => Entity.decode t
  | .remove _ _, t => t.toJson.map fun _ => ()
  | .types _, t => Tree.toList Tree.toText t

end PropertyGraph
