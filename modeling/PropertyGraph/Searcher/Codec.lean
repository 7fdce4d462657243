/-
  PropertyGraph.Searcher.Codec

  Searchers as JSON.  A searcher is an object whose field `kind` names its form, beside
  the fields of that form; it may also be an array of the kind and the fields.  The whole
  object is taken in before its fields are looked at, except that an unknown kind is
  noticed where it stands.  Below the outermost searcher a kind may also be given by its
  number.
-/
import PropertyGraph.Searcher.Basic

namespace PropertyGraph

open Json (Tree Decoded Record Fault)

/-! ## Writing -/

namespace Searcher

mutual

/-- A searcher as JSON. -/
def toJson : Searcher → Json
  | .always => .object [("kind", .string "true")]
  | .never => .object [("kind", .string "false")]
  | .typeEq type => .object [("kind", .string "typeEq"), ("type", .string type)]
  | .propertyEq path value =>
    .object [("kind", .string "propertyEq"), ("path", .string path), ("value", value)]
  | .all searchers => .object [("kind", .string "and"), ("searchers", .array (toItems searchers))]
  | .any searchers => .object [("kind", .string "or"), ("searchers", .array (toItems searchers))]
  | .not searcher => .object [("kind", .string "not"), ("searcher", toJson searcher)]
  | .extension name args =>
    .object [("kind", .string "extension"), ("name", .string name), ("args", args)]

/-- Searchers as the items of an array. -/
def toItems : List Searcher → List Json
  | [] => []
  | s :: rest => toJson s :: toItems rest

end

/-! ## Reading -/

/-- The forms of a searcher. -/
inductive Kind where
  | always
  | never
  | typeEq
  | propertyEq
  | all
  | any
  | not
  | extension
deriving DecidableEq, Repr

/-- The kinds by name, in order. -/
def kinds : Entries Kind :=
  [("true", .always), ("false", .never), ("typeEq", .typeEq), ("propertyEq", .propertyEq),
    ("and", .all), ("or", .any), ("not", .not), ("extension", .extension)]

/-- Reads a kind, by its name or, where `byNumber` admits it, by its number. -/
def Kind.decode (byNumber : Bool) (t : Tree) : Decoded Kind :=
  match t, byNumber with
  | .number (some (.integer i)), true =>
    if i < 0 then .error .misfit
    else match kinds.values[i.toNat]? with
      | some k => .ok k
      | none => .error .misfit
  | t, _ => do
    match kinds.get? (← t.toText) with
    | some k => .ok k
    | none => .error .misfit

/-- A field whose value may be wanted as a searcher, as searchers or as it is.  Each view is
    computed only when it is asked for. -/
structure Views where
  tree : Tree
  one : Unit → Decoded Searcher
  many : Unit → Decoded (List Searcher)

/-- The only field of a name; its absence and its repetition are misfits. -/
def single (name : String) (fields : List (String × Views)) : Decoded Views :=
  match fields.filter (fun f => f.1 == name) with
  | [(_, v)] => .ok v
  | _ => .error .misfit

/-- Whether a field of a name is given once at most. -/
def atMostOnce (name : String) (fields : List (String × Views)) : Bool :=
  (fields.filter (fun f => f.1 == name)).length ≤ 1

/-- The searcher of a kind with the given fields. -/
def build (kind : Kind) (fields : List (String × Views)) : Decoded Searcher := do
  match kind with
  | .always => .ok .always
  | .never => .ok .never
  | .typeEq => .ok (.typeEq (← (← single "type" fields).tree.toText))
  | .propertyEq =>
    let path ← (← single "path" fields).tree.toText
    let value ← (← single "value" fields).tree.toJson
    .ok (.propertyEq path value)
  | .all => .ok (.all (← (← single "searchers" fields).many ()))
  | .any => .ok (.any (← (← single "searchers" fields).many ()))
  | .not => .ok (.not (← (← single "searcher" fields).one ()))
  | .extension =>
    let name ← (← single "name" fields).tree.toText
    match fields.filter (fun f => f.1 == "args") with
    | [] => .ok (.extension name .null)
    | [(_, v)] => .ok (.extension name (← v.tree.toJson))
    | _ => .error .misfit

/-- The fields of a kind in their order, and how many of them must be given. -/
def fieldNames : Kind → List String × Nat
  | .always | .never => ([], 0)
  | .typeEq => (["type"], 1)
  | .propertyEq => (["path", "value"], 2)
  | .all | .any => (["searchers"], 1)
  | .not => (["searcher"], 1)
  | .extension => (["name", "args"], 1)

/-- The searcher of a kind with the fields in their order. -/
def buildPlaces (kind : Kind) (views : List Views) : Decoded Searcher :=
  let (names, _) := fieldNames kind
  if names.length < views.length then .error .misfit else build kind (names.zip views)

/-- Takes in the entries of an object in order, up to the first fault: the kind is read
    where it stands, all else is checked to be a value. -/
def scanKind (byNumber : Bool) :
    Option Kind → List (Option String × Tree) → Decoded (Option Kind)
  | kind, [] => .ok kind
  | _, (none, _) :: _ => .error .malformed
  | kind, (some key, t) :: rest =>
    if key = "kind" then
      if kind.isSome then .error .misfit
      else do scanKind byNumber (some (← Kind.decode byNumber t)) rest
    else do
      let _ ← t.toJson
      scanKind byNumber kind rest

/-- The kind of an object, once all its entries have been taken in. -/
def kindOfEntries (byNumber : Bool) (entries : List (Option String × Tree)) (closed : Bool) :
    Decoded Kind := do
  let kind ← scanKind byNumber none entries
  if !closed then .error .malformed
  else match kind with
    | some k => .ok k
    | none => .error .misfit

/-- The kind of an array, once all its items have been taken in. -/
def kindOfItems (byNumber : Bool) (items : List Tree) (closed : Bool) : Decoded Kind := do
  match items with
  | [] => .error (if closed then .misfit else .malformed)
  | t :: rest =>
    let kind ← Kind.decode byNumber t
    let _ ← Tree.toItems rest
    if closed then .ok kind else .error .malformed

mutual

/-- Reads a searcher; `byNumber` tells whether its kind may be given by number. -/
def decodeAt (byNumber : Bool) : Tree → Decoded Searcher
  | .object entries closed =>
    match kindOfEntries byNumber entries closed with
    | .error fault => .error fault
    | .ok kind => (build kind (fieldViews entries)).mapError fun _ => .misfit
  | .array items closed =>
    match kindOfItems byNumber items closed with
    | .error fault => .error fault
    | .ok kind => (buildPlaces kind (itemViews items).tail).mapError fun _ => .misfit
  | .tooDeep _ => .error .malformed
  | t => .error t.mismatch

/-- Reads the searchers of an array, all of which have been taken in before. -/
def decodeMany : Tree → Decoded (List Searcher)
  | .array items true => decodeItems items
  | _ => .error .misfit

/-- Reads searchers one by one. -/
def decodeItems : List Tree → Decoded (List Searcher)
  | [] => .ok []
  | t :: rest =>
    match decodeAt true t with
    | .error fault => .error fault
    | .ok s =>
      match decodeItems rest with
      | .error fault => .error fault
      | .ok more => .ok (s :: more)

/-- The entries of an object with the views of their values. -/
def fieldViews : List (Option String × Tree) → List (String × Views)
  | [] => []
  | (none, _) :: rest => fieldViews rest
  | (some key, t) :: rest =>
    (key, ⟨t, fun _ => decodeAt true t, fun _ => decodeMany t⟩) :: fieldViews rest

/-- The items of an array with their views. -/
def itemViews : List Tree → List Views
  | [] => []
  | t :: rest => ⟨t, fun _ => decodeAt true t, fun _ => decodeMany t⟩ :: itemViews rest

end

/-- Reads a searcher. -/
def decode : Tree → Decoded Searcher := decodeAt false

end Searcher

/-! ## Arguments of the adjacency extension -/

/-- What the adjacency extension is asked. -/
structure Adjacency where
  node : Id
  which : Side

/-- Reads the name of an endpoint. -/
def Side.decode : Tree → Decoded Side := Tree.toName Side.named

/-- Reads the arguments of an adjacency. -/
def Adjacency.decode : Tree → Decoded Adjacency :=
  (Record.map (fun (node, which) => ({ node, which } : Adjacency))
    (.both (.required "nodeId" Id.decode) (.required "which" Side.decode))).decode

end PropertyGraph
