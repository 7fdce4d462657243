/-
  PropertyGraph.Storage.Catalog

  All entities of one class below a root: a document for each type, an index that tells
  the type of each identity, and the ascending list of types.  A lookup by identity goes
  through the index; what the index says and the document lacks is not found.
-/
import PropertyGraph.Storage.Document
import PropertyGraph.Storage.Naming

namespace PropertyGraph.Catalog

open Json (Tree)

/-! ## Type lists -/

/-- The place at which a halving search of a list ends: the list is halved until one place
    is left, the half behind an item being kept unless that item is greater. -/
def halve (types : List String) (type : String) : Nat → Nat → Nat → Nat
  | 0, base, _ => base
  | fuel + 1, base, size =>
    if size ≤ 1 then base
    else
      let half := size / 2
      let base := match types[base + half]? with
        | some t => if type < t then base else base + half
        | none => base
      halve types type fuel base (size - half)

/-- A list of types with a further one at its place.  The list is searched as an ascending
    one; a type that the search finds is not added again. -/
def addType (types : List String) (type : String) : Option (List String) :=
  let base := halve types type types.length 0 types.length
  match types[base]? with
  | none => some [type]
  | some t =>
    if t = type then none
    else some (types.insertIdx (if t < type then base + 1 else base) type)

/-! ## Reading -/

/-- All types that have a document. -/
def types (root : String) (c : EntityClass) : FileTask (List String) :=
  Document.read (Naming.typeListPath root c) (Tree.toList Tree.toText) []

/-- The types of all identities. -/
def index (root : String) (c : EntityClass) : FileTask (Entries String) :=
  Document.read (Naming.indexPath root c) (Tree.toMap Tree.toText) []

/-- The type of an identity. -/
def typeOf (root : String) (c : EntityClass) (key : String) : FileTask (Option String) := do
  return Entries.get? key (← index root c)

/-- All entities of a type, in the order of their document. -/
def load (root : String) (c : EntityClass) (type : String) : FileTask (List (Entity c)) := do
  FileTask.ofOutcome (Naming.checkType type)
  Document.read (Naming.documentPath root type c) (Tree.toList Entity.decode) []

/-- The first entity of an identity. -/
def find {c : EntityClass} (id : Id) (entities : List (Entity c)) : Option (Entity c) :=
  entities.find? fun e => e.id.same id

/-- The entity of an identity, if there is one. -/
def get (root : String) (c : EntityClass) (id : Id) : FileTask (Option (Entity c)) := do
  let key ← FileTask.ofOutcome id.requireText
  match ← typeOf root c key with
  | none => return none
  | some type => return find id (← load root c type)

/-- The entity of an identity, which must be there, and the type it is kept under. -/
def locate (root : String) (c : EntityClass) (id : Id) : FileTask (String × Entity c) := do
  let key ← FileTask.ofOutcome id.requireText
  match ← typeOf root c key with
  | none => throw (.notFound c id)
  | some type =>
    match find id (← load root c type) with
    | some e => return (type, e)
    | none => throw (.notFound c id)

/-! ## Writing -/

/-- Writes the document of a type. -/
def store (root : String) {c : EntityClass} (type : String) (entities : List (Entity c)) :
    FileTask Unit :=
  Document.write (Naming.documentPath root type c) (.array (entities.map Entity.toJson))

/-- Writes the index. -/
def storeIndex (root : String) (c : EntityClass) (entries : Entries String) : FileTask Unit :=
  Document.write (Naming.indexPath root c)
    (.object (entries.map fun (key, type) => (key, .string type)))

/-- Records the type of an identity, and the type itself. -/
def record (root : String) (c : EntityClass) (key type : String) : FileTask Unit := do
  storeIndex root c ((← index root c).insert key type)
  match addType (← types root c) type with
  | some types => Document.write (Naming.typeListPath root c) (.array (types.map .string))
  | none => return ()

/-- Appends a new entity to the document of its type. -/
def insert (root : String) {c : EntityClass} (entity : Entity c) : FileTask Unit := do
  FileTask.ofOutcome (Naming.checkType entity.type)
  let key ← FileTask.ofOutcome entity.id.requireText
  let entities ← load root c entity.type
  store root entity.type (entities ++ [entity])
  record root c key entity.type

/-- The entities with a changed one in place of the first of its identity, else at the end. -/
def replaceFirst {c : EntityClass} (entity : Entity c) : List (Entity c) → List (Entity c)
  | [] => [entity]
  | e :: rest => if e.id.same entity.id then entity :: rest else e :: replaceFirst entity rest

/-- Writes a changed entity that was kept under `old`; under another type it moves to the
    document of that type. -/
def put (root : String) {c : EntityClass} (old : String) (entity : Entity c) : FileTask Unit := do
  FileTask.ofOutcome (Naming.checkType entity.type)
  let entities ← load root c old
  if entity.type = old then store root old (replaceFirst entity entities)
  else
    store root old (entities.filter fun e => !e.id.same entity.id)
    insert root entity

/-- The entities without the first of an identity. -/
def removeFirst {c : EntityClass} (id : Id) : List (Entity c) → List (Entity c)
  | [] => []
  | e :: rest => if e.id.same id then rest else e :: removeFirst id rest

/-- Removes an entity from its document and from the index.  Its entry in the index goes
    even if the document lacks it. -/
def remove (root : String) (c : EntityClass) (id : Id) : FileTask (Entity c) := do
  let key ← FileTask.ofOutcome id.requireText
  let entries ← index root c
  match entries.get? key with
  | none => throw (.notFound c id)
  | some type =>
    let entities ← load root c type
    match find id entities with
    | some e =>
      store root type (removeFirst id entities)
      storeIndex root c (entries.erase key)
      return e
    | none =>
      storeIndex root c (entries.erase key)
      throw (.notFound c id)

end PropertyGraph.Catalog
