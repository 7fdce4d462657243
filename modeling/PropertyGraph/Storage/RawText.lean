/-
  PropertyGraph.Storage.RawText

  Long texts kept out of the documents.  For the types it covers, a raw-text rule moves
  the text of one property into a file of its own and leaves the name of that file in
  the bag, under another key at the same place; on reading, the text comes back.
-/
import PropertyGraph.Storage.FileProgram
import PropertyGraph.Storage.Naming

namespace PropertyGraph

/-- A rule that keeps the text of one property, for some types, in files of its own. -/
structure RawText where
  types : List String
  property : String
deriving DecidableEq, Repr

namespace RawText

/-- The property whose text is kept apart unless another one is named. -/
def defaultProperty : String := "content"

/-- The key under which a bag as stored names the file. -/
def fileKey : String := "contentFile"

/-- Whether the rule is about a type. -/
def covers (rule : RawText) (type : String) : Bool := rule.types.contains type

/-- A bag with the entry under `source` replaced, at its place, by `value` under `target`.
    If the bag has `target` elsewhere, the first of the two places and the later of the two
    values stay. -/
def renameEntry (source target : String) (value : Json) (bag : Bag) : Bag :=
  Entries.collapse (bag.map fun (k, v) => if k = source then (target, value) else (k, v))

/-- The bag of a node. -/
def withBag (node : Node) (bag : Bag) : Node := { node with properties := bag }

/-- Gives a node as stored its text back.  A file that does not exist reads as empty. -/
def merge (rule : RawText) (root : String) (node : Node) : FileTask Node := do
  match Entries.get? fileKey node.properties with
  | some (.string file) =>
    let text := (← FileTask.read (Naming.rawPath root file)).getD ""
    return withBag node (renameEntry fileKey rule.property (.string text) node.properties)
  | _ => return node

/-- Moves the text of a node into its file and gives the node as it is to be stored. -/
def split (rule : RawText) (root : String) (node : Node) : FileTask Node := do
  match Entries.get? rule.property node.properties with
  | some (.string text) =>
    let id ← FileTask.ofOutcome node.id.requireText
    let file := Naming.rawName id
    FileTask.makeDirectories (Naming.rawDirectory root)
    FileTask.write (Naming.rawPath root file) text
    return withBag node (renameEntry rule.property fileKey (.string file) node.properties)
  | _ => return node

/-- Removes the file that a node as stored names. -/
def discard (root : String) (node : Node) : FileTask Unit := do
  match Entries.get? fileKey node.properties with
  | some (.string file) => FileTask.remove (Naming.rawPath root file)
  | _ => return ()

end RawText

end PropertyGraph
