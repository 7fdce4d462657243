/-
  PropertyGraph.Storage.Document

  Documents: JSON files that hold their payload under the key `data`.  A document that
  does not exist reads as a given payload; one that is there must be well formed.
-/
import PropertyGraph.Entity.Codec
import PropertyGraph.Storage.FileProgram

namespace PropertyGraph.Document

open Json (Tree Decoded Record)

/-- The payload of a document, from its text. -/
def decode {α : Type} (payload : Tree → Decoded α) (text : String) : Outcome α :=
  match (Record.required "data" payload).decode (Tree.ofText text) with
  | .ok data => .ok data
  | .error _ => .error .malformed

/-- The text of a document. -/
def encode (data : Json) : String := (Json.object [("data", data)]).pretty

/-- Reads a document; `absent` is the payload of one that does not exist. -/
def read {α : Type} (path : String) (payload : Tree → Decoded α) (absent : α) : FileTask α := do
  match ← FileTask.read path with
  | none => pure absent
  | some text => FileTask.ofOutcome (decode payload text)

/-- Writes a document. -/
def write (path : String) (data : Json) : FileTask Unit := FileTask.replace path (encode data)

end PropertyGraph.Document
