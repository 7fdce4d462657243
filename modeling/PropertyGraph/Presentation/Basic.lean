/-
  PropertyGraph.Presentation.Basic

  How the nodes of a type are shown: summed up in a list, and in detail.  Both are bags
  like any other and have defaults for what a bag leaves out.
-/
import PropertyGraph.Entity.Codec

namespace PropertyGraph

open Json (Tree Decoded Record)

/-- How a node is summed up in a list. -/
structure Summary where
  title : String
  fields : List String
deriving DecidableEq, Repr

/-- How one property is shown in detail. -/
structure ShownField where
  path : String
  label : Option String
  multiline : Bool
deriving DecidableEq, Repr

/-- Which properties are shown in detail; none given means all. -/
structure Details where
  fields : List ShownField
deriving DecidableEq, Repr

namespace Summary

/-- A node is summed up by its name unless its type says otherwise. -/
def default : Summary := ⟨"$.name", []⟩

/-- As JSON. -/
def toJson (m : Summary) : Json :=
  .object [("title", .string m.title), ("fields", .array (m.fields.map .string))]

/-- Reads it; what is absent stands as in the default. -/
def decode : Tree → Decoded Summary :=
  (Record.map (fun (title, fields) => ({ title, fields } : Summary))
    (.both (.withDefault "title" Tree.toText default.title)
      (.withDefault "fields" (Tree.toList Tree.toText) default.fields))).decode

end Summary

namespace ShownField

/-- As JSON. -/
def toJson (m : ShownField) : Json :=
  .object ([("path", .string m.path)] ++ optionalEntry "label" .string m.label
    ++ [("multiline", .bool m.multiline)])

/-- Reads it. -/
def decode : Tree → Decoded ShownField :=
  (Record.map (fun (path, label, multiline) => ({ path, label, multiline } : ShownField))
    (.both (.required "path" Tree.toText)
      (.both (.optional "label" Tree.toText)
        (.withDefault "multiline" Tree.toBool false)))).decode

end ShownField

namespace Details

/-- All properties are shown unless the type says otherwise. -/
def default : Details := ⟨[]⟩

/-- As JSON. -/
def toJson (m : Details) : Json :=
  .object [("fields", .array (m.fields.map ShownField.toJson))]

/-- Reads it. -/
def decode : Tree → Decoded Details :=
  (Record.map (fun fields => ({ fields } : Details))
    (.withDefault "fields" (Tree.toList ShownField.decode) default.fields)).decode

end Details

end PropertyGraph
