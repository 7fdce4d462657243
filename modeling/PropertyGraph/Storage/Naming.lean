/-
  PropertyGraph.Storage.Naming

  Where things are kept below a root directory.  Each type of each class has a document
  of its own; each class has an index from identities to types and a list of types; raw
  texts have a directory for themselves.
-/
import PropertyGraph.Failure
import PropertyGraph.Storage.FilePath

namespace PropertyGraph.Naming

/-- Whether a type can be part of a file name: it is not empty and has no slash of either
    kind and no null character. -/
def isTypeName (type : String) : Bool :=
  !type.isEmpty && type.toList.all fun c => c != '/' && c != '\\' && c != '\x00'

/-- Refuses a type that cannot be part of a file name. -/
def checkType (type : String) : Outcome Unit :=
  if isTypeName type then .ok () else .error (.typeName type)

/-- The document of a type. -/
def documentPath (root type : String) (c : EntityClass) : String :=
  FilePath.join root (type ++ "." ++ c.name ++ ".json")

/-- The index from identities to types. -/
def indexPath (root : String) (c : EntityClass) : String :=
  FilePath.join root (c.name ++ ".id2type.json")

/-- The list of types. -/
def typeListPath (root : String) (c : EntityClass) : String :=
  FilePath.join root (c.name ++ ".types.json")

/-- The name of the raw text of an entity. -/
def rawName (id : String) : String := id ++ ".txt"

/-- The directory of raw texts. -/
def rawDirectory (root : String) : String := FilePath.join root "raw"

/-- The path of a raw text by its name. -/
def rawPath (root name : String) : String := FilePath.join (rawDirectory root) name

end PropertyGraph.Naming
