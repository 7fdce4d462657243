/-
  PropertyGraph.Config.Load

  Configurations from texts and files.  The extension of a file tells its format, in lower
  case only; a file that cannot be read is reported as such whatever its extension.
-/
import PropertyGraph.Config.Basic
import PropertyGraph.Storage.FileProgram
import PropertyGraph.Yaml.Node

namespace PropertyGraph.Config

open Json (Tree)

/-- The formats of a configuration. -/
inductive Format where
  | yaml
  | json
deriving DecidableEq, Repr

/-- The format of a file, by the extension of its name. -/
def Format.ofPath? (path : String) : Option Format :=
  match FilePath.extension? path with
  | some "yaml" | some "yml" => some .yaml
  | some "json" => some .json
  | _ => none

namespace Settings

/-- The configuration in a tree, if a text had one. -/
def ofTree? (fields : Fields) (tree : Option Tree) : Outcome Settings :=
  match tree.map (decode fields) with
  | some (.ok config) => .ok config
  | _ => .error (.config .malformed)

/-- The configuration in a text.  In YAML records have their fields named. -/
def ofText : Format → String → Outcome Settings
  | .yaml, text => ofTree? .named (Yaml.ofText text)
  | .json, text => ofTree? .namedOrPlaced (some (Tree.ofText text))

/-- The configuration in a file. -/
def load (path : String) : FileTask Settings := do
  let text ← FileTask.request (.read path) fun
    | .text s => .ok s
    | _ => .error (.config (.unreadable path))
  match Format.ofPath? path with
  | some format => FileTask.ofOutcome (ofText format text)
  | none => throw (.config (.unknownFormat path))

end Settings

end PropertyGraph.Config
