/-
  PropertyGraph.Config.Build

  From a configuration to a dispatcher.  Every backend is made ready in order, and only
  then are names and types checked, so that an offence among them shows after the
  directories of all suites have been made.
-/
import PropertyGraph.Config.Basic
import PropertyGraph.Routing.Assembly

namespace PropertyGraph.Config

/-- The raw-text rules of a file engine that keeps the texts of some types apart. -/
def rawTextRules (types : List String) : List RawText :=
  if types.isEmpty then [] else [⟨types, RawText.defaultProperty⟩]

/-- Makes a backend ready.  A server elsewhere is not within reach of a program over
    files. -/
def Backend.ready : Backend → FileTask Suite
  | .memory idPrefix => return .store ⟨idPrefix, .builtin, .shared .empty⟩
  | .snapshot path idPrefix => return .store ⟨idPrefix, .builtin, .snapshot path⟩
  | .filesystem root idPrefix types => do
    Engine.prepare root
    return .engine ⟨root, idPrefix, rawTextRules types, .builtin⟩
  | .remote _ => return .outOfReach

namespace Settings

/-- Makes suites ready and registers them, one after the other. -/
def register (b : Assembly) : List Member → FileTask Assembly
  | [] => return b
  | s :: rest => do
    let suite ← s.backend.ready
    register (b.register s.name suite s.nodeTypes s.relationshipTypes) rest

/-- The dispatcher over all suites, of which there must be one at least. -/
def dispatcher (settings : Settings) : FileTask Suite := do
  if settings.suites.isEmpty then throw (.config .noSuites)
  FileTask.ofOutcome (← register .empty settings.suites).dispatcher

end Settings

end PropertyGraph.Config
