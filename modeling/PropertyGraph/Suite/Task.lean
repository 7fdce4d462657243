/-
  PropertyGraph.Suite.Task

  Tasks that make several calls to a suite, each on the suite as the calls before have
  left it, and the two that every suite offers: creating a node like another one, and
  creating one to be filled in later.
-/
import PropertyGraph.Suite.Basic

namespace PropertyGraph

open Json (Decoded)

/-- A task that makes calls to a suite. -/
abbrev SuiteTask (α : Type) := ExceptT Failure (StateT Suite FileProgram) α

namespace SuiteTask

/-- Makes one call. -/
def ask (stamp : Stamp) (call : Call) : SuiteTask call.Reply :=
  ExceptT.mk fun suite => suite.answer stamp call

/-- Goes on with something decoded. -/
def ofDecoded {α : Type} : Decoded α → SuiteTask α
  | .ok a => pure a
  | .error _ => throw .malformed

/-- Runs a task on a suite. -/
def runOn {α : Type} (task : SuiteTask α) (suite : Suite) :
    FileProgram (Outcome α × Suite) :=
  task.run suite

/-- The type of a node that is to be filled in later. -/
def emptyType : String := "Untyped"

/-- Creates a node with the type and the bag of another one. -/
def duplicate (stamp : Stamp) (id : Id) : SuiteTask Node := do
  match (← ask stamp (.get .node id) : Option Node) with
  | none => throw (.notFound .node id)
  | some source => ask stamp (.create .node (Body.node source.type source.properties))

/-- Creates a node to be filled in later. -/
def createEmpty (stamp : Stamp) : SuiteTask Node :=
  ask stamp (.create .node (Body.node emptyType []))

end SuiteTask

end PropertyGraph
