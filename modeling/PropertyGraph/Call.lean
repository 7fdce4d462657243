/-
  PropertyGraph.Call

  What every graph can be asked: lookups, searches, changes and the list of types, for
  either class.  A call is a value, and the form of its reply follows from it.  What an
  answer takes from its surroundings, unique texts and the time, comes with the call.
-/
import PropertyGraph.Searcher.Compiled

namespace PropertyGraph

/-! ## What comes from outside -/

/-- What an operation takes from its surroundings: a fresh unique text and the time. -/
structure Stamp where
  unique : String
  time : Int
deriving DecidableEq, Repr

/-- A fresh identity, with an optional text before the unique one. -/
def Id.fresh (before : Option String) (unique : String) : Id :=
  .ofString (before.getD "" ++ unique)

/-- What extensions mean for nodes and for relationships. -/
structure Evaluators where
  node : Evaluator .node
  relationship : Evaluator .relationship

namespace Evaluators

/-- The meaning of extensions that every store knows. -/
def builtin : Evaluators := ⟨Evaluator.builtin, Evaluator.builtin⟩

/-- What extensions mean for a class. -/
def forClass (evaluators : Evaluators) : (c : EntityClass) → Evaluator c
  | .node => evaluators.node
  | .relationship => evaluators.relationship

end Evaluators

/-! ## Calls -/

/-- A request to a graph. -/
inductive Call where
  | get (c : EntityClass) (id : Id)
  | search (c : EntityClass) (searcher : Searcher)
  | create (c : EntityClass) (body : Body c)
  | edit (c : EntityClass) (id : Id) (patch : Patch c)
  | remove (c : EntityClass) (id : Id)
  | types (c : EntityClass)

/-- What a graph replies to a call that succeeds. -/
def Call.Reply : Call → Type
  | .get c _ => Option (Entity c)
  | .search c _ => List (Entity c)
  | .create c _ => Entity c
  | .edit c _ _ => Entity c
  | .remove _ _ => Unit
  | .types _ => List String

end PropertyGraph
