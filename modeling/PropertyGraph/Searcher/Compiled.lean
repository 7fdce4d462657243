/-
  PropertyGraph.Searcher.Compiled

  Testing entities against a searcher.  All paths of the searcher are read first, so that
  a bad path is reported before any entity is seen, wherever in the searcher it stands.
  Conjunctions and disjunctions are then evaluated from left to right and stop at the
  first part that decides; a part that is not reached cannot fail.
-/
import PropertyGraph.Searcher.Codec

namespace PropertyGraph

open Json (Tree)

variable {c : EntityClass}

/-! ## Extensions -/

/-- Gives extensions their meaning: the name, the arguments and the entity to test. -/
abbrev Evaluator (c : EntityClass) := String → Json → Entity c → Outcome Bool

/-- Whether a relationship touches a node at the given end. -/
def Adjacency.touches (args : Adjacency) (ends : Endpoints) : Bool :=
  match args.which with
  | .start => ends.startId.same args.node
  | .finish => ends.endId.same args.node
  | .both => ends.startId.same args.node || ends.endId.same args.node

/-- Knows adjacency, for relationships, and no other extension. -/
def Evaluator.builtin : Evaluator c := fun name args entity =>
  if name = Searcher.adjacencyName then
    match entity.endpoints? with
    | none =>
      .error (.unsupported
        (Searcher.adjacencyName ++ " applies to relationships, not " ++ c.name ++ "s"))
    | some ends =>
      match Adjacency.decode (.ofJson args) with
      | .ok args => .ok (args.touches ends)
      | .error _ => .error .malformed
  else .error (.unsupported name)

/-- Knows `hasKey` with a text: whether the bag has an entry under that key.  All else is
    left to `Evaluator.builtin`. -/
def Evaluator.hasKey : Evaluator c := fun name args entity =>
  match name, args with
  | "hasKey", .string key => .ok (Entries.contains key entity.properties)
  | _, _ => Evaluator.builtin name args entity

/-! ## Compiled searchers -/

/-- A searcher whose paths have been read. -/
structure CompiledSearcher (c : EntityClass) where
  searcher : Searcher
  paths : Entries PropertyPath
  evaluator : Evaluator c

/-- Reads the paths of a searcher. -/
def Searcher.compile (evaluator : Evaluator c) (searcher : Searcher) :
    Outcome (CompiledSearcher c) := do
  let paths ← Searcher.readPaths searcher.paths
  .ok { searcher, paths, evaluator }

namespace CompiledSearcher

mutual

/-- Evaluates a searcher with a table of its paths. -/
def eval (evaluator : Evaluator c) (paths : Entries PropertyPath) (entity : Entity c) :
    Searcher → Outcome Bool
  | .always => .ok true
  | .never => .ok false
  | .typeEq type => .ok (entity.type == type)
  | .propertyEq path value =>
    match Entries.get? path paths with
    | none => .error (.path path .unread)
    | some p => .ok (Json.canonical (p.select entity.properties) == Json.canonical (some value))
  | .all searchers => evalAll evaluator paths entity searchers
  | .any searchers => evalAny evaluator paths entity searchers
  | .not searcher => (eval evaluator paths entity searcher).map (!·)
  | .extension name args => evaluator name args entity

/-- Whether all searchers hold; stops at the first that does not. -/
def evalAll (evaluator : Evaluator c) (paths : Entries PropertyPath) (entity : Entity c) :
    List Searcher → Outcome Bool
  | [] => .ok true
  | s :: rest =>
    match eval evaluator paths entity s with
    | .error failure => .error failure
    | .ok false => .ok false
    | .ok true => evalAll evaluator paths entity rest

/-- Whether some searcher holds; stops at the first that does. -/
def evalAny (evaluator : Evaluator c) (paths : Entries PropertyPath) (entity : Entity c) :
    List Searcher → Outcome Bool
  | [] => .ok false
  | s :: rest =>
    match eval evaluator paths entity s with
    | .error failure => .error failure
    | .ok true => .ok true
    | .ok false => evalAny evaluator paths entity rest

end

/-- Whether an entity matches. -/
def test (m : CompiledSearcher c) (entity : Entity c) : Outcome Bool :=
  eval m.evaluator m.paths entity m.searcher

/-- The entities that match, in order; stops at the first that cannot be tested. -/
def filter (m : CompiledSearcher c) : List (Entity c) → Outcome (List (Entity c))
  | [] => .ok []
  | e :: rest =>
    match m.test e with
    | .error failure => .error failure
    | .ok keep =>
      match filter m rest with
      | .error failure => .error failure
      | .ok more => .ok (if keep then e :: more else more)

end CompiledSearcher

/-- Whether an entity matches a searcher. -/
def Searcher.test (evaluator : Evaluator c) (searcher : Searcher) (entity : Entity c) :
    Outcome Bool := do
  (← searcher.compile evaluator).test entity

/-- The entities that match a searcher, in order. -/
def Searcher.filter (evaluator : Evaluator c) (searcher : Searcher) (entities : List (Entity c)) :
    Outcome (List (Entity c)) := do
  (← searcher.compile evaluator).filter entities

end PropertyGraph
