/-
  PropertyGraph.Searcher.Meaning

  What a searcher says of an entity, without any preparation: each path is read where it
  is needed.  This is the yardstick for the compiled form in `Searcher.Compiled` and for the
  division by types in `Searcher.Plan`.
-/
import PropertyGraph.Searcher.Compiled

namespace PropertyGraph.Searcher

variable {c : EntityClass}

mutual

/-- Whether a searcher holds of an entity. -/
def holds (evaluator : Evaluator c) (entity : Entity c) : Searcher → Outcome Bool
  | .always => .ok true
  | .never => .ok false
  | .typeEq type => .ok (entity.type == type)
  | .propertyEq path value =>
    match PropertyPath.read path with
    | .error failure => .error failure
    | .ok p => .ok (Json.canonical (p.select entity.properties) == Json.canonical (some value))
  | .all searchers => holdsAll evaluator entity searchers
  | .any searchers => holdsAny evaluator entity searchers
  | .not searcher => (holds evaluator entity searcher).map (!·)
  | .extension name args => evaluator name args entity

/-- Whether all searchers hold, from left to right up to the first that does not. -/
def holdsAll (evaluator : Evaluator c) (entity : Entity c) : List Searcher → Outcome Bool
  | [] => .ok true
  | s :: rest =>
    match holds evaluator entity s with
    | .error failure => .error failure
    | .ok false => .ok false
    | .ok true => holdsAll evaluator entity rest

/-- Whether some searcher holds, from left to right up to the first that does. -/
def holdsAny (evaluator : Evaluator c) (entity : Entity c) : List Searcher → Outcome Bool
  | [] => .ok false
  | s :: rest =>
    match holds evaluator entity s with
    | .error failure => .error failure
    | .ok true => .ok true
    | .ok false => holdsAny evaluator entity rest

end

end PropertyGraph.Searcher
