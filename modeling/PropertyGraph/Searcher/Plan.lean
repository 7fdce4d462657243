/-
  PropertyGraph.Searcher.Plan

  Which types a searcher can match at all.  A plan either leaves all types open or names
  the types that remain, each with the searcher that is still to be checked there.  A
  conjunction narrows to the types that all its narrowing parts share and keeps, for
  each type, what every part leaves to check, in the order of the parts.  Disjunctions,
  negations and the other leaves narrow nothing.
-/
import PropertyGraph.Searcher.Basic

namespace PropertyGraph

/-- The types that a searcher can match. -/
inductive Plan where
  /-- any type; the searcher is to be checked everywhere -/
  | everyType (searcher : Searcher)
  /-- only these types, each with what is still to be checked -/
  | byType (residuals : Entries Searcher)
deriving Repr

namespace Plan

/-- Whether no type remains. -/
def isEmpty : Plan → Bool
  | .byType [] => true
  | _ => false

/-- The residuals of a plan that narrows. -/
def residuals? : Plan → Option (Entries Searcher)
  | .everyType _ => none
  | .byType residuals => some residuals

/-- What the parts of a conjunction leave to check for a type. -/
def residualsFor (type : String) : List Plan → Outcome (List Searcher)
  | [] => .ok []
  | .everyType s :: rest => do
    let more ← residualsFor type rest
    .ok (s :: more)
  | .byType residuals :: rest =>
    match Entries.get? type residuals with
    | none =>
      .error (.planning
        ("type " ++ Text.quoted type ++ " survived intersection but has no residual"))
    | some r => do
      let more ← residualsFor type rest
      .ok (r :: more)

/-- The residuals of a conjunction for the types that remain. -/
def conjoin (plans : List Plan) : List String → Outcome (Entries Searcher)
  | [] => .ok []
  | type :: rest => do
    let residuals ← residualsFor type plans
    let more ← conjoin plans rest
    .ok ((type, .all residuals) :: more)

/-- The plan of a conjunction from the plans of its parts. -/
def ofAll (whole : Searcher) (plans : List Plan) : Outcome Plan :=
  if plans.all (fun p => p.residuals?.isNone) then .ok (.everyType whole)
  else
    match plans.filterMap residuals? with
    | [] => .error (.planning "and-node without a narrowing child")
    | first :: others => do
      let types := first.keys.filter fun t => others.all (Entries.contains t)
      .ok (.byType (← conjoin plans types))

end Plan

namespace Searcher

mutual

/-- The plan of a searcher. -/
def plan : Searcher → Outcome Plan
  | .typeEq type => .ok (.byType [(type, .always)])
  | .all searchers => do Plan.ofAll (.all searchers) (← planEach searchers)
  | s => .ok (.everyType s)

/-- The plans of several searchers. -/
def planEach : List Searcher → Outcome (List Plan)
  | [] => .ok []
  | s :: rest => do
    let p ← plan s
    let more ← planEach rest
    .ok (p :: more)

end

end Searcher

end PropertyGraph
