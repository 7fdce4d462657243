/-
  PropertyGraph.Searcher.Basic

  Predicates over entities.  A searcher is a tree of a few leaves (always, never, a type,
  the value at a path) under conjunction, disjunction and negation; an extension is a
  leaf whose meaning is given elsewhere, by its name and arguments.
-/
import PropertyGraph.Entity.Codec
import PropertyGraph.PropertyPath

namespace PropertyGraph

/-- A predicate over entities. -/
inductive Searcher where
  | always
  | never
  | typeEq (type : String)
  /-- the value at a path has the same text as the given one -/
  | propertyEq (path : String) (value : Json)
  | all (searchers : List Searcher)
  | any (searchers : List Searcher)
  | not (searcher : Searcher)
  | extension (name : String) (args : Json)
deriving Repr, Inhabited

/-- Which endpoint of a relationship is meant. -/
inductive Side where
  | start
  | finish
  | both
deriving DecidableEq, Repr

namespace Searcher

/-! ## Equality -/

mutual

/-- The same searcher, values being compared up to the order of entries. -/
def same : Searcher → Searcher → Bool
  | .always, .always => true
  | .never, .never => true
  | .typeEq a, .typeEq b => a == b
  | .propertyEq p v, .propertyEq q w => p == q && v.same w
  | .all a, .all b => sameAll a b
  | .any a, .any b => sameAll a b
  | .not a, .not b => same a b
  | .extension n v, .extension m w => n == m && v.same w
  | _, _ => false

/-- The same searchers one by one. -/
def sameAll : List Searcher → List Searcher → Bool
  | [], [] => true
  | a :: as, b :: bs => same a b && sameAll as bs
  | _, _ => false

end

/-! ## Paths -/

mutual

/-- The property paths in a searcher, a node before what stands below it and from left to
    right. -/
def paths : Searcher → List String
  | .propertyEq path _ => [path]
  | .all searchers => pathsAll searchers
  | .any searchers => pathsAll searchers
  | .not searcher => paths searcher
  | _ => []

/-- The property paths in several searchers. -/
def pathsAll : List Searcher → List String
  | [] => []
  | s :: rest => paths s ++ pathsAll rest

end

/-- Reads paths one by one and stops at the first that cannot be read. -/
def readPaths : List String → Outcome (List (String × PropertyPath))
  | [] => .ok []
  | p :: rest => do
    let path ← PropertyPath.read p
    let more ← readPaths rest
    .ok ((p, path) :: more)

/-- Checks every path in a searcher without evaluating anything. -/
def checkPaths (s : Searcher) : Outcome Unit := (readPaths s.paths).map fun _ => ()

/-! ## Adjacency -/

/-- The name of the extension that looks at the endpoints of a relationship. -/
def adjacencyName : String := "adjacency"

end Searcher

/-- The name of an endpoint. -/
def Side.name : Side → String
  | .start => "start"
  | .finish => "end"
  | .both => "both"

/-- The endpoint of a name. -/
def Side.named : String → Option Side
  | "start" => some .start
  | "end" => some .finish
  | "both" => some .both
  | _ => none

/-- The relationships that touch a node at the given end. -/
def Searcher.adjacency (node : Id) (which : Side) : Searcher :=
  .extension adjacencyName (.object [("nodeId", node.value), ("which", .string which.name)])

end PropertyGraph
