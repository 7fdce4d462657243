/-
  PropertyGraph.Text.Sorted

  Texts in ascending order of their code points, each once.
-/

namespace PropertyGraph.Text

/-- Puts a text at its place in an ascending list; one that is there already stays single. -/
def insertSorted (s : String) : List String → List String
  | [] => [s]
  | t :: rest =>
    if s < t then s :: t :: rest
    else if s = t then t :: rest
    else t :: insertSorted s rest

/-- The texts of a list in ascending order, each once. -/
def sorted (texts : List String) : List String := texts.foldr insertSorted []

end PropertyGraph.Text
