/-
  PropertyGraph.Storage.FilePath

  Paths of files as texts: names with slashes between them, absolute when the first sign
  is a slash.  Here are the operations on the text alone: putting a name below a path,
  finding the last name of a path, and exchanging its extension.
-/

namespace PropertyGraph.FilePath

/-- A path below another; an absolute path stands for itself. -/
def join (base name : String) : String :=
  if name.startsWith "/" then name
  else if base.isEmpty || base.endsWith "/" then base ++ name
  else base ++ "/" ++ name

/-- The names of a path, including the empty ones around slashes at its ends. -/
def parts (cs : List Char) : List (List Char) :=
  match cs with
  | [] => [[]]
  | c :: rest =>
    if c = '/' then [] :: parts rest
    else match parts rest with
      | [] => [[c]]
      | p :: more => (c :: p) :: more

/-- Whether a path starts at the root. -/
def isAbsolute (path : String) : Bool := path.startsWith "/"

/-- Drops, from a path in reverse, what follows its last name: slashes, and points that
    stand for the directory itself. -/
def dropTail : List Char → List Char
  | '/' :: rest => dropTail rest
  | '.' :: '/' :: rest => dropTail rest
  | cs => cs

/-- What stands before the last name of a path, and the last name, if it names a file. -/
def split? (path : String) : Option (String × String) :=
  let back := dropTail path.toList.reverse
  let name := (back.takeWhile (· != '/')).reverse
  if name.isEmpty || name = ['.'] || name = ['.', '.'] then none
  else some (String.ofList (back.dropWhile (· != '/')).reverse, String.ofList name)

/-- The stem and the extension of a name: what stands before and after its last point.  A
    point at the start makes no extension. -/
def stemAndExtension (name : String) : String × Option String :=
  let back := name.toList.reverse
  let after := back.takeWhile (· != '.')
  match back.dropWhile (· != '.') with
  | [] | [_] => (name, none)
  | _ :: stem => (String.ofList stem.reverse, some (String.ofList after.reverse))

/-- The extension of the last name of a path. -/
def extension? (path : String) : Option String :=
  (split? path).bind fun (_, name) => (stemAndExtension name).2

/-- The path with another extension.  A path without a last name stays as it is; a stem
    that is a single point is taken for the directory above. -/
def withExtension (path extension : String) : String :=
  match split? path with
  | none => path
  | some (base, name) =>
    match stemAndExtension name with
    | (".", some _) => base ++ ".."
    | (stem, _) => base ++ stem ++ "." ++ extension

/-- The path of the directory that holds the last name of a path, if there is one above. -/
def parent? (path : String) : Option String :=
  let back := dropTail path.toList.reverse
  if back.isEmpty then none
  else
    let above := back.dropWhile (· != '/')
    let trimmed := dropTail above
    if trimmed.isEmpty && !above.isEmpty then some "/"
    else some (String.ofList trimmed.reverse)

end PropertyGraph.FilePath
