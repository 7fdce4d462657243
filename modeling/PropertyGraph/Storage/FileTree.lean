/-
  PropertyGraph.Storage.FileTree

  A tree of directories and text files, and what it answers to requests.  A path is
  resolved name by name: every name but the last must be a directory, two points lead
  up, and a name of more than 255 bytes is refused wherever it is met.  A request that
  fails leaves the tree as it was, except that directories made on the way stay.
-/
import PropertyGraph.Storage.FilePath

namespace PropertyGraph

/-- What stands at a place in the tree. -/
inductive FileEntry where
  | directory
  | file (text : String)
deriving DecidableEq, Repr

/-- A place: the names that lead to it from the root. -/
abbrev Place := List String

/-- A tree of directories and files; `home` is where relative paths start. -/
structure FileTree where
  entries : List (Place × FileEntry)
  home : Place
deriving Repr

/-- Why a path leads nowhere. -/
inductive PathTrouble where
  /-- some name on the way does not exist -/
  | missing
  /-- anything else -/
  | refused
deriving DecidableEq, Repr

namespace FileTree

/-! ## Places -/

/-- The first entry of a place in a list. -/
def lookup (place : Place) : List (Place × FileEntry) → Option FileEntry
  | [] => none
  | (p, e) :: rest => if p = place then some e else lookup place rest

/-- What stands at a place; the root is a directory. -/
def occupant (tree : FileTree) (place : Place) : Option FileEntry :=
  if place = [] then some .directory else lookup place tree.entries

/-- Takes away what stands at a place. -/
def drop (tree : FileTree) (place : Place) : FileTree :=
  { tree with entries := tree.entries.filter fun e => e.1 ≠ place }

/-- Puts an entry at a place, instead of what stood there. -/
def put (tree : FileTree) (place : Place) (entry : FileEntry) : FileTree :=
  { tree with entries := (place, entry) :: (tree.drop place).entries }

/-! ## Resolving paths -/

/-- The longest name in bytes. -/
def maxName : Nat := 255

/-- The longest path in bytes. -/
def maxPath : Nat := 4095

/-- Follows names from a place.  The last name need not exist. -/
def locate (tree : FileTree) : Place → List String → Except PathTrouble Place
  | here, [] => .ok here
  | here, name :: rest =>
    match tree.occupant here with
    | none => .error .missing
    | some (.file _) => .error .refused
    | some .directory =>
      if name = "" ∨ name = "." then locate tree here rest
      else if name = ".." then locate tree here.dropLast rest
      else if maxName < name.utf8ByteSize then .error .refused
      else locate tree (here ++ [name]) rest

/-- Whether a path is one that the file system takes at all. -/
def admits (path : String) : Bool :=
  path.utf8ByteSize ≤ maxPath && !path.toList.contains '\x00'

/-- The names of a path. -/
def names (path : String) : List String := (FilePath.parts path.toList).map String.ofList

/-- Where a path starts. -/
def origin (tree : FileTree) (path : String) : Place :=
  if FilePath.isAbsolute path then [] else tree.home

/-- The place that a path leads to. -/
def resolve (tree : FileTree) (path : String) : Except PathTrouble Place :=
  if !admits path then .error .refused
  else if path.isEmpty then .error .missing
  else tree.locate (tree.origin path) (names path)

/-! ## Requests -/

/-- The text of the file at a path. -/
def read (tree : FileTree) (path : String) : Except PathTrouble String :=
  match tree.resolve path with
  | .error trouble => .error trouble
  | .ok place =>
    match tree.occupant place with
    | none => .error .missing
    | some .directory => .error .refused
    | some (.file text) => .ok text

/-- Writes a file, new or not; nothing when that is not possible. -/
def write? (tree : FileTree) (path text : String) : Option FileTree :=
  match tree.resolve path with
  | .error _ => none
  | .ok place =>
    if tree.occupant place = some .directory then none else some (tree.put place (.file text))

/-- Gives a file another path, in place of what stood there. -/
def rename? (tree : FileTree) (source target : String) : Option FileTree :=
  match tree.resolve source, tree.resolve target with
  | .ok old, .ok new =>
    match tree.occupant old, tree.occupant new with
    | some (.file _), some .directory => none
    | some (.file text), _ => some ((tree.drop old).put new (.file text))
    | _, _ => none
  | _, _ => none

/-- Removes a file. -/
def remove (tree : FileTree) (path : String) : Except PathTrouble FileTree :=
  match tree.resolve path with
  | .error trouble => .error trouble
  | .ok place =>
    match tree.occupant place with
    | none => .error .missing
    | some .directory => .error .refused
    | some (.file _) => .ok (tree.drop place)

/-- Makes the directories that names lead through from a place, as far as they are missing.
    The flag tells whether all of them are there in the end. -/
def makeAlong (tree : FileTree) : Place → List String → Bool × FileTree
  | _, [] => (true, tree)
  | here, name :: rest =>
    if name = "" ∨ name = "." then makeAlong tree here rest
    else if name = ".." then makeAlong tree here.dropLast rest
    else if maxName < name.utf8ByteSize then (false, tree)
    else
      match tree.occupant (here ++ [name]) with
      | some (.file _) => (false, tree)
      | some .directory => makeAlong tree (here ++ [name]) rest
      | none => makeAlong (tree.put (here ++ [name]) .directory) (here ++ [name]) rest

/-- The names of a path without the points at its end and the name before them. -/
def namesAbove (path : String) : List String :=
  (((names path).reverse.dropWhile fun name => name = "" ∨ name = ".").drop 1).reverse

/-- Whether the last name of a path is a point, which stands for the directory itself. -/
def endsInPoint (path : String) : Bool :=
  (((names path).filter (· ≠ "")).getLast?) = some "."

/-- Makes a directory and those above it.  A path that ends in a point makes no more than
    the directories above the one that it names, which must be there already. -/
def makeDirectories (tree : FileTree) (path : String) : Bool × FileTree :=
  if !admits path then (false, tree)
  else if endsInPoint path then
    match tree.resolve path with
    | .ok _ => (true, tree)
    | .error .refused => (false, tree)
    | .error .missing => (false, (tree.makeAlong (tree.origin path) (namesAbove path)).2)
  else tree.makeAlong (tree.origin path) (names path)

end FileTree

end PropertyGraph
