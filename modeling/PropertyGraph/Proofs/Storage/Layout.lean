/-
  PropertyGraph.Proofs.Storage.Layout

  The files of a graph do not collide.  A type may be named like anything, `node.types` and
  `a.json.tmp` included: the file of a document, the file that is written beside it, the
  indexes, the lists of types and the directory of raw texts all stand directly below the
  root, and no two of them under one path or at one place.
-/
import PropertyGraph.Proofs.Storage.Exchanges
import PropertyGraph.Proofs.Storage.FileTree
import PropertyGraph.Proofs.Storage.Naming
import PropertyGraph.Storage.Document

namespace PropertyGraph

open FilePath (PlainName)
open FileTree (Fits Rooted)
open Naming (PlainStem Touches checkType documentStem indexStem typeListStem jsonPath rawDirectory)

variable {root : String}

/-! ## Paths apart -/

/-- Two paths that are different and lead to one place in no tree. -/
structure FilePath.Apart (first second : String) : Prop where
  ne : first ≠ second
  places : ∀ (tree : FileTree) (place : Place), tree.resolve first = .ok place →
    tree.resolve second ≠ .ok place

/-- A path with a plain name leads to places of that name only. -/
theorem FileTree.getLast?_of_resolve_join {tree : FileTree} {place : Place} {name : String}
    (hname : PlainName name) (h : tree.resolve (FilePath.join root name) = .ok place) :
    place.getLast? = some name := by
  obtain ⟨before, hnames, -⟩ := @FilePath.names_join root name hname
  rw [resolve] at h
  split at h
  · cases h
  · split at h
    · cases h
    · rw [hnames] at h
      exact getLast?_of_locate hname h

/-- Different names below a root are apart. -/
theorem FilePath.apart_join {first second : String} (hfirst : PlainName first)
    (hsecond : PlainName second) (hne : first ≠ second) :
    Apart (join root first) (join root second) where
  ne := by
    intro he
    rw [join_plain hfirst, join_plain hsecond] at he
    have hlist := congrArg String.toList he
    rw [String.toList_append, String.toList_append] at hlist
    exact hne (String.toList_inj.1 (List.append_cancel_left hlist))
  places tree place h h' := by
    -- a place ends in the last name of every path that leads to it
    have hlast := FileTree.getLast?_of_resolve_join hfirst h
    rw [FileTree.getLast?_of_resolve_join hsecond h'] at hlast
    exact hne (Option.some.inj hlast).symm

/-! ## Children of a root -/

/-- The names of a path without the empty ones that slashes beside each other make. -/
def FilePath.solidNames (path : String) : List String :=
  (FileTree.names path).filter (· ≠ "")

/-- A path that is that of a root with a single name put below it, as a text and in every
    tree in which the root is a directory. -/
structure FilePath.ChildOf (root path name : String) : Prop where
  plain : PlainName name
  start : isAbsolute path = isAbsolute root
  names : solidNames path = solidNames root ++ [name]
  leads : ∀ (tree : FileTree) (base : Place), tree.Rooted root base → Fits root name →
    tree.resolve path = .ok (base ++ [name])
  refused : ∀ (tree : FileTree) (base : Place), tree.Rooted root base → ¬ Fits root name →
    tree.resolve path = .error .refused

theorem FilePath.solidNames_join {name : String} (hname : PlainName name) :
    solidNames (join root name) = solidNames root ++ [name] := by
  obtain ⟨before, hnames, hroot⟩ := @names_join root name hname
  have hsolid : [name].filter (· ≠ "") = [name] := by simp [hname.ne_empty]
  rw [solidNames, hnames, List.filter_append, hsolid, solidNames]
  -- a slash at the end of the root makes an empty name there
  rcases hroot with hroot | hroot
  · rw [hroot]
  · rw [hroot, List.filter_append]
    have hblank : [""].filter (· ≠ "") = [] := by decide
    rw [hblank, List.append_nil]

theorem FilePath.childOf_join {name : String} (hname : PlainName name) :
    ChildOf root (join root name) name where
  plain := hname
  start := isAbsolute_join hname
  names := solidNames_join hname
  leads _ _ hrooted hfits := hrooted.resolve_join hname hfits
  refused _ _ hrooted hfits := hrooted.resolve_join_refused hname hfits

/-! ## The files of a graph -/

/-- A file that holds a document: the entities of a type, an index or a list of types. -/
inductive StoredFile where
  | entities (type : String) (c : EntityClass)
  | index (c : EntityClass)
  | typeList (c : EntityClass)
deriving DecidableEq, Repr

namespace StoredFile

/-- Whether the type that a file is named for is accepted. -/
def Accepted : StoredFile → Prop
  | entities type _ => checkType type = .ok ()
  | index _ | typeList _ => True

/-- The path of a file. -/
def path (root : String) : StoredFile → String
  | entities type c => Naming.documentPath root type c
  | index c => Naming.indexPath root c
  | typeList c => Naming.typeListPath root c

/-- The path of the file that a write to a file makes beside it. -/
def aside (root : String) (f : StoredFile) : String :=
  FilePath.withExtension (f.path root) "json.tmp"

/-- The stem of the name of a file. -/
def stem : StoredFile → String
  | entities type c => documentStem type c
  | index c => indexStem c
  | typeList c => typeListStem c

/-- The name of a file below the root. -/
def name (f : StoredFile) : String := f.stem ++ ".json"

variable {f g : StoredFile}

theorem path_eq (root : String) (f : StoredFile) : f.path root = FilePath.join root f.name := by
  cases f with
  | entities type c => exact Naming.documentPath_eq root type c
  | index c => exact Naming.indexPath_eq root c
  | typeList c => exact Naming.typeListPath_eq root c

theorem Accepted.plainStem (h : f.Accepted) : PlainStem f.stem := by
  cases f with
  | entities type c => exact Naming.plainStem_document c h
  | index c => exact Naming.plainStem_index c
  | typeList c => exact Naming.plainStem_typeList c

theorem Accepted.plainName (h : f.Accepted) : PlainName f.name := h.plainStem.json

/-- Different files have different stems. -/
theorem stem_inj (h : f.stem = g.stem) : f = g := by
  -- of two kinds the stems end differently, of one kind they are those of one type and class
  cases f with
  | entities type c =>
    cases g with
    | entities type' c' =>
      obtain ⟨rfl, rfl⟩ := Naming.documentStem_inj h
      rfl
    | index c' => exact absurd h (Naming.documentStem_ne_indexStem type c c')
    | typeList c' => exact absurd h (Naming.documentStem_ne_typeListStem type c c')
  | index c =>
    cases g with
    | entities type c' => exact absurd h.symm (Naming.documentStem_ne_indexStem type c' c)
    | index c' => exact congrArg index (Naming.indexStem_inj h)
    | typeList c' => exact absurd h (Naming.indexStem_ne_typeListStem c c')
  | typeList c =>
    cases g with
    | entities type c' => exact absurd h.symm (Naming.documentStem_ne_typeListStem type c' c)
    | index c' => exact absurd h.symm (Naming.indexStem_ne_typeListStem c' c)
    | typeList c' => exact congrArg typeList (Naming.typeListStem_inj h)

theorem Accepted.aside_eq (h : f.Accepted) (root : String) :
    f.aside root = FilePath.join root (f.stem ++ ".json.tmp") := by
  have hstem := h.plainStem
  rw [aside, path_eq]
  exact FilePath.withExtension_join_json hstem.no_slash hstem.ne_empty hstem.ne_point

/-! ## No collisions -/

/-- A file is apart from whatever a write to another file touches. -/
theorem Accepted.apart_of_not_touches (h : f.Accepted) {name : String} (hname : PlainName name)
    (hother : ¬ Touches f.stem name) :
    FilePath.Apart (f.path root) (FilePath.join root name)
      ∧ FilePath.Apart (f.aside root) (FilePath.join root name) := by
  have hstem := h.plainStem
  constructor
  · rw [path_eq]
    exact FilePath.apart_join h.plainName hname fun he => hother (.inl he.symm)
  · rw [h.aside_eq]
    exact FilePath.apart_join hstem.aside hname fun he => hother (.inr he.symm)

/-- The name of a file is not one under which something is written beside a file. -/
theorem json_ne_aside (stem stem' : String) : stem ++ ".json" ≠ stem' ++ ".json.tmp" := by
  intro h
  have hending := congrArg (Naming.ending 3) h
  rw [Naming.ending_append _ (by decide), Naming.ending_append _ (by decide)] at hending
  exact absurd hending (by decide)

theorem Accepted.apart_raw (h : f.Accepted) (root : String) :
    FilePath.Apart (f.path root) (rawDirectory root)
      ∧ FilePath.Apart (f.aside root) (rawDirectory root) :=
  h.apart_of_not_touches FilePath.plainName_raw (Naming.not_touches_raw f.stem)

/-- What is written beside a file is beside every file. -/
theorem Accepted.apart_aside (hf : f.Accepted) (hg : g.Accepted) (root : String) :
    FilePath.Apart (f.aside root) (g.path root) := by
  rw [hf.aside_eq, path_eq]
  exact FilePath.apart_join hf.plainStem.aside hg.plainName
    (json_ne_aside g.stem f.stem).symm

theorem Accepted.apart_of_ne (hf : f.Accepted) (hg : g.Accepted) (hne : f ≠ g) (root : String) :
    FilePath.Apart (f.path root) (g.path root) ∧ FilePath.Apart (f.aside root) (g.aside root) := by
  have hstems : f.stem ≠ g.stem := fun he => hne (stem_inj he)
  constructor
  · rw [path_eq, path_eq]
    refine FilePath.apart_join hf.plainName hg.plainName fun he => hstems ?_
    exact Naming.append_right_cancel he
  · rw [hf.aside_eq, hg.aside_eq]
    refine FilePath.apart_join hf.plainStem.aside hg.plainStem.aside fun he => hstems ?_
    exact Naming.append_right_cancel he

/-- A write to a file asks for the file beside it to be written and moved, and for nothing
    else. -/
theorem exchanges_write (f : StoredFile) (root : String) (data : Json) (tree : FileTree) :
    ∀ exchange ∈ (Document.write (f.path root) data).exchanges tree,
      exchange.1 = .write (f.aside root) (Document.encode data)
        ∨ exchange.1 = .rename (f.aside root) (f.path root) := by
  intro exchange hmem
  change exchange ∈ ((FileTask.write (f.aside root) (Document.encode data) >>= fun _ =>
    FileTask.rename (f.aside root) (f.path root)).exchanges tree) at hmem
  rw [FileTask.exchanges_bind, List.mem_append] at hmem
  rcases hmem with hwrite | hrename
  · obtain rfl := List.mem_singleton.1 hwrite
    exact .inl rfl
  · split at hrename
    · obtain rfl := List.mem_singleton.1 hrename
      exact .inr rfl
    · cases hrename

/-- The files of a graph stand directly below its root and never collide.  Below every root,
    for all types that are accepted: a file is a child of the root, it is not the directory
    of raw texts, different files are apart, and the file that a write makes beside a file
    is none of the files and none that a write makes beside another. -/
theorem storedFiles_apart (root : String) (hf : f.Accepted) (hg : g.Accepted) :
    FilePath.ChildOf root (f.path root) f.name
      ∧ FilePath.Apart (f.path root) (rawDirectory root)
      ∧ (f ≠ g → FilePath.Apart (f.path root) (g.path root))
      ∧ (∀ data tree, ∀ exchange ∈ (Document.write (f.path root) data).exchanges tree,
          exchange.1 = .write (f.aside root) (Document.encode data)
            ∨ exchange.1 = .rename (f.aside root) (f.path root))
      ∧ FilePath.Apart (f.aside root) (rawDirectory root)
      ∧ FilePath.Apart (f.aside root) (g.path root)
      ∧ (f ≠ g → FilePath.Apart (f.aside root) (g.aside root)) := by
  obtain ⟨hraw, hasideRaw⟩ := hf.apart_raw root
  refine ⟨?_, hraw, fun hne => (hf.apart_of_ne hg hne root).1, fun data tree => ?_, hasideRaw,
    hf.apart_aside hg root, fun hne => (hf.apart_of_ne hg hne root).2⟩
  · rw [path_eq]
    exact FilePath.childOf_join hf.plainName
  · exact f.exchanges_write root data tree

/-- Types that are named like a list of types, and like the file beside another document. -/
theorem storedFiles_apart_reserved :
    (FilePath.Apart ((entities "node.types" .node).path "g") ((typeList .node).path "g")
        ∧ FilePath.Apart ((entities "node.types" .node).aside "g") ((typeList .node).aside "g"))
      ∧ (FilePath.Apart ((entities "a" .node).aside "g")
          ((entities "a.node.json.tmp" .node).path "g")
        ∧ FilePath.ChildOf "g" ((entities "a" .node).path "g") "a.node.json") := by
  have htypes : (entities "node.types" .node).Accepted := rfl
  have hshort : (entities "a" .node).Accepted := rfl
  have hlong : (entities "a.node.json.tmp" .node).Accepted := rfl
  obtain ⟨-, -, hpaths, -, -, -, hasides⟩ :=
    storedFiles_apart "g" htypes (show (typeList .node).Accepted from trivial)
  obtain ⟨hchild, -, -, -, -, haside, -⟩ := storedFiles_apart "g" hshort hlong
  exact ⟨⟨hpaths (by decide), hasides (by decide)⟩, haside, hchild⟩

end StoredFile

end PropertyGraph
