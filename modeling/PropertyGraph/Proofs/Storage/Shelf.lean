/-
  PropertyGraph.Proofs.Storage.Shelf

  The documents of one class below a root, as far as they can be read: the text of each
  type's document, the index and the list of types.  All that a graph answers about a class
  follows from its shelf, raw texts apart, and writing a document is an update of the shelf
  that leaves the shelf of the other class alone.
-/
import PropertyGraph.Proofs.Storage.Document
import PropertyGraph.Proofs.Storage.DocumentFiles
import PropertyGraph.Storage.Catalog

namespace PropertyGraph

open FileTree (Hosts Writable Replaces ChangesOnly)
open Json (Tree Decoded)
open Naming (checkType documentStem indexStem typeListStem jsonPath Touches)

variable {α : Type} {c : EntityClass}

/-! ## Reading a document -/

/-- What a document gives, from what its path gives. -/
def Document.payload (decode : Tree → Decoded α) (absent : α) : Except PathTrouble String → Outcome α
  | .ok text => Document.decode decode text
  | .error .missing => .ok absent
  | .error .refused => .error .io

/-- The failures of files: one was refused, or its text is not what it should be. -/
def Failure.OfFiles : Failure → Prop
  | .io | .malformed => True
  | _ => False

theorem Document.ofFiles_of_payload {decode : Tree → Decoded α} {absent : α}
    {r : Except PathTrouble String} {f : Failure} (h : Document.payload decode absent r = .error f) :
    f.OfFiles := by
  cases r with
  | error trouble =>
    cases trouble with
    | missing => cases h
    | refused => obtain rfl := Except.error.inj h; trivial
  | ok text =>
    obtain rfl := malformed_of_decode h
    trivial

theorem Document.exec_read (path : String) (decode : Tree → Decoded α) (absent : α)
    (tree : FileTree) :
    (Document.read path decode absent).exec tree
      = (Document.payload decode absent (tree.read path), tree) := by
  rw [Document.read, FileTask.exec_bind, FileTask.exec_read]
  rcases tree.read path with trouble | text
  · cases trouble <;> rfl
  · rfl

/-! ## Shelves -/

/-- What can be read of the documents of a class. -/
structure Shelf (c : EntityClass) where
  /-- the text of the document of a type -/
  text : String → Except PathTrouble String
  index : Outcome (Entries String)
  types : Outcome (List String)

namespace Shelf

@[ext] theorem ext' {s t : Shelf c} (htext : s.text = t.text) (hindex : s.index = t.index)
    (htypes : s.types = t.types) : s = t := by
  cases s
  cases t
  simp_all

/-- The entities of a type. -/
def load (s : Shelf c) (type : String) : Outcome (List (Entity c)) :=
  match checkType type with
  | .ok () => Document.payload (Tree.toList Entity.decode) [] (s.text type)
  | .error e => .error e

/-- Whether a type has a document. -/
def Has (s : Shelf c) (type : String) : Prop := ∃ text, s.text type = .ok text

/-- The shelf with other entities in the document of a type. -/
def put (s : Shelf c) (type : String) (entities : List (Entity c)) : Shelf c :=
  { s with text := fun t => if t = type then .ok (Document.entitiesText entities) else s.text t }

/-- The shelf with another index. -/
def setIndex (s : Shelf c) (entries : Entries String) : Shelf c := { s with index := .ok entries }

/-- The shelf with another list of types. -/
def setTypes (s : Shelf c) (types : List String) : Shelf c := { s with types := .ok types }

/-- The shelf after the type of an identity was recorded. -/
def record (s : Shelf c) (key type : String) : Shelf c :=
  { s with
    index := s.index.map fun entries => entries.insert key type
    types := s.types.map fun types => (Catalog.addType types type).getD types }

@[simp] theorem text_record (s : Shelf c) (key type : String) : (s.record key type).text = s.text :=
  rfl

@[simp] theorem text_setIndex (s : Shelf c) (entries : Entries String) :
    (s.setIndex entries).text = s.text := rfl

@[simp] theorem index_put (s : Shelf c) (type : String) (entities : List (Entity c)) :
    (s.put type entities).index = s.index := rfl

@[simp] theorem types_put (s : Shelf c) (type : String) (entities : List (Entity c)) :
    (s.put type entities).types = s.types := rfl

@[simp] theorem index_setIndex (s : Shelf c) (entries : Entries String) :
    (s.setIndex entries).index = .ok entries := rfl

@[simp] theorem types_setIndex (s : Shelf c) (entries : Entries String) :
    (s.setIndex entries).types = s.types := rfl

theorem index_record {s : Shelf c} {index : Entries String} (h : s.index = .ok index)
    (key type : String) : (s.record key type).index = .ok (index.insert key type) := by
  rw [record, h]
  rfl

theorem types_record {s : Shelf c} {types : List String} (h : s.types = .ok types)
    (key type : String) :
    (s.record key type).types = .ok ((Catalog.addType types type).getD types) := by
  rw [record, h]
  rfl

/-- Recording a type that the list names already changes the index alone. -/
theorem record_of_listed {s : Shelf c} {index : Entries String} (hindex : s.index = .ok index)
    {types : List String} (htypes : s.types = .ok types) {type : String}
    (hadd : Catalog.addType types type = none) (key : String) :
    s.record key type = s.setIndex (index.insert key type) := by
  refine ext' rfl (index_record hindex key type) ?_
  rw [types_record htypes, hadd]
  exact htypes.symm

/-- Recording a type that the list lacks changes the list as well. -/
theorem record_of_unlisted {s : Shelf c} {index : Entries String} (hindex : s.index = .ok index)
    {types types' : List String} (htypes : s.types = .ok types) {type : String}
    (hadd : Catalog.addType types type = some types') (key : String) :
    s.record key type = (s.setIndex (index.insert key type)).setTypes types' := by
  refine ext' rfl (index_record hindex key type) ?_
  rw [types_record htypes, hadd]
  rfl

@[simp] theorem load_record (s : Shelf c) (key type other : String) :
    (s.record key type).load other = s.load other := rfl

@[simp] theorem load_setIndex (s : Shelf c) (entries : Entries String) (other : String) :
    (s.setIndex entries).load other = s.load other := rfl

theorem load_put_of_ne (s : Shelf c) {type other : String} (h : other ≠ type)
    (entities : List (Entity c)) : (s.put type entities).load other = s.load other := by
  rw [load, load, put]
  simp only [if_neg h]

theorem load_put_self (s : Shelf c) {type : String} (h : checkType type = .ok ())
    (entities : List (Entity c)) :
    (s.put type entities).load type
      = Document.decode (Tree.toList Entity.decode) (Document.entitiesText entities) := by
  rw [load, h]
  simp only [put, if_true]
  rfl

theorem checkType_of_load {s : Shelf c} {type : String} {entities : List (Entity c)}
    (h : s.load type = .ok entities) : checkType type = .ok () := by
  rw [load] at h
  cases hcheck : checkType type with
  | ok u => rfl
  | error e => rw [hcheck] at h; cases h

/-- A type that can be part of a name fails to be read only for the sake of files. -/
theorem ofFiles_of_load {s : Shelf c} {type : String} {f : Failure}
    (hcheck : checkType type = .ok ()) (h : s.load type = .error f) : f.OfFiles := by
  rw [load, hcheck] at h
  exact Document.ofFiles_of_payload h

/-- A type with an entity has a document. -/
theorem has_of_load {s : Shelf c} {type : String} {entities : List (Entity c)}
    (h : s.load type = .ok entities) (hne : entities ≠ []) : s.Has type := by
  rw [load, checkType_of_load h] at h
  cases htext : s.text type with
  | ok text => exact ⟨text, htext⟩
  | error trouble =>
    rw [htext] at h
    cases trouble with
    | missing => exact absurd (Except.ok.inj h).symm hne
    | refused => cases h

theorem has_put (s : Shelf c) (type : String) (entities : List (Entity c)) (other : String) :
    (s.put type entities).Has other ↔ other = type ∨ s.Has other := by
  rw [Has, put]
  by_cases h : other = type
  · simp [h]
  · simp [h, Has]

theorem has_put_of_has {s : Shelf c} {type : String} (h : s.Has type) (entities : List (Entity c))
    (other : String) : (s.put type entities).Has other ↔ s.Has other := by
  rw [has_put]
  constructor
  · rintro (rfl | hold)
    · exact h
    · exact hold
  · exact .inr

end Shelf

/-- The shelf of a class below a root.  A type that cannot be part of a name has no document. -/
def FileTree.shelf (tree : FileTree) (root : String) (c : EntityClass) : Shelf c where
  text type :=
    match checkType type with
    | .ok () => tree.read (Naming.documentPath root type c)
    | .error _ => .error .refused
  index := Document.payload (Tree.toMap Tree.toText) [] (tree.read (Naming.indexPath root c))
  types := Document.payload (Tree.toList Tree.toText) [] (tree.read (Naming.typeListPath root c))

namespace Catalog

variable {tree : FileTree} {root : String} {base : Place}

theorem exec_load (root : String) (c : EntityClass) (type : String) (tree : FileTree) :
    (load root c type).exec tree = ((tree.shelf root c).load type, tree) := by
  rw [load, FileTask.exec_bind, FileTask.exec_ofOutcome, Shelf.load, FileTree.shelf]
  cases hcheck : checkType type with
  | ok u =>
    simp only [hcheck]
    exact Document.exec_read _ _ _ _
  | error e => rfl

theorem exec_index (root : String) (c : EntityClass) (tree : FileTree) :
    (index root c).exec tree = ((tree.shelf root c).index, tree) :=
  Document.exec_read _ _ _ _

theorem exec_types (root : String) (c : EntityClass) (tree : FileTree) :
    (types root c).exec tree = ((tree.shelf root c).types, tree) :=
  Document.exec_read _ _ _ _

end Catalog

/-! ## Updates -/

namespace FileTree

variable {tree tree' tree'' : FileTree} {root : String} {base : Place}

/-- The names of documents and of files beside them. -/
def DocumentName (name : String) : Prop := ∃ stem, Touches stem name

/-- A tree whose documents of one class have become another shelf, those of the other class
    and all other files being as they were. -/
structure Updates (tree tree' : FileTree) (root : String) (base : Place) (s : Shelf c) : Prop where
  hosts : tree'.Hosts root base
  change : tree.ChangesOnly tree' DocumentName
  here : tree'.shelf root c = s
  other : ∀ c', c' ≠ c → tree'.shelf root c' = tree.shelf root c'

theorem Updates.trans {s t : Shelf c} (h : tree.Updates tree' root base s)
    (h' : tree'.Updates tree'' root base t) : tree.Updates tree'' root base t where
  hosts := h'.hosts
  change := h.change.trans h'.change
  here := h'.here
  other c' hne := (h'.other c' hne).trans (h.other c' hne)

/-- Where all documents are read alike, all shelves are the same. -/
theorem shelf_congr (hread : ∀ stem, Naming.PlainStem stem →
      tree'.read (jsonPath root stem) = tree.read (jsonPath root stem)) (c : EntityClass) :
    tree'.shelf root c = tree.shelf root c := by
  refine Shelf.ext' (funext fun type => ?_) ?_ ?_
  · simp only [shelf, Naming.documentPath_eq]
    cases hcheck : checkType type with
    | ok u => exact hread _ (Naming.plainStem_document c hcheck)
    | error e => rfl
  · simp only [shelf, Naming.indexPath_eq, hread _ (Naming.plainStem_index c)]
  · simp only [shelf, Naming.typeListPath_eq, hread _ (Naming.plainStem_typeList c)]

/-- A change that touches no document leaves every shelf as it is. -/
theorem Hosts.shelf_eq {touched : String → Prop} (h : tree.Hosts root base)
    (hchange : tree.ChangesOnly tree' touched) (hnames : ∀ name, DocumentName name → ¬ touched name)
    (c : EntityClass) : tree'.shelf root c = tree.shelf root c :=
  shelf_congr (fun stem hstem =>
    h.rooted.read_json_congr hstem hchange (hnames _ ⟨stem, .inl rfl⟩)) c

/-- Replacing the document of a stem leaves all shelves alone but for what is read from it. -/
theorem Replaces.text_shelf {stem text : String} (h : tree.Replaces tree' root base stem text)
    (hrooted : tree.Rooted root base) (c : EntityClass) {type : String}
    (hne : documentStem type c ≠ stem) :
    (tree'.shelf root c).text type = (tree.shelf root c).text type := by
  simp only [shelf, Naming.documentPath_eq]
  cases hcheck : checkType type with
  | ok u => exact h.elsewhere hrooted (Naming.plainStem_document c hcheck) hne
  | error e => rfl

theorem Replaces.index_shelf {stem text : String} (h : tree.Replaces tree' root base stem text)
    (hrooted : tree.Rooted root base) (c : EntityClass) (hne : indexStem c ≠ stem) :
    (tree'.shelf root c).index = (tree.shelf root c).index := by
  simp only [shelf, Naming.indexPath_eq, h.elsewhere hrooted (Naming.plainStem_index c) hne]

theorem Replaces.types_shelf {stem text : String} (h : tree.Replaces tree' root base stem text)
    (hrooted : tree.Rooted root base) (c : EntityClass) (hne : typeListStem c ≠ stem) :
    (tree'.shelf root c).types = (tree.shelf root c).types := by
  simp only [shelf, Naming.typeListPath_eq, h.elsewhere hrooted (Naming.plainStem_typeList c) hne]

/-- Writing the document of a type is an update of the shelf. -/
theorem Replaces.updates_put {type : String} {entities : List (Entity c)}
    (h : tree.Replaces tree' root base (documentStem type c) (Document.entitiesText entities))
    (hrooted : tree.Rooted root base) (hcheck : checkType type = .ok ()) :
    tree.Updates tree' root base ((tree.shelf root c).put type entities) where
  hosts := h.hosts
  change := h.change.mono fun _ htouches => ⟨_, htouches⟩
  here := by
    refine Shelf.ext' (funext fun other => ?_) ?_ ?_
    · by_cases hother : other = type
      · subst hother
        simp only [shelf, hcheck, Shelf.put, if_true, Naming.documentPath_eq, h.here]
      · rw [h.text_shelf hrooted c fun hs => hother (Naming.documentStem_inj hs).1]
        simp only [Shelf.put, if_neg hother]
    · exact h.index_shelf hrooted c (Naming.documentStem_ne_indexStem type c c).symm
    · exact h.types_shelf hrooted c (Naming.documentStem_ne_typeListStem type c c).symm
  other c' hne := by
    refine Shelf.ext' (funext fun other => ?_) ?_ ?_
    · exact h.text_shelf hrooted c' fun hs => hne (Naming.documentStem_inj hs).2
    · exact h.index_shelf hrooted c' (Naming.documentStem_ne_indexStem type c c').symm
    · exact h.types_shelf hrooted c' (Naming.documentStem_ne_typeListStem type c c').symm

/-- Writing the index is an update of the shelf. -/
theorem Replaces.updates_setIndex {entries : Entries String}
    (h : tree.Replaces tree' root base (indexStem c) (Document.indexText entries))
    (hrooted : tree.Rooted root base) (hkeys : (Entries.keys entries).Nodup) :
    tree.Updates tree' root base ((tree.shelf root c).setIndex entries) where
  hosts := h.hosts
  change := h.change.mono fun _ htouches => ⟨_, htouches⟩
  here := by
    refine Shelf.ext' (funext fun other => ?_) ?_ ?_
    · exact h.text_shelf hrooted c (Naming.documentStem_ne_indexStem other c c)
    · simp only [shelf, Naming.indexPath_eq, h.here]
      exact Document.decode_indexText hkeys
    · exact h.types_shelf hrooted c (Naming.indexStem_ne_typeListStem c c).symm
  other c' hne := by
    refine Shelf.ext' (funext fun other => ?_) ?_ ?_
    · exact h.text_shelf hrooted c' (Naming.documentStem_ne_indexStem other c' c)
    · exact h.index_shelf hrooted c' fun hs => hne (Naming.indexStem_inj hs)
    · exact h.types_shelf hrooted c' (Naming.indexStem_ne_typeListStem c c').symm

/-- Writing the list of types is an update of the shelf. -/
theorem Replaces.updates_setTypes {types : List String}
    (h : tree.Replaces tree' root base (typeListStem c) (Document.typeListText types))
    (hrooted : tree.Rooted root base) :
    tree.Updates tree' root base ((tree.shelf root c).setTypes types) where
  hosts := h.hosts
  change := h.change.mono fun _ htouches => ⟨_, htouches⟩
  here := by
    refine Shelf.ext' (funext fun other => ?_) ?_ ?_
    · exact h.text_shelf hrooted c (Naming.documentStem_ne_typeListStem other c c)
    · exact h.index_shelf hrooted c (Naming.indexStem_ne_typeListStem c c)
    · simp only [shelf, Naming.typeListPath_eq, h.here]
      exact Document.decode_typeListText types
  other c' hne := by
    refine Shelf.ext' (funext fun other => ?_) ?_ ?_
    · exact h.text_shelf hrooted c' (Naming.documentStem_ne_typeListStem other c' c)
    · exact h.index_shelf hrooted c' (Naming.indexStem_ne_typeListStem c' c)
    · exact h.types_shelf hrooted c' fun hs => hne (Naming.typeListStem_inj hs)

end FileTree

namespace Catalog

variable {tree : FileTree} {root : String} {base : Place}

/-! ## Writing -/

/-- The document of a type whose files fit is written. -/
theorem exec_store (h : tree.Hosts root base) {type : String} (hcheck : checkType type = .ok ())
    (hwritable : Writable root (documentStem type c)) (entities : List (Entity c)) :
    ∃ tree', (store root type entities).exec tree = (.ok (), tree')
      ∧ tree.Updates tree' root base ((tree.shelf root c).put type entities) := by
  obtain ⟨tree', hexec, hreplaces⟩ := FileTask.exec_replace h (Naming.plainStem_document c hcheck)
    hwritable (Document.entitiesText entities)
  exact ⟨tree', hexec, hreplaces.updates_put h.rooted hcheck⟩

/-- The document of a type whose files do not fit is refused. -/
theorem exec_store_refused (h : tree.Hosts root base) {type : String}
    (hcheck : checkType type = .ok ()) (hwritable : ¬ Writable root (documentStem type c))
    (entities : List (Entity c)) : (store root type entities).exec tree = (.error .io, tree) :=
  FileTask.exec_replace_refused h (Naming.plainStem_document c hcheck) hwritable _

/-- An index whose files fit is written. -/
theorem exec_storeIndex (h : tree.Hosts root base) (hwritable : Writable root (indexStem c))
    {entries : Entries String} (hkeys : (Entries.keys entries).Nodup) :
    ∃ tree', (storeIndex root c entries).exec tree = (.ok (), tree')
      ∧ tree.Updates tree' root base ((tree.shelf root c).setIndex entries) := by
  obtain ⟨tree', hexec, hreplaces⟩ := FileTask.exec_replace h (Naming.plainStem_index c)
    hwritable (Document.indexText entries)
  refine ⟨tree', ?_, hreplaces.updates_setIndex h.rooted hkeys⟩
  rw [storeIndex, Naming.indexPath_eq]
  exact hexec

/-- An index whose files do not fit is refused. -/
theorem exec_storeIndex_refused (h : tree.Hosts root base)
    (hwritable : ¬ Writable root (indexStem c)) (entries : Entries String) :
    (storeIndex root c entries).exec tree = (.error .io, tree) := by
  rw [storeIndex, Naming.indexPath_eq]
  exact FileTask.exec_replace_refused h (Naming.plainStem_index c) hwritable _

/-- Where the index fits, the list of types fits. -/
theorem writable_typeList (h : Writable root (indexStem c)) : Writable root (typeListStem c) := by
  refine h.of_shorter (Naming.plainStem_index c) (Naming.plainStem_typeList c) ?_ ?_
  · cases c <;> decide
  · cases c <;> decide

/-- Where the index fits, the document of a type fits whose name is short. -/
theorem writable_document (h : Writable root (indexStem c)) {type : String}
    (hcheck : checkType type = .ok ()) (hshort : type.utf8ByteSize ≤ 7) :
    Writable root (documentStem type c) := by
  refine h.of_shorter (Naming.plainStem_index c) (Naming.plainStem_document c hcheck) ?_ ?_
  · have hdot : ".".utf8ByteSize = 1 := rfl
    have hending : ".id2type".utf8ByteSize = 8 := rfl
    simp only [documentStem, indexStem, String.utf8ByteSize_append]
    omega
  · have hnull := Naming.no_null_of_checkType hcheck
    cases c <;> simp [documentStem, EntityClass.name, String.toList_append, hnull]

/-- Recording a type is an update of the shelf, where index and list can be read and written. -/
theorem exec_record (h : tree.Hosts root base) (hwritable : Writable root (indexStem c))
    {entries : Entries String} (hindex : (tree.shelf root c).index = .ok entries)
    (hkeys : (Entries.keys entries).Nodup) {list : List String}
    (htypes : (tree.shelf root c).types = .ok list) (key type : String) :
    ∃ tree', (record root c key type).exec tree = (.ok (), tree')
      ∧ tree.Updates tree' root base ((tree.shelf root c).record key type) := by
  have hkeys' := Entries.nodup_keys_insert hkeys key type
  obtain ⟨tree', hstore, hupdates⟩ := exec_storeIndex h hwritable hkeys'
  have htypes' : (tree'.shelf root c).types = .ok list := by
    rw [hupdates.here]
    exact htypes
  have hread : (index root c).exec tree = (.ok entries, tree) := by rw [exec_index, hindex]
  have hlisted : (types root c).exec tree' = (.ok list, tree') := by rw [exec_types, htypes']
  rw [record, FileTask.exec_bind_of_ok hread, FileTask.exec_bind_of_ok hstore,
    FileTask.exec_bind_of_ok hlisted]
  -- the index is written in any case, the list only if it lacks the type
  cases hadd : addType list type with
  | none =>
    refine ⟨tree', rfl, ?_⟩
    rw [Shelf.record_of_listed hindex htypes hadd]
    exact hupdates
  | some list' =>
    obtain ⟨tree'', hexec, hreplaces⟩ := FileTask.exec_replace hupdates.hosts
      (Naming.plainStem_typeList c) (writable_typeList hwritable) (Document.typeListText list')
    refine ⟨tree'', ?_, ?_⟩
    · rw [Naming.typeListPath_eq]
      exact hexec
    · rw [Shelf.record_of_unlisted hindex htypes hadd, ← hupdates.here]
      exact hupdates.trans (hreplaces.updates_setTypes hupdates.hosts.rooted)

/-- Where the index does not fit, recording a type fails and nothing changes. -/
theorem exec_record_refused (h : tree.Hosts root base) (hwritable : ¬ Writable root (indexStem c))
    (key type : String) : ∃ f, f.OfFiles ∧ (record root c key type).exec tree = (.error f, tree) := by
  rw [record]
  cases hindex : (tree.shelf root c).index with
  | error f =>
    refine ⟨f, Document.ofFiles_of_payload hindex, FileTask.exec_bind_of_error ?_⟩
    rw [exec_index, hindex]
  | ok entries =>
    refine ⟨.io, trivial, ?_⟩
    have hread : (Catalog.index root c).exec tree = (.ok entries, tree) := by
      rw [exec_index, hindex]
    rw [FileTask.exec_bind_of_ok hread]
    exact FileTask.exec_bind_of_error (exec_storeIndex_refused h hwritable _)

end Catalog

end PropertyGraph
