/-
  PropertyGraph.Proofs.Storage.Catalog

  What the operations on the entities of a class do to its shelf.  Lookups change nothing
  and depend on the shelf alone.  Of each change all results are listed: it is refused and
  nothing has changed, or the shelf has been updated in one of a few ways, of which some
  are the traces of an operation that has failed half-way.
-/
import PropertyGraph.Proofs.Storage.Entities
import PropertyGraph.Proofs.Storage.Shelf
import Mathlib.Tactic.ByContra

namespace PropertyGraph

open FileTree (Hosts Writable)
open Naming (checkType documentStem indexStem)

variable {c : EntityClass}

/-! ## Lookups -/

namespace Shelf

/-- The entity of an identity, if there is one. -/
def get (s : Shelf c) (id : Id) : Outcome (Option (Entity c)) := do
  let key ← id.requireText
  match Entries.get? key (← s.index) with
  | none => return none
  | some type => return Catalog.find id (← s.load type)

/-- The entity of an identity, which must be there, and the type it is kept under. -/
def locate (s : Shelf c) (id : Id) : Outcome (String × Entity c) := do
  let key ← id.requireText
  match Entries.get? key (← s.index) with
  | none => throw (.notFound c id)
  | some type =>
    match Catalog.find id (← s.load type) with
    | some e => return (type, e)
    | none => throw (.notFound c id)

/-- An identity leads through the index to an entity in the document of a type. -/
structure Located (s : Shelf c) (id : Id) (key type : String) (index : Entries String)
    (entities : List (Entity c)) (entity : Entity c) : Prop where
  named : id.requireText = .ok key
  indexed : s.index = .ok index
  typed : Entries.get? key index = some type
  loaded : s.load type = .ok entities
  found : Catalog.find id entities = some entity

theorem located_of_locate {s : Shelf c} {id : Id} {type : String} {e : Entity c}
    (h : s.locate id = .ok (type, e)) :
    ∃ key index entities, s.Located id key type index entities e := by
  rw [locate] at h
  cases hkey : id.requireText with
  | error f => rw [hkey] at h; cases h
  | ok key =>
    cases hindex : s.index with
    | error f => rw [hkey, hindex] at h; cases h
    | ok index =>
      rw [hkey, hindex] at h
      simp only [bind, Except.bind] at h
      cases htype : Entries.get? key index with
      | none => rw [htype] at h; cases h
      | some type' =>
        rw [htype] at h
        simp only at h
        cases hload : s.load type' with
        | error f => rw [hload] at h; cases h
        | ok entities =>
          rw [hload] at h
          simp only at h
          cases hfind : Catalog.find id entities with
          | none => rw [hfind] at h; cases h
          | some e' =>
            rw [hfind] at h
            obtain ⟨rfl, rfl⟩ := Prod.mk.inj (Except.ok.inj h)
            exact ⟨key, index, entities, hkey, hindex, htype, hload, hfind⟩

variable {s : Shelf c} {id : Id} {key type : String} {index : Entries String}
  {entities : List (Entity c)} {e : Entity c}

theorem Located.get_eq (h : s.Located id key type index entities e) : s.get id = .ok (some e) := by
  simp [get, h.named, h.indexed, h.typed, h.loaded, h.found, bind, Except.bind, pure, Except.pure]

theorem Located.locate_eq (h : s.Located id key type index entities e) :
    s.locate id = .ok (type, e) := by
  simp [locate, h.named, h.indexed, h.typed, h.loaded, h.found, bind, Except.bind, pure, Except.pure]

/-- A lookup fails where the index leads to a document that is not read. -/
theorem get_of_load_error {f : Failure} (hkey : id.requireText = .ok key)
    (hindex : s.index = .ok index) (htype : Entries.get? key index = some type)
    (hload : s.load type = .error f) : s.get id = .error f := by
  simp [get, hkey, hindex, htype, hload, bind, Except.bind]

/-- What a lookup finds has been located. -/
theorem located_of_get (h : s.get id = .ok (some e)) :
    ∃ key type index entities, s.Located id key type index entities e := by
  rw [get] at h
  cases hkey : id.requireText with
  | error f => rw [hkey] at h; cases h
  | ok key =>
    cases hindex : s.index with
    | error f => rw [hkey, hindex] at h; cases h
    | ok index =>
      rw [hkey, hindex] at h
      simp only [bind, Except.bind] at h
      cases htype : Entries.get? key index with
      | none => rw [htype] at h; cases h
      | some type =>
        rw [htype] at h
        simp only at h
        cases hload : s.load type with
        | error f => rw [hload] at h; cases h
        | ok entities =>
          rw [hload] at h
          exact ⟨key, type, index, entities, hkey, hindex, htype, hload, Except.ok.inj h⟩

theorem Located.mem (h : s.Located id key type index entities e) : e ∈ entities :=
  List.mem_of_find?_eq_some h.found

theorem Located.same (h : s.Located id key type index entities e) : e.id.same id = true :=
  List.find?_some (p := fun e : Entity c => e.id.same id) h.found

theorem Located.has (h : s.Located id key type index entities e) : s.Has type :=
  has_of_load h.loaded (List.ne_nil_of_mem h.mem)

theorem Located.id_eq (h : s.Located id key type index entities e) : id = .ofString key := by
  obtain ⟨value⟩ := id
  have hkey := h.named
  cases value with
  | string text =>
    have htext : text = key := Except.ok.inj hkey
    rw [htext]
    rfl
  | _ => cases hkey

section Named

variable (hnamed : Catalog.Named entities)

include hnamed

theorem Located.id_of_named (h : s.Located id key type index entities e) : e.id = .ofString key :=
  (hnamed.find_eq_some_iff.1 (h.id_eq ▸ h.found)).2

/-- Whom taking out all entities of the identity leaves. -/
theorem Located.mem_others_iff (h : s.Located id key type index entities e) {x : Entity c} :
    x ∈ entities.filter (fun e => !e.id.same id) ↔ x ∈ entities ∧ x.id ≠ .ofString key := by
  rw [h.id_eq]
  exact Catalog.mem_others_iff hnamed

/-- Whom taking out the first entity of the identity leaves. -/
theorem Located.mem_removeFirst_iff (h : s.Located id key type index entities e) {x : Entity c} :
    x ∈ Catalog.removeFirst id entities ↔ x ∈ entities ∧ x.id ≠ .ofString key := by
  rw [h.id_eq]
  exact Catalog.mem_removeFirst_iff hnamed

end Named

end Shelf

namespace Catalog

theorem exec_typeOf (root : String) (c : EntityClass) (key : String) (tree : FileTree) :
    (typeOf root c key).exec tree
      = ((tree.shelf root c).index >>= fun index => pure (Entries.get? key index), tree) :=
  FileTask.exec_bind_of_unchanged (exec_index root c tree) fun _ _ => rfl

theorem exec_get (root : String) (c : EntityClass) (id : Id) (tree : FileTree) :
    (get root c id).exec tree = ((tree.shelf root c).get id, tree) := by
  refine FileTask.exec_bind_of_unchanged (FileTask.exec_ofOutcome _ _) fun key _ => ?_
  rw [FileTask.exec_bind, exec_typeOf]
  cases (tree.shelf root c).index with
  | error f => rfl
  | ok index =>
    show FileTask.exec (match Entries.get? key index with | none => _ | some type => _) tree
      = (match Entries.get? key index with | none => _ | some type => _, tree)
    cases Entries.get? key index with
    | none => rfl
    | some type =>
      exact FileTask.exec_bind_of_unchanged (exec_load root c type tree) fun _ _ => rfl

theorem exec_locate (root : String) (c : EntityClass) (id : Id) (tree : FileTree) :
    (locate root c id).exec tree = ((tree.shelf root c).locate id, tree) := by
  refine FileTask.exec_bind_of_unchanged (FileTask.exec_ofOutcome _ _) fun key _ => ?_
  rw [FileTask.exec_bind, exec_typeOf]
  cases (tree.shelf root c).index with
  | error f => rfl
  | ok index =>
    show FileTask.exec (match Entries.get? key index with | none => _ | some type => _) tree
      = (match Entries.get? key index with | none => _ | some type => _, tree)
    cases Entries.get? key index with
    | none => rfl
    | some type =>
      refine FileTask.exec_bind_of_unchanged (exec_load root c type tree) fun entities _ => ?_
      cases find id entities <;> rfl

end Catalog

/-! ## What changes rely on -/

/-- What can be relied on about the files of a shelf: index and list of types are read where
    their files fit, and are never written where they do not; each document that is there has
    a name that fits. -/
structure Shelf.Ready (s : Shelf c) (root : String) : Prop where
  keys : ∀ index, s.index = .ok index → (Entries.keys index).Nodup
  readable : Writable root (indexStem c) →
    (∃ index, s.index = .ok index) ∧ ∃ types, s.types = .ok types
  blank : ¬ Writable root (indexStem c) →
    (∀ index, s.index = .ok index → index = []) ∧ ∀ types, s.types = .ok types → types = []
  documents : ∀ type, s.Has type → Writable root (documentStem type c)

namespace Shelf.Ready

variable {s : Shelf c} {root : String}

/-- An index that names a type is one that can be written. -/
theorem writable_index (h : s.Ready root) {index : Entries String} (hindex : s.index = .ok index)
    {key type : String} (htype : Entries.get? key index = some type) :
    Writable root (indexStem c) := by
  by_contra hwritable
  rw [(h.blank hwritable).1 index hindex] at htype
  cases htype

theorem put (h : s.Ready root) {type : String} (hwritable : Writable root (documentStem type c))
    (entities : List (Entity c)) : (s.put type entities).Ready root where
  keys := h.keys
  readable := h.readable
  blank := h.blank
  documents other hother := by
    rcases (s.has_put type entities other).1 hother with rfl | hother
    · exact hwritable
    · exact h.documents other hother

theorem record (h : s.Ready root) (hwritable : Writable root (indexStem c)) (key type : String) :
    (s.record key type).Ready root where
  keys index hindex := by
    obtain ⟨⟨entries, hentries⟩, -⟩ := h.readable hwritable
    rw [← Except.ok.inj ((Shelf.index_record hentries key type).symm.trans hindex)]
    exact Entries.nodup_keys_insert (h.keys entries hentries) key type
  readable _ := by
    obtain ⟨⟨entries, hentries⟩, types, htypes⟩ := h.readable hwritable
    exact ⟨⟨_, Shelf.index_record hentries key type⟩, _, Shelf.types_record htypes key type⟩
  blank hnot := absurd hwritable hnot
  documents := h.documents

theorem erase (h : s.Ready root) (hwritable : Writable root (indexStem c)) {index : Entries String}
    (hindex : s.index = .ok index) (key : String) :
    (s.setIndex (index.erase key)).Ready root where
  keys entries hentries := by
    rw [← Except.ok.inj hentries]
    exact Entries.nodup_keys_erase (h.keys index hindex) key
  readable _ := ⟨⟨_, rfl⟩, (h.readable hwritable).2⟩
  blank hnot := absurd hwritable hnot
  documents := h.documents

end Shelf.Ready

namespace Catalog

variable {tree : FileTree} {root : String} {base : Place}

/-! ## Inserting -/

/-- The results of inserting an entity under a key. -/
inductive Inserts (tree : FileTree) (root : String) (base : Place) (entity : Entity c)
    (key : String) : Outcome Unit → FileTree → Prop where
  /-- nothing has changed -/
  | refused (f : Failure) : (checkType entity.type = .ok () → f.OfFiles) →
    Inserts tree root base entity key (.error f) tree
  /-- the entity stands in its document, below a root where there is no index -/
  | unindexed (f : Failure) (tree' : FileTree) (entities : List (Entity c)) : f.OfFiles →
    (tree.shelf root c).load entity.type = .ok entities →
    Writable root (documentStem entity.type c) →
    ¬ Writable root (indexStem c) →
    tree.Updates tree' root base ((tree.shelf root c).put entity.type (entities ++ [entity])) →
    Inserts tree root base entity key (.error f) tree'
  | done (tree' : FileTree) (entities : List (Entity c)) :
    (tree.shelf root c).load entity.type = .ok entities →
    Writable root (documentStem entity.type c) →
    Writable root (indexStem c) →
    tree.Updates tree' root base
      (((tree.shelf root c).put entity.type (entities ++ [entity])).record key entity.type) →
    Inserts tree root base entity key (.ok ()) tree'

theorem exec_insert (h : tree.Hosts root base) (hready : (tree.shelf root c).Ready root)
    {entity : Entity c} {key : String} (hid : entity.id.requireText = .ok key) :
    ∃ outcome tree', (insert root entity).exec tree = (outcome, tree')
      ∧ Inserts tree root base entity key outcome tree' := by
  rw [insert, FileTask.exec_bind, FileTask.exec_ofOutcome]
  cases hcheck : checkType entity.type with
  | error f => exact ⟨_, _, rfl, .refused f fun hok => by rw [hcheck] at hok; cases hok⟩
  | ok u =>
    simp only
    rw [hid, FileTask.exec_bind, FileTask.exec_ofOutcome]
    simp only
    rw [FileTask.exec_bind, exec_load]
    cases hload : (tree.shelf root c).load entity.type with
    | error f => exact ⟨_, _, rfl, .refused f fun _ => Shelf.ofFiles_of_load hcheck hload⟩
    | ok entities =>
      simp only
      by_cases hdocument : Writable root (documentStem entity.type c)
      · obtain ⟨tree', hstore, hput⟩ := exec_store h hcheck hdocument (entities ++ [entity])
        rw [FileTask.exec_bind_of_ok hstore]
        have hready' : (tree'.shelf root c).Ready root := hput.here ▸ hready.put hdocument _
        by_cases hindex : Writable root (indexStem c)
        · obtain ⟨⟨index, hentries⟩, types, htypes⟩ := hready'.readable hindex
          obtain ⟨tree'', hexec, hrecord⟩ := exec_record hput.hosts hindex hentries
            (hready'.keys index hentries) htypes key entity.type
          rw [hput.here] at hrecord
          exact ⟨_, _, hexec, .done tree'' entities hload hdocument hindex (hput.trans hrecord)⟩
        · obtain ⟨f, hfiles, hexec⟩ := exec_record_refused hput.hosts hindex key entity.type
          exact ⟨_, _, hexec, .unindexed f tree' entities hfiles hload hdocument hindex hput⟩
      · exact ⟨_, _, FileTask.exec_bind_of_error (exec_store_refused h hcheck hdocument _),
          .refused _ fun _ => trivial⟩

/-! ## Changing -/

/-- Putting an entity that keeps its type replaces it in its document. -/
theorem exec_put_same (h : tree.Hosts root base) {entity : Entity c}
    (hcheck : checkType entity.type = .ok ()) {entities : List (Entity c)}
    (hload : (tree.shelf root c).load entity.type = .ok entities)
    (hwritable : Writable root (documentStem entity.type c)) :
    ∃ tree', (put root entity.type entity).exec tree = (.ok (), tree')
      ∧ tree.Updates tree' root base
        ((tree.shelf root c).put entity.type (replaceFirst entity entities)) := by
  obtain ⟨tree', hstore, hput⟩ := exec_store h hcheck hwritable (replaceFirst entity entities)
  refine ⟨tree', ?_, hput⟩
  rw [put, FileTask.exec_bind, FileTask.exec_ofOutcome, hcheck]
  simp only
  rw [FileTask.exec_bind, exec_load, hload]
  simp only [if_true]
  exact hstore

/-- Putting an entity under another type takes it out of its document and inserts it. -/
theorem exec_put_moved (h : tree.Hosts root base) {old : String} {entity : Entity c}
    (hne : entity.type ≠ old) (hcheck : checkType entity.type = .ok ())
    {entities : List (Entity c)} (hload : (tree.shelf root c).load old = .ok entities)
    (hwritable : Writable root (documentStem old c)) :
    ∃ tree', (put root old entity).exec tree = (insert root entity).exec tree'
      ∧ tree.Updates tree' root base
        ((tree.shelf root c).put old (entities.filter fun e => !e.id.same entity.id)) := by
  obtain ⟨tree', hstore, hput⟩ := exec_store h (Shelf.checkType_of_load hload) hwritable
    (entities.filter fun e => !e.id.same entity.id)
  refine ⟨tree', ?_, hput⟩
  rw [put, FileTask.exec_bind, FileTask.exec_ofOutcome, hcheck]
  simp only
  rw [FileTask.exec_bind, exec_load, hload]
  simp only [if_neg hne]
  exact FileTask.exec_bind_of_ok hstore

/-! ## Removing -/

/-- The results of removing an entity. -/
inductive Removes (tree : FileTree) (root : String) (base : Place) (id : Id) :
    Outcome (Entity c) → FileTree → Prop where
  /-- nothing has changed -/
  | refused (f : Failure) : Removes tree root base id (.error f) tree
  /-- the index named a type whose document lacks the entity; it names it no longer -/
  | stale (f : Failure) (tree' : FileTree) (key type : String) (index : Entries String)
    (entities : List (Entity c)) :
    id.requireText = .ok key → (tree.shelf root c).index = .ok index →
    Entries.get? key index = some type → (tree.shelf root c).load type = .ok entities →
    find id entities = none →
    tree.Updates tree' root base ((tree.shelf root c).setIndex (index.erase key)) →
    Removes tree root base id (.error f) tree'
  | done (tree' : FileTree) (key type : String) (index : Entries String)
    (entities : List (Entity c)) (entity : Entity c) :
    (tree.shelf root c).Located id key type index entities entity →
    tree.Updates tree' root base
      (((tree.shelf root c).put type (removeFirst id entities)).setIndex (index.erase key)) →
    Removes tree root base id (.ok entity) tree'

theorem exec_remove (h : tree.Hosts root base) (hready : (tree.shelf root c).Ready root) (id : Id) :
    ∃ outcome tree', (remove root c id).exec tree = (outcome, tree')
      ∧ Removes tree root base id outcome tree' := by
  rw [remove, FileTask.exec_bind, FileTask.exec_ofOutcome]
  cases hkey : id.requireText with
  | error f => exact ⟨_, _, rfl, .refused f⟩
  | ok key =>
    simp only
    rw [FileTask.exec_bind, exec_index]
    cases hindex : (tree.shelf root c).index with
    | error f => exact ⟨_, _, rfl, .refused f⟩
    | ok index =>
      simp only
      cases htype : Entries.get? key index with
      | none => exact ⟨_, _, rfl, .refused _⟩
      | some type =>
        simp only
        rw [FileTask.exec_bind, exec_load]
        have hwritable := hready.writable_index hindex htype
        have hkeys := Entries.nodup_keys_erase (hready.keys index hindex) key
        cases hload : (tree.shelf root c).load type with
        | error f => exact ⟨_, _, rfl, .refused f⟩
        | ok entities =>
          simp only
          -- the index may name a document that lacks the entity: then only the index is mended
          cases hfind : find id entities with
          | none =>
            obtain ⟨tree', hstore, hset⟩ := exec_storeIndex h hwritable hkeys
            simp only
            rw [FileTask.exec_bind_of_ok hstore]
            exact ⟨_, _, rfl, .stale _ tree' key type index entities hkey hindex htype hload hfind
              hset⟩
          | some entity =>
            have hlocated : (tree.shelf root c).Located id key type index entities entity :=
              ⟨hkey, hindex, htype, hload, hfind⟩
            obtain ⟨tree', hstore, hput⟩ := exec_store h (Shelf.checkType_of_load hload)
              (hready.documents type hlocated.has) (removeFirst id entities)
            obtain ⟨tree'', hstore', hset⟩ := exec_storeIndex hput.hosts hwritable hkeys
            simp only
            rw [FileTask.exec_bind_of_ok hstore, FileTask.exec_bind_of_ok hstore']
            rw [hput.here] at hset
            exact ⟨_, _, rfl, .done tree'' key type index entities entity hlocated
              (hput.trans hset)⟩

end Catalog

end PropertyGraph
