/-
  PropertyGraph.Proofs.Storage.FailureCauses

  What a task can fail of, whatever the tree it runs on.  A sequence fails of what its parts fail
  of, so the causes are collected request by request and task by task.  Once an entity has been
  located, nothing that is done to it misses anything: a change in documents reports a missing
  entity under the identity that it was given, or fails of what it keeps.
-/
import PropertyGraph.Proofs.Storage.Catalog
import PropertyGraph.Storage.Engine

namespace PropertyGraph

variable {α β : Type} {c : EntityClass} {P Q : Failure → Prop}

/-! ## Tasks -/

namespace FileTask

/-- A task fails of nothing but some failures, whatever the tree. -/
def FailsOnly (P : Failure → Prop) (task : FileTask α) : Prop :=
  ∀ tree failure, (task.exec tree).1 = .error failure → P failure

theorem FailsOnly.mono {task : FileTask α} (h : task.FailsOnly P)
    (hsub : ∀ failure, P failure → Q failure) : task.FailsOnly Q :=
  fun tree failure hfails => hsub failure (h tree failure hfails)

theorem failsOnly_pure (a : α) : (pure a : FileTask α).FailsOnly P := by
  intro tree failure h
  cases h

theorem failsOnly_throw {failure : Failure} (h : P failure) :
    (throw failure : FileTask α).FailsOnly P := by
  intro tree other hfails
  rw [← Except.error.inj hfails]
  exact h

theorem FailsOnly.bind {task : FileTask α} {next : α → FileTask β} (h : task.FailsOnly P)
    (hnext : ∀ a, (next a).FailsOnly P) : (task >>= next).FailsOnly P := by
  intro tree failure hfails
  rw [exec_bind] at hfails
  rcases htask : task.exec tree with ⟨_ | a, tree'⟩
  · rw [htask] at hfails
    exact h tree failure (by rw [htask]; exact congrArg Except.error (Except.error.inj hfails))
  · rw [htask] at hfails
    exact hnext a tree' failure hfails

/-- A known outcome, and a task that goes on with it. -/
theorem failsOnly_ofOutcome_bind {o : Outcome α} {next : α → FileTask β}
    (h : ∀ failure, o = .error failure → P failure)
    (hnext : ∀ a, o = .ok a → (next a).FailsOnly P) : (ofOutcome o >>= next).FailsOnly P := by
  intro tree failure hfails
  rw [exec_bind, exec_ofOutcome] at hfails
  cases o with
  | error other => exact h failure (congrArg Except.error (Except.error.inj hfails))
  | ok a => exact hnext a rfl tree failure hfails

/-! ### Requests -/

theorem failsOnly_read (hio : P .io) (path : String) : (read path).FailsOnly P := by
  intro tree failure hfails
  rw [exec_read] at hfails
  rcases hread : tree.read path with (_ | _) | text
  · rw [hread] at hfails
    cases hfails
  · rw [hread] at hfails
    rw [← Except.error.inj hfails]
    exact hio
  · rw [hread] at hfails
    cases hfails

theorem failsOnly_change (hio : P .io) (r : FileRequest) : (change r).FailsOnly P := by
  intro tree failure hfails
  rw [change, exec_request] at hfails
  split at hfails
  · cases hfails
  · rw [← Except.error.inj hfails]
    exact hio

theorem failsOnly_remove (hio : P .io) (path : String) : (remove path).FailsOnly P := by
  intro tree failure hfails
  rw [remove, exec_request] at hfails
  split at hfails
  · cases hfails
  · cases hfails
  · rw [← Except.error.inj hfails]
    exact hio

theorem failsOnly_replace (hio : P .io) (path text : String) : (replace path text).FailsOnly P :=
  (failsOnly_change hio _).bind fun _ => failsOnly_change hio _

end FileTask

open FileTask

/-! ## Entities in documents -/

/-- What keeping an entity fails of: files, a type that is no part of a file name, an identity that
    is no text. -/
inductive Failure.OfKeeping : Failure → Prop
  | files {failure : Failure} (h : failure.OfFiles) : OfKeeping failure
  | typeName (type : String) : OfKeeping (.typeName type)
  | notText (id : Id) : OfKeeping (.identity (.notText id))

open Failure (OfKeeping)

theorem Failure.OfKeeping.ne_notFound {failure : Failure} (h : failure.OfKeeping) (c : EntityClass)
    (id : Id) : failure ≠ .notFound c id := by
  rintro rfl
  cases h with
  | files hfiles => exact hfiles

theorem Failure.OfKeeping.io : OfKeeping .io := .files trivial

theorem Naming.ofKeeping_of_checkType {type : String} {failure : Failure}
    (h : Naming.checkType type = .error failure) : failure.OfKeeping := by
  rw [checkType] at h
  split at h
  · cases h
  · rw [← Except.error.inj h]
    exact .typeName type

theorem Id.ofKeeping_of_requireText {id : Id} {failure : Failure}
    (h : id.requireText = .error failure) : failure.OfKeeping := by
  rw [requireText] at h
  split at h
  · cases h
  · rw [← Except.error.inj h]
    exact .notText id

theorem Document.failsOnly_read (path : String) (payload : Json.Tree → Json.Decoded α)
    (absent : α) : (Document.read path payload absent).FailsOnly Failure.OfFiles := by
  intro tree failure hfails
  rw [Document.exec_read] at hfails
  exact ofFiles_of_payload hfails

namespace Catalog

variable (root : String)

theorem failsOnly_index (c : EntityClass) : (index root c).FailsOnly OfKeeping :=
  (Document.failsOnly_read _ _ _).mono fun _ => .files

theorem failsOnly_types (c : EntityClass) : (types root c).FailsOnly OfKeeping :=
  (Document.failsOnly_read _ _ _).mono fun _ => .files

theorem failsOnly_load (c : EntityClass) (type : String) : (load root c type).FailsOnly OfKeeping := by
  refine failsOnly_ofOutcome_bind (fun _ => Naming.ofKeeping_of_checkType) fun _ _ => ?_
  exact (Document.failsOnly_read _ _ _).mono fun _ => .files

theorem failsOnly_store (hio : P .io) (type : String) (entities : List (Entity c)) :
    (store root type entities).FailsOnly P := failsOnly_replace hio _ _

theorem failsOnly_storeIndex (hio : P .io) (c : EntityClass) (entries : Entries String) :
    (storeIndex root c entries).FailsOnly P := failsOnly_replace hio _ _

theorem failsOnly_record (c : EntityClass) (key type : String) :
    (record root c key type).FailsOnly OfKeeping := by
  refine (failsOnly_index root c).bind fun entries => ?_
  refine (failsOnly_storeIndex root .io c _).bind fun _ => ?_
  refine (failsOnly_types root c).bind fun known => ?_
  split
  · exact failsOnly_replace .io _ _
  · exact failsOnly_pure _

theorem failsOnly_insert (e : Entity c) : (insert root e).FailsOnly OfKeeping := by
  refine failsOnly_ofOutcome_bind (fun _ => Naming.ofKeeping_of_checkType) fun _ _ => ?_
  refine failsOnly_ofOutcome_bind (fun _ => Id.ofKeeping_of_requireText) fun key _ => ?_
  refine (failsOnly_load root c e.type).bind fun entities => ?_
  exact (failsOnly_store root .io e.type _).bind fun _ => failsOnly_record root c key e.type

theorem failsOnly_put (old : String) (e : Entity c) : (put root old e).FailsOnly OfKeeping := by
  refine failsOnly_ofOutcome_bind (fun _ => Naming.ofKeeping_of_checkType) fun _ _ => ?_
  refine (failsOnly_load root c old).bind fun entities => ?_
  split
  · exact failsOnly_store root .io old _
  · exact (failsOnly_store root .io old _).bind fun _ => failsOnly_insert root e

end Catalog

namespace RawText

variable (rule : RawText) (root : String) (node : Node)

theorem failsOnly_merge (hio : P .io) : (rule.merge root node).FailsOnly P := by
  rw [merge]
  split
  · exact (FileTask.failsOnly_read hio _).bind fun _ => failsOnly_pure _
  · exact failsOnly_pure _

theorem failsOnly_split : (rule.split root node).FailsOnly OfKeeping := by
  rw [RawText.split]
  split
  · refine failsOnly_ofOutcome_bind (fun _ => Id.ofKeeping_of_requireText) fun id _ => ?_
    refine (failsOnly_change .io _).bind fun _ => ?_
    exact (failsOnly_change .io _).bind fun _ => failsOnly_pure _
  · exact failsOnly_pure _

theorem failsOnly_discard : (discard root node).FailsOnly OfKeeping := by
  rw [discard]
  split
  · exact FileTask.failsOnly_remove .io _
  · exact failsOnly_pure _

end RawText

namespace Engine

variable (g : Engine)

/-- Rule after rule, and nothing else. -/
theorem failsOnly_foldlM {step : Node → RawText → FileTask Node}
    (hstep : ∀ node rule, (step node rule).FailsOnly P) (rules : List RawText) (node : Node) :
    (rules.foldlM step node).FailsOnly P := by
  induction rules generalizing node with
  | nil => exact failsOnly_pure _
  | cons rule rest ih =>
    rw [List.foldlM_cons]
    exact (hstep node rule).bind ih

theorem failsOnly_view (hio : P .io) (e : Entity c) : (g.view e).FailsOnly P := by
  cases c with
  | relationship => exact failsOnly_pure _
  | node => exact failsOnly_foldlM (fun node rule => rule.failsOnly_merge g.root node hio) _ e

theorem failsOnly_stored (e : Entity c) : (g.stored e).FailsOnly OfKeeping := by
  cases c with
  | relationship => exact failsOnly_pure _
  | node => exact failsOnly_foldlM (fun node rule => rule.failsOnly_split g.root node) _ e

theorem failsOnly_discard (type : String) (e : Entity c) :
    (g.discard type e).FailsOnly OfKeeping := by
  cases c with
  | relationship => exact failsOnly_pure _
  | node =>
    rw [discard]
    induction g.rulesFor type with
    | nil => exact failsOnly_pure _
    | cons rule rest ih => exact (RawText.failsOnly_discard g.root e).bind fun _ => ih

end Engine

/-! ## Changes in documents -/

/-- What a change of an entity in documents fails of: of what keeping an entity fails of, or that
    there is none under the identity. -/
def Failure.OfChange (c : EntityClass) (id : Id) (failure : Failure) : Prop :=
  failure.OfKeeping ∨ failure = .notFound c id

open Failure (OfChange)

namespace Catalog

variable (root : String) (c : EntityClass) (id : Id)

theorem failsOnly_locate : (locate root c id).FailsOnly (OfChange c id) := by
  refine failsOnly_ofOutcome_bind (fun _ h => .inl (Id.ofKeeping_of_requireText h)) fun key _ => ?_
  have htypeOf : (typeOf root c key).FailsOnly (OfChange c id) :=
    ((failsOnly_index root c).mono fun _ => .inl).bind fun _ => failsOnly_pure _
  refine htypeOf.bind fun type? => ?_
  split
  · exact failsOnly_throw (.inr rfl)
  · refine ((failsOnly_load root c _).mono fun _ => .inl).bind fun entities => ?_
    split
    · exact failsOnly_pure _
    · exact failsOnly_throw (.inr rfl)

theorem failsOnly_remove : (remove root c id).FailsOnly (OfChange c id) := by
  refine failsOnly_ofOutcome_bind (fun _ h => .inl (Id.ofKeeping_of_requireText h)) fun key _ => ?_
  refine ((failsOnly_index root c).mono fun _ => .inl).bind fun entries => ?_
  have hforget : (storeIndex root c (entries.erase key)).FailsOnly (OfChange c id) :=
    failsOnly_storeIndex root (.inl .io) c _
  split
  · exact failsOnly_throw (.inr rfl)
  · refine ((failsOnly_load root c _).mono fun _ => .inl).bind fun entities => ?_
    split
    · refine (failsOnly_store root (.inl .io) _ _).bind fun _ => ?_
      exact hforget.bind fun _ => failsOnly_pure _
    · exact hforget.bind fun _ => failsOnly_throw (.inr rfl)

end Catalog

namespace Engine

variable (g : Engine) (c : EntityClass) (id : Id)

/-- What is left of an edit, once the entity has been located. -/
theorem failsOnly_edit_located (stamp : Stamp) (patch : Patch c) (old : String) (kept : Entity c) :
    FailsOnly OfKeeping (do
      let e := patch.apply (← g.view kept) stamp.time
      FileTask.ofOutcome (Naming.checkType e.type)
      g.discard old kept
      Catalog.put g.root old (← g.stored e)
      return e) := by
  refine (g.failsOnly_view .io kept).bind fun seen => ?_
  refine failsOnly_ofOutcome_bind (fun _ => Naming.ofKeeping_of_checkType) fun _ _ => ?_
  refine (g.failsOnly_discard old kept).bind fun _ => ?_
  refine (g.failsOnly_stored _).bind fun kept' => ?_
  exact (Catalog.failsOnly_put g.root old kept').bind fun _ => failsOnly_pure _

theorem failsOnly_edit (stamp : Stamp) (patch : Patch c) :
    (g.edit stamp id patch).FailsOnly (OfChange c id) :=
  (Catalog.failsOnly_locate g.root c id).bind fun (old, kept) =>
    (g.failsOnly_edit_located c stamp patch old kept).mono fun _ => .inl

theorem failsOnly_remove : (g.remove c id).FailsOnly (OfChange c id) := by
  refine (Catalog.failsOnly_remove g.root c id).bind fun kept => ?_
  exact (g.failsOnly_discard kept.type kept).mono fun _ => .inl

end Engine

/-! ## Missing entities -/

/-- What a lookup by identity comes upon, by what it gives. -/
inductive Shelf.Seeks (s : Shelf c) (id : Id) : Outcome (Option (Entity c)) → Prop
  | unnamed {failure : Failure} : id.requireText = .error failure → Seeks s id (.error failure)
  | unindexed {key : String} {failure : Failure} : id.requireText = .ok key →
    s.index = .error failure → Seeks s id (.error failure)
  /-- the index does not know the identity -/
  | unlisted {key : String} {index : Entries String} : id.requireText = .ok key →
    s.index = .ok index → Entries.get? key index = none → Seeks s id (.ok none)
  | unread {key type : String} {index : Entries String} {failure : Failure} :
    id.requireText = .ok key → s.index = .ok index → Entries.get? key index = some type →
    s.load type = .error failure → Seeks s id (.error failure)
  /-- the index names a type whose document lacks the entity -/
  | stale {key type : String} {index : Entries String} {entities : List (Entity c)} :
    id.requireText = .ok key → s.index = .ok index → Entries.get? key index = some type →
    s.load type = .ok entities → Catalog.find id entities = none → Seeks s id (.ok none)
  | located {key type : String} {index : Entries String} {entities : List (Entity c)}
    {e : Entity c} : s.Located id key type index entities e → Seeks s id (.ok (some e))

theorem Shelf.seeks (s : Shelf c) (id : Id) : s.Seeks id (s.get id) := by
  rw [get]
  cases hkey : id.requireText with
  | error failure => exact .unnamed hkey
  | ok key =>
    cases hindex : s.index with
    | error failure => exact .unindexed hkey hindex
    | ok index =>
      simp only [bind, Except.bind]
      cases htype : Entries.get? key index with
      | none => exact .unlisted hkey hindex htype
      | some type =>
        simp only
        cases hload : s.load type with
        | error failure => exact .unread hkey hindex htype hload
        | ok entities =>
          simp only
          cases hfind : Catalog.find id entities with
          | none => exact .stale hkey hindex htype hload hfind
          | some e => exact .located ⟨hkey, hindex, htype, hload, hfind⟩

/-- The index names a type for an identity. -/
def Shelf.Indexes (s : Shelf c) (id : Id) : Prop :=
  ∃ key index type, id.requireText = .ok key ∧ s.index = .ok index
    ∧ Entries.get? key index = some type

section Sought

variable {root : String} {tree : FileTree} {id : Id}

/-- What is not found is not located. -/
theorem Shelf.Seeks.locate_of_none {s : Shelf c} (h : s.Seeks id (.ok none)) :
    s.locate id = .error (.notFound c id) := by
  cases h with
  | unlisted hkey hindex htype =>
    simp [locate, hkey, hindex, htype, bind, Except.bind, throw, throwThe, MonadExceptOf.throw]
  | stale hkey hindex htype hload hfind =>
    simp [locate, hkey, hindex, htype, hload, hfind, bind, Except.bind, throw, throwThe,
      MonadExceptOf.throw]

/-- What fails to be looked up fails to be located. -/
theorem Shelf.Seeks.locate_of_error {s : Shelf c} {failure : Failure}
    (h : s.Seeks id (.error failure)) : s.locate id = .error failure := by
  cases h with
  | unnamed hkey => simp [locate, hkey, bind, Except.bind]
  | unindexed hkey hindex => simp [locate, hkey, hindex, bind, Except.bind]
  | unread hkey hindex htype hload => simp [locate, hkey, hindex, htype, hload, bind, Except.bind]

/-- A lookup does not miss what it looks for. -/
theorem Shelf.Seeks.ofKeeping {failure : Failure}
    (h : (tree.shelf root c).Seeks id (.error failure)) : failure.OfKeeping := by
  cases h with
  | unnamed hkey => exact Id.ofKeeping_of_requireText hkey
  | unindexed hkey hindex => exact .files (Document.ofFiles_of_payload hindex)
  | unread hkey hindex htype hload =>
    exact Catalog.failsOnly_load root c _ tree _ (by rw [Catalog.exec_load, hload])

namespace Catalog

/-- A removal whose lookup fails reports the failure of the lookup. -/
theorem exec_remove_of_error {failure : Failure}
    (h : (tree.shelf root c).Seeks id (.error failure)) :
    ((remove root c id).exec tree).1 = .error failure := by
  rw [remove, exec_bind, exec_ofOutcome]
  cases h with
  | unnamed hkey => rw [hkey]
  | unindexed hkey hindex => simp only [hkey, exec_bind, exec_index, hindex]
  | unread hkey hindex htype hload =>
    simp only [hkey, exec_bind, exec_index, hindex, htype, exec_load, hload]

/-- A removal that finds nothing reports it, or fails to forget what the index says. -/
theorem exec_remove_of_none (h : (tree.shelf root c).Seeks id (.ok none)) :
    ((remove root c id).exec tree).1 = .error (.notFound c id)
      ∨ ((remove root c id).exec tree).1 = .error .io ∧ (tree.shelf root c).Indexes id := by
  rw [remove, exec_bind, exec_ofOutcome]
  cases h with
  | unlisted hkey hindex htype =>
    simp only [hkey, exec_bind, exec_index, hindex, htype]
    exact .inl rfl
  | @stale key type index entities hkey hindex htype hload hfind =>
    simp only [hkey, exec_bind, exec_index, hindex, htype, exec_load, hload, hfind]
    rcases hforget : (storeIndex root c (index.erase key)).exec tree with ⟨failure | u, tree'⟩
    · have hio : failure = .io :=
        failsOnly_storeIndex root (P := (· = .io)) rfl c _ tree failure (by rw [hforget])
      exact .inr ⟨congrArg Except.error hio, key, index, type, hkey, hindex, htype⟩
    · exact .inl rfl

/-- A removal that finds an entity does not report a missing one. -/
theorem exec_remove_of_some {e : Entity c} {failure : Failure}
    (h : (tree.shelf root c).Seeks id (.ok (some e)))
    (hfails : ((remove root c id).exec tree).1 = .error failure) : failure.OfKeeping := by
  cases h with
  | @located key type entries entities _ hlocated =>
    have hkey : (ofOutcome id.requireText).exec tree = (.ok key, tree) := by
      rw [exec_ofOutcome, hlocated.named]
    have hindex : (index root c).exec tree = (.ok entries, tree) := by
      rw [exec_index, hlocated.indexed]
    have hload : (load root c type).exec tree = (.ok entities, tree) := by
      rw [exec_load, hlocated.loaded]
    rw [remove, exec_bind_of_ok hkey, exec_bind_of_ok hindex] at hfails
    simp only [hlocated.typed] at hfails
    rw [exec_bind_of_ok hload] at hfails
    simp only [hlocated.found] at hfails
    -- what is left to do is to write two documents
    refine ((failsOnly_store root .io _ _).bind fun _ => ?_) tree failure hfails
    exact (failsOnly_storeIndex root .io c _).bind fun _ => failsOnly_pure _

end Catalog

namespace Engine

variable {g : Engine}

/-- A lookup comes upon nothing exactly when the index leads to nothing. -/
theorem exec_get_eq_none_iff :
    ((g.get c id).exec tree).1 = .ok none ↔ (tree.shelf g.root c).get id = .ok none := by
  rw [get, exec_bind, Catalog.exec_get]
  cases (tree.shelf g.root c).get id with
  | error failure => exact ⟨nofun, nofun⟩
  | ok found =>
    cases found with
    | none => exact ⟨fun _ => rfl, fun _ => rfl⟩
    | some e =>
      refine ⟨fun h => ?_, nofun⟩
      simp only [exec_bind] at h
      rcases hview : (g.view e).exec tree with ⟨_ | seen, tree'⟩
      · rw [hview] at h
        cases h
      · rw [hview] at h
        cases h

theorem exec_edit_of_none (hnone : ((g.get c id).exec tree).1 = .ok none) (stamp : Stamp)
    (patch : Patch c) : ((g.edit stamp id patch).exec tree).1 = .error (.notFound c id) := by
  have hseeks := (tree.shelf g.root c).seeks id
  rw [exec_get_eq_none_iff.1 hnone] at hseeks
  rw [edit, exec_bind, Catalog.exec_locate, hseeks.locate_of_none]

/-- A removal that finds nothing reports it, or fails to forget what the index says. -/
theorem exec_remove_of_none (hnone : ((g.get c id).exec tree).1 = .ok none) :
    ((g.remove c id).exec tree).1 = .error (.notFound c id)
      ∨ ((g.remove c id).exec tree).1 = .error .io ∧ (tree.shelf g.root c).Indexes id := by
  have hseeks := (tree.shelf g.root c).seeks id
  rw [exec_get_eq_none_iff.1 hnone] at hseeks
  have hcases := Catalog.exec_remove_of_none hseeks
  rw [remove, exec_bind]
  rcases hremove : (Catalog.remove g.root c id).exec tree with ⟨outcome, tree'⟩
  rw [hremove] at hcases
  obtain rfl | ⟨rfl, hindexes⟩ := hcases
  · exact .inl rfl
  · exact .inr ⟨rfl, hindexes⟩

/-- An edit misses an entity only where a lookup finds none. -/
theorem none_of_exec_edit {stamp : Stamp} {patch : Patch c}
    (hmissing : ((g.edit stamp id patch).exec tree).1 = .error (.notFound c id)) :
    ((g.get c id).exec tree).1 = .ok none := by
  rw [exec_get_eq_none_iff]
  have hseeks := (tree.shelf g.root c).seeks id
  rw [edit, exec_bind, Catalog.exec_locate] at hmissing
  cases hget : (tree.shelf g.root c).get id with
  | error failure =>
    rw [hget] at hseeks
    rw [hseeks.locate_of_error] at hmissing
    exact absurd (Except.error.inj hmissing) (hseeks.ofKeeping.ne_notFound c id)
  | ok found =>
    rw [hget] at hseeks
    cases hseeks with
    | located hlocated =>
      rw [hlocated.locate_eq] at hmissing
      exact absurd rfl ((g.failsOnly_edit_located c stamp patch _ _ _ _ hmissing).ne_notFound c id)
    | _ => rfl

/-- A removal misses an entity only where a lookup finds none. -/
theorem none_of_exec_remove
    (hmissing : ((g.remove c id).exec tree).1 = .error (.notFound c id)) :
    ((g.get c id).exec tree).1 = .ok none := by
  rw [exec_get_eq_none_iff]
  have hseeks := (tree.shelf g.root c).seeks id
  rw [remove, exec_bind] at hmissing
  rcases hremove : (Catalog.remove g.root c id).exec tree with ⟨failure | kept, tree'⟩
  · rw [hremove] at hmissing
    obtain rfl := Except.error.inj hmissing
    cases hget : (tree.shelf g.root c).get id with
    | error other =>
      rw [hget] at hseeks
      have hother := Catalog.exec_remove_of_error hseeks
      rw [hremove] at hother
      exact absurd (Except.error.inj hother).symm (hseeks.ofKeeping.ne_notFound c id)
    | ok found =>
      rw [hget] at hseeks
      cases found with
      | none => rfl
      | some e =>
        have hkeeping := Catalog.exec_remove_of_some hseeks (by rw [hremove])
        exact absurd rfl (hkeeping.ne_notFound c id)
  · rw [hremove] at hmissing
    exact absurd rfl ((g.failsOnly_discard kept.type kept tree' _ hmissing).ne_notFound c id)

end Engine

end Sought

end PropertyGraph
