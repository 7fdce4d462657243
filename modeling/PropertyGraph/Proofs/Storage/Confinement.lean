/-
  PropertyGraph.Proofs.Storage.Confinement

  The file engine stays below its root.  The names of documents are made from types that are
  checked and from fixed words; the names of raw texts are made from identities, or taken from
  the bags of stored nodes.  The latter are names that the engine has made itself as long as
  owners leave the key of file names alone.  An owner who does not can have files outside of
  the root read, and removed.
-/
import PropertyGraph.Proofs.Json.DoubleText
import PropertyGraph.Proofs.Storage.Enclosure
import PropertyGraph.Proofs.Storage.Lookup

namespace PropertyGraph

open FilePath (Below PlainName)
open FileTask (Stays stays_ofOutcome stays_pure stays_throw stays_request)
open Naming (checkType PlainStem jsonPath rawName rawPath)

variable {α : Type} {c : EntityClass} {g : Engine} {p : Number → Prop} {root key : String}
  {base : Place} {tree tree' : FileTree} {used : List String}

/-! ## Documents -/

theorem Naming.below_jsonPath {stem : String} (h : PlainStem stem) : Below root (jsonPath root stem) :=
  .name h.json

namespace FileTask

theorem stays_read {path : String} (h : Below root path) (tree : FileTree) :
    (read path).Stays root tree :=
  stays_request (.read h) _

theorem stays_replace {stem : String} (h : PlainStem stem) (text : String) (tree : FileTree) :
    (replace (jsonPath root stem) text).Stays root tree := by
  have haside : FilePath.withExtension (jsonPath root stem) "json.tmp"
      = FilePath.join root (stem ++ ".json.tmp") :=
    FilePath.withExtension_join_json h.no_slash h.ne_empty h.ne_point
  rw [replace, haside]
  -- the new text is written aside and then renamed
  exact (stays_request (.write (.name h.aside)) _).bind fun _ _ =>
    stays_request (.rename (.name h.aside) (.name h.json)) _

end FileTask

theorem Document.stays_read {path : String} (h : Below root path)
    (decode : Json.Tree → Json.Decoded α) (absent : α) (tree : FileTree) :
    (Document.read path decode absent).Stays root tree := by
  rw [Document.read]
  refine (FileTask.stays_read h tree).bind fun found _ => ?_
  cases found with
  | none => exact stays_pure _
  | some text => exact stays_ofOutcome _

theorem Document.stays_write {stem : String} (h : PlainStem stem) (data : Json) (tree : FileTree) :
    (Document.write (jsonPath root stem) data).Stays root tree :=
  FileTask.stays_replace h _ tree

namespace Catalog

theorem stays_types (root : String) (c : EntityClass) (tree : FileTree) :
    (types root c).Stays root tree := by
  rw [types, Naming.typeListPath_eq]
  exact Document.stays_read (Naming.below_jsonPath (Naming.plainStem_typeList c)) _ _ tree

theorem stays_index (root : String) (c : EntityClass) (tree : FileTree) :
    (index root c).Stays root tree := by
  rw [index, Naming.indexPath_eq]
  exact Document.stays_read (Naming.below_jsonPath (Naming.plainStem_index c)) _ _ tree

theorem stays_typeOf (root : String) (c : EntityClass) (key : String) (tree : FileTree) :
    (typeOf root c key).Stays root tree :=
  (stays_index root c tree).bind fun _ _ => stays_pure _

theorem stays_load (root : String) (c : EntityClass) (type : String) (tree : FileTree) :
    (load root c type).Stays root tree := by
  rw [load]
  refine (stays_ofOutcome _).bind fun _ hcheck => ?_
  exact Document.stays_read (Naming.below_jsonPath (Naming.plainStem_document c hcheck)) _ _ _

theorem stays_get (root : String) (c : EntityClass) (id : Id) (tree : FileTree) :
    (get root c id).Stays root tree := by
  rw [get]
  refine (stays_ofOutcome _).bind fun key _ => ?_
  refine (stays_typeOf root c key _).bind fun found _ => ?_
  cases found with
  | none => exact stays_pure _
  | some type => exact (stays_load root c type _).bind fun _ _ => stays_pure _

theorem stays_locate (root : String) (c : EntityClass) (id : Id) (tree : FileTree) :
    (locate root c id).Stays root tree := by
  rw [locate]
  refine (stays_ofOutcome _).bind fun key _ => ?_
  refine (stays_typeOf root c key _).bind fun found _ => ?_
  cases found with
  | none => exact stays_throw _
  | some type =>
    refine (stays_load root c type _).bind fun entities _ => ?_
    cases find id entities with
    | none => exact stays_throw _
    | some e => exact stays_pure _

theorem stays_store {type : String} (hcheck : checkType type = .ok ()) (entities : List (Entity c))
    (tree : FileTree) : (store root type entities).Stays root tree := by
  rw [store, Naming.documentPath_eq]
  exact Document.stays_write (Naming.plainStem_document c hcheck) _ tree

theorem stays_storeIndex (root : String) (c : EntityClass) (entries : Entries String)
    (tree : FileTree) : (storeIndex root c entries).Stays root tree := by
  rw [storeIndex, Naming.indexPath_eq]
  exact Document.stays_write (Naming.plainStem_index c) _ tree

theorem stays_record (root : String) (c : EntityClass) (key type : String) (tree : FileTree) :
    (record root c key type).Stays root tree := by
  rw [record]
  refine (stays_index root c tree).bind fun entries _ => ?_
  refine (stays_storeIndex root c _ _).bind fun _ _ => ?_
  refine (stays_types root c _).bind fun known _ => ?_
  cases addType known type with
  | none => exact stays_pure _
  | some types =>
    simp only [Naming.typeListPath_eq]
    exact Document.stays_write (Naming.plainStem_typeList c) _ _

/-- What has been loaded has a type that is accepted. -/
theorem checkType_of_exec_load {type : String} {entities : List (Entity c)}
    (h : ((load root c type).exec tree).1 = .ok entities) : checkType type = .ok () := by
  rw [exec_load] at h
  exact Shelf.checkType_of_load h

theorem stays_insert (root : String) (entity : Entity c) (tree : FileTree) :
    (insert root entity).Stays root tree := by
  rw [insert]
  refine (stays_ofOutcome _).bind fun _ hcheck => ?_
  refine (stays_ofOutcome _).bind fun key _ => ?_
  refine (stays_load root c entity.type _).bind fun entities _ => ?_
  exact (stays_store hcheck _ _).bind fun _ _ => stays_record root c key entity.type _

theorem stays_put (root old : String) (entity : Entity c) (tree : FileTree) :
    (put root old entity).Stays root tree := by
  rw [put]
  refine (stays_ofOutcome _).bind fun _ _ => ?_
  refine (stays_load root c old _).bind fun entities hload => ?_
  have hcheck := checkType_of_exec_load hload
  by_cases htype : entity.type = old
  · rw [if_pos htype]
    exact stays_store hcheck _ _
  · rw [if_neg htype]
    exact (stays_store hcheck _ _).bind fun _ _ => stays_insert root entity _

theorem stays_remove (root : String) (c : EntityClass) (id : Id) (tree : FileTree) :
    (remove root c id).Stays root tree := by
  rw [remove]
  refine (stays_ofOutcome _).bind fun key _ => ?_
  refine (stays_index root c _).bind fun entries _ => ?_
  cases Entries.get? key entries with
  | none => exact stays_throw _
  | some type =>
    refine (stays_load root c type _).bind fun entities hload => ?_
    have hcheck := checkType_of_exec_load hload
    cases find id entities with
    | none => exact (stays_storeIndex root c _ _).bind fun _ _ => stays_throw _
    | some e =>
      refine (stays_store hcheck _ _).bind fun _ _ => ?_
      exact (stays_storeIndex root c _ _).bind fun _ _ => stays_pure _

end Catalog

/-! ## Raw texts -/

/-- An identity without slashes makes a plain name. -/
theorem Naming.below_rawPath (h : '/' ∉ key.toList) : Below root (rawPath root (rawName key)) := by
  have hslash : '/' ∉ (rawName key).toList := by
    rw [rawName, String.toList_append, List.mem_append]
    exact not_or.2 ⟨h, by decide⟩
  have hlong : ∀ s : String, s.length < 3 → rawName key ≠ s := by
    intro s hs he
    have hlength := congrArg String.length he
    have htxt : 3 ≤ ".txt".length := by decide
    rw [rawName, String.length_append] at hlength
    omega
  exact .raw ⟨hlong _ (by decide), hlong _ (by decide), hlong _ (by decide), hslash⟩

namespace RawText

theorem stays_merge (rule : RawText) {node : Node}
    (h : ∀ file, Entries.get? fileKey node.properties = some (.string file) →
      Below root (rawPath root file)) (tree : FileTree) : (rule.merge root node).Stays root tree := by
  rw [merge]
  split
  · exact (FileTask.stays_read (h _ ‹_›) tree).bind fun _ _ => stays_pure _
  · exact stays_pure _

/-- A rule that keeps its text under a key of its own leaves no name of a file in the bag. -/
theorem get?_fileKey_of_merge {rule : RawText} (hproperty : rule.property ≠ fileKey)
    {node node' : Node} (h : ((rule.merge root node).exec tree).1 = .ok node') :
    ∀ file, Entries.get? fileKey node'.properties ≠ some (.string file) := by
  intro file hfile
  rw [merge] at h
  split at h
  · obtain ⟨text, tree₁, -, hnext⟩ := FileTask.exec_bind_eq_ok (Prod.ext h rfl)
    obtain rfl := Except.ok.inj (congrArg Prod.fst hnext)
    have hnone : Entries.get? fileKey
        (renameEntry fileKey rule.property (.string (text.getD "")) node.properties) = none :=
      get?_renameEntry_source hproperty
    rw [withBag, hnone] at hfile
    cases hfile
  · obtain rfl := Except.ok.inj h
    rename_i hother
    exact hother file hfile

/-- A node that names no file has none read. -/
theorem stays_mergeAll_none (rules : List RawText) {node : Node}
    (h : Entries.get? fileKey node.properties = none) (tree : FileTree) :
    (rules.foldlM (fun e rule => merge rule root e) node : FileTask Node).Stays root tree := by
  induction rules generalizing tree with
  | nil => exact stays_pure _
  | cons rule rest ih =>
    rw [List.foldlM_cons]
    refine (stays_merge rule (by rw [h]; nofun) tree).bind fun node' hmerge => ?_
    rw [exec_merge_none rule h] at hmerge
    obtain rfl := Except.ok.inj hmerge
    exact ih _

/-- Giving the texts back reads the file that the node names, and no other one. -/
theorem stays_mergeAll {rules : List RawText} {node : Node}
    (hproperty : ∀ rule ∈ rules, rule.property ≠ fileKey)
    (h : ∀ file, Entries.get? fileKey node.properties = some (.string file) →
      Below root (rawPath root file)) (tree : FileTree) :
    (rules.foldlM (fun e rule => merge rule root e) node : FileTask Node).Stays root tree := by
  induction rules generalizing node tree with
  | nil => exact stays_pure _
  | cons rule rest ih =>
    rw [List.foldlM_cons]
    refine (stays_merge rule h tree).bind fun node' hmerge => ?_
    -- the first rule has taken the name of the file away
    have hnone := get?_fileKey_of_merge (hproperty rule (List.mem_cons_self ..)) hmerge
    exact ih (fun other hother => hproperty other (List.mem_cons_of_mem _ hother))
      (fun file hfile => absurd hfile (hnone file)) _

theorem stays_split (rule : RawText) {node : Node} (hid : node.id.requireText = .ok key)
    (hslash : '/' ∉ key.toList) (tree : FileTree) : (rule.split root node).Stays root tree := by
  rw [split]
  split
  · rw [hid]
    refine (stays_ofOutcome _).bind fun id hkey => ?_
    obtain rfl : key = id := Except.ok.inj hkey
    refine (stays_request (.directory FilePath.plainName_raw) _).bind fun _ _ => ?_
    refine (stays_request (.write (Naming.below_rawPath hslash)) _).bind fun _ _ => ?_
    exact stays_pure _
  · exact stays_pure _

theorem id_of_split {rule : RawText} {node node' : Node}
    (h : ((rule.split root node).exec tree).1 = .ok node') : node'.id = node.id := by
  rw [split] at h
  split at h
  · obtain ⟨id, tree₁, -, hnext⟩ := FileTask.exec_bind_eq_ok (Prod.ext h rfl)
    obtain ⟨_, tree₂, -, hnext⟩ := FileTask.exec_bind_eq_ok hnext
    obtain ⟨_, tree₃, -, hnext⟩ := FileTask.exec_bind_eq_ok hnext
    obtain rfl := Except.ok.inj (congrArg Prod.fst hnext)
    rfl
  · obtain rfl := Except.ok.inj h
    rfl

theorem stays_splitAll (rules : List RawText) {node : Node} (hid : node.id.requireText = .ok key)
    (hslash : '/' ∉ key.toList) (tree : FileTree) :
    (rules.foldlM (fun e rule => split rule root e) node : FileTask Node).Stays root tree := by
  induction rules generalizing node tree with
  | nil => exact stays_pure _
  | cons rule rest ih =>
    rw [List.foldlM_cons]
    refine (stays_split rule hid hslash tree).bind fun node' hsplit => ?_
    exact ih (by rw [id_of_split hsplit, hid]) _

theorem stays_discard {node : Node}
    (h : ∀ file, Entries.get? fileKey node.properties = some (.string file) →
      Below root (rawPath root file)) (tree : FileTree) : (discard root node).Stays root tree := by
  rw [discard]
  split
  · exact stays_request (.remove (h _ ‹_›)) _
  · exact stays_pure _

theorem stays_discardAll (rules : List RawText) {node : Node}
    (h : ∀ file, Entries.get? fileKey node.properties = some (.string file) →
      Below root (rawPath root file)) (tree : FileTree) :
    (rules.forM fun _ => discard root node : FileTask Unit).Stays root tree := by
  induction rules generalizing tree with
  | nil => exact stays_pure _
  | cons rule rest ih =>
    exact (stays_discard h tree).bind fun _ _ => ih _

end RawText

/-! ## Calls -/

namespace Engine

/-- A node that is kept names no file but the one made from its identity. -/
theorem KeepsNode.below {node : Node} (h : g.KeepsNode tree base key node) (hrules : g.rules ≠ [])
    (hslash : '/' ∉ key.toList) (file : String)
    (hfile : Entries.get? RawText.fileKey node.properties = some (.string file)) :
    Below root (rawPath root file) := by
  cases h with
  | unruled hnil => exact absurd hnil hrules
  | inline hnone =>
    rw [hnone] at hfile
    cases hfile
  | apart text _ _ hown _ =>
    rw [hown] at hfile
    obtain rfl := Json.string.inj (Option.some.inj hfile)
    exact Naming.below_rawPath hslash

theorem stays_view {e : Entity c} (h : g.Keeps tree base key e)
    (hslash : g.rules ≠ [] → '/' ∉ key.toList) (tree' : FileTree) :
    (g.view e).Stays g.root tree' := by
  cases c with
  | relationship => exact stays_pure _
  | node =>
    have hnode := keeps_node.1 h
    rw [view]
    cases hnode with
    | unruled hrules =>
      rw [rulesFor_of_rules hrules]
      exact stays_pure _
    | inline hfile => exact RawText.stays_mergeAll_none _ hfile tree'
    | apart text hproperty hfor hfile hraw =>
      have hrules : g.rules ≠ [] := fun hnil => hfor (rulesFor_of_rules hnil e.type)
      exact RawText.stays_mergeAll (fun rule hrule => hproperty rule (mem_rules hrule))
        (KeepsNode.below (.apart text hproperty hfor hfile hraw) hrules (hslash hrules)) tree'

theorem stays_stored {e : Entity c} (hid : e.id.requireText = .ok key)
    (hslash : g.rules ≠ [] → '/' ∉ key.toList) (tree : FileTree) :
    (g.stored e).Stays g.root tree := by
  cases c with
  | relationship => exact stays_pure _
  | node =>
    rw [stored]
    by_cases hrules : g.rules = []
    · rw [rulesFor_of_rules hrules]
      exact stays_pure _
    · exact RawText.stays_splitAll _ hid (hslash hrules) tree

theorem stays_discard {e : Entity c} (h : g.Keeps tree base key e)
    (hslash : g.rules ≠ [] → '/' ∉ key.toList) (type : String) (tree' : FileTree) :
    (g.discard type e).Stays g.root tree' := by
  cases c with
  | relationship => exact stays_pure _
  | node =>
    rw [discard]
    by_cases hrules : g.rules = []
    · rw [rulesFor_of_rules hrules]
      exact stays_pure _
    · exact RawText.stays_discardAll _ ((keeps_node.1 h).below hrules (hslash hrules)) tree'

theorem slashless_keyOf (hflat : g.rules ≠ [] → '/' ∉ (g.idPrefix.getD "").toList)
    {unique : String} (h : g.rules ≠ [] → '/' ∉ unique.toList) : g.rules ≠ [] → '/' ∉ (g.keyOf unique).toList := by
  intro hrules
  rw [keyOf, String.toList_append, List.mem_append]
  exact not_or.2 ⟨hflat hrules, h hrules⟩

theorem stays_keep (m : CompiledSearcher c) {entities : List (Entity c)}
    (hkeeps : ∀ e ∈ entities, ∃ key, g.Keeps tree base key e ∧ (g.rules ≠ [] → '/' ∉ key.toList))
    (tree' : FileTree) : (g.keep m entities).Stays g.root tree' := by
  induction entities generalizing tree' with
  | nil => exact stays_pure _
  | cons e rest ih =>
    obtain ⟨key, hkept, hslash⟩ := hkeeps e (List.mem_cons_self ..)
    have hrest := ih fun x hx => hkeeps x (List.mem_cons_of_mem _ hx)
    rw [keep]
    refine (stays_view hkept hslash tree').bind fun seen _ => ?_
    refine (stays_ofOutcome _).bind fun hit _ => ?_
    exact (hrest _).bind fun more _ => stays_pure _

theorem stays_create (hflat : g.rules ≠ [] → '/' ∉ (g.idPrefix.getD "").toList)
    {stamp : Stamp} (hslash : g.rules ≠ [] → '/' ∉ stamp.unique.toList) (body : Body c) :
    (g.create stamp body).Stays g.root tree := by
  rw [create]
  refine (stays_ofOutcome _).bind fun _ _ => ?_
  have hid : (body.create (.fresh g.idPrefix stamp.unique) (some stamp.time)).id.requireText
      = .ok (g.keyOf stamp.unique) := rfl
  refine (stays_stored hid (slashless_keyOf hflat hslash) _).bind fun s _ => ?_
  exact (Catalog.stays_insert g.root s _).bind fun _ _ => stays_pure _

namespace Sound

variable (h : g.Sound p used tree base)
  (hflat : g.rules ≠ [] → '/' ∉ (g.idPrefix.getD "").toList)

include h hflat

/-- What is kept of a stored entity has a plain name. -/
theorem exists_keeps {type : String} {entities : List (Entity c)}
    (hload : (tree.shelf g.root c).load type = .ok entities) {e : Entity c} (he : e ∈ entities) :
    ∃ key, g.Keeps tree base key e ∧ (g.rules ≠ [] → '/' ∉ key.toList) := by
  obtain ⟨unique, hmem, hkept⟩ := (h.good c).all type entities hload e he
  exact ⟨g.keyOf unique, hkept.keeps,
    slashless_keyOf hflat fun hrules => h.slashless hrules unique hmem⟩

theorem stays_get (c : EntityClass) (id : Id) : (g.get c id).Stays g.root tree := by
  rw [get]
  refine (Catalog.stays_get g.root c id tree).bind fun found hfound => ?_
  rw [Catalog.exec_get] at hfound
  cases found with
  | none => exact stays_pure _
  | some e =>
    obtain ⟨-, type, entities, hload, he⟩ := h.id_of_get hfound
    obtain ⟨key, hkeeps, hslash⟩ := h.exists_keeps hflat hload he
    exact (stays_view hkeeps hslash _).bind fun _ _ => stays_pure _

theorem stays_scan (c : EntityClass) (documents : List (String × Searcher)) :
    (g.scan c documents).Stays g.root tree := by
  induction documents with
  | nil => exact stays_pure _
  | cons document rest ih =>
    obtain ⟨type, residual⟩ := document
    rw [scan]
    refine (stays_ofOutcome _).bind fun m _ => ?_
    refine (Catalog.stays_load g.root c type _).bind fun entities hload => ?_
    simp only [FileTask.exec_ofOutcome, Catalog.exec_load] at hload ⊢
    refine (stays_keep m (fun e he => h.exists_keeps hflat hload he) tree).bind fun found _ => ?_
    -- looking at entities leaves the tree as it is
    have hkeep : (g.keep m entities).Agrees tree tree := agrees_keep m fun _ _ => rfl
    rw [hkeep.here]
    exact ih.bind fun more _ => stays_pure _

theorem stays_search (c : EntityClass) (s : Searcher) : (g.search c s).Stays g.root tree := by
  rw [search]
  refine (stays_ofOutcome _).bind fun _ _ => ?_
  refine (stays_ofOutcome _).bind fun plan _ => ?_
  by_cases hempty : plan.isEmpty = true
  · rw [if_pos hempty]
    exact stays_pure _
  · rw [if_neg hempty]
    refine (Catalog.stays_types g.root c _).bind fun known _ => ?_
    simp only [FileTask.exec_ofOutcome, Catalog.exec_types]
    exact h.stays_scan hflat c _

theorem stays_edit (stamp : Stamp) (id : Id) (patch : Patch c) :
    (g.edit stamp id patch).Stays g.root tree := by
  rw [edit]
  refine (Catalog.stays_locate g.root c id tree).bind fun found hfound => ?_
  rw [Catalog.exec_locate] at hfound ⊢
  -- what was located is kept under an identity without slashes
  obtain ⟨old, kept⟩ := found
  obtain ⟨key, index, entities, hlocated⟩ := Shelf.located_of_locate hfound
  have hkept := h.finds c _ _ _ _ _ _ hlocated
  obtain ⟨unique, hmem, rfl⟩ := h.key_of_located hlocated
  have hslash := slashless_keyOf hflat fun hrules => h.slashless hrules unique hmem
  obtain ⟨seen, hview, hrebagged, -⟩ := exec_view (p := p) hkept.keeps
  refine (stays_view hkept.keeps hslash tree).bind fun seen' hseen => ?_
  rw [hview] at hseen ⊢
  obtain rfl : seen = seen' := Except.ok.inj hseen
  -- and an edit keeps the identity
  have hid : (patch.apply seen stamp.time).id.requireText = .ok (g.keyOf unique) := by
    show seen.id.requireText = _
    rw [hrebagged.id]
    exact hkept.requireText
  refine (stays_ofOutcome _).bind fun _ _ => ?_
  refine (stays_discard hkept.keeps hslash old _).bind fun _ _ => ?_
  refine (stays_stored hid hslash _).bind fun s _ => ?_
  exact (Catalog.stays_put g.root old s _).bind fun _ _ => stays_pure _

theorem stays_remove (c : EntityClass) (id : Id) : (g.remove c id).Stays g.root tree := by
  rw [remove]
  refine (Catalog.stays_remove g.root c id tree).bind fun kept hremove => ?_
  obtain ⟨outcome, tree', hexec, hremoves⟩ := Catalog.exec_remove h.hosts (h.ready c) id
  rw [hexec] at hremove ⊢
  obtain rfl : outcome = .ok kept := hremove
  -- only a removal that succeeded goes on to the raw text
  cases hremoves with
  | done _ key type index entities _ hlocated _ =>
    obtain ⟨key, hkeeps, hslash⟩ := h.exists_keeps hflat hlocated.loaded hlocated.mem
    exact stays_discard hkeeps hslash kept.type _

/-- Every call stays below the root; without raw texts an identity may hold slashes. -/
theorem stays_call {step : Step}
    (hslash : ∀ unique ∈ step.given, g.rules ≠ [] → '/' ∉ unique.toList) :
    (g.answer step.stamp step.call).Stays g.root tree := by
  obtain ⟨stamp, call⟩ := step
  cases call with
  | get c id => exact h.stays_get hflat c id
  | search c s => exact h.stays_search hflat c s
  | create c body => exact stays_create hflat (hslash _ (List.mem_singleton.2 rfl)) body
  | edit c id patch => exact h.stays_edit hflat stamp id patch
  | remove c id => exact h.stays_remove hflat c id
  | types c => exact Catalog.stays_types g.root c tree

end Sound

theorem Sound.stays_answer (h : g.Sound p used tree base)
    (hflat : '/' ∉ (g.idPrefix.getD "").toList) {step : Step}
    (hslash : ∀ unique ∈ step.given, g.rules ≠ [] → '/' ∉ unique.toList) :
    (g.answer step.stamp step.call).Stays g.root tree :=
  h.stays_call (fun _ => hflat) hslash

/-! ## Runs -/

/-- A run leaves everything outside of the root as it was, and leaves trees agreeing below the root
    that did so before. -/
theorem alike_after (hflat : '/' ∉ (g.idPrefix.getD "").toList) (hbare : tree.Bare g.root base)
    (halike : tree.Alike tree' g.root base) (hp : Number.Stable p) (huniform : g.Uniform)
    {steps : List Step} (hallows : g.Allows p steps) :
    (g.after tree steps).Alike (g.after tree' steps) g.root base
      ∧ tree.Spares (g.after tree steps) base := by
  induction steps using List.reverseRecOn with
  | nil => exact ⟨halike, .refl _ _⟩
  | append_singleton steps step ih =>
    -- the invariant is that of the first tree; the second one agrees with it below the root
    obtain ⟨halike', hspares⟩ := ih hallows.before
    have hsound := sound_after hbare hp huniform hallows.before
    obtain ⟨-, halike'', hspares'⟩ :=
      (hsound.stays_answer hflat fun _ => hallows.slashless_last).run halike'
    rw [after_append, after_append]
    exact ⟨halike'', hspares.trans hspares'⟩

/-- The engine is confined to its root: after every run below an empty root in which owners leave
    the key of file names alone, everything outside of the root is as it was, and each call is
    answered as in every other file system that has the same below the root. -/
theorem confined_after (hflat : '/' ∉ (g.idPrefix.getD "").toList)
    (hbare : tree.Bare g.root base) (hrooted : tree'.Rooted g.root base)
    (hsame : ∀ names, tree'.occupant (base ++ names) = tree.occupant (base ++ names))
    (huniform : g.Uniform) {steps : List Step} {step : Step}
    (hallows : g.Allows Number.InRange (steps ++ [step])) :
    (∀ place, ¬ base <+: place →
      (g.after tree (steps ++ [step])).occupant place = tree.occupant place)
    ∧ ((g.answer step.stamp step.call).exec (g.after tree' steps)).1
      = ((g.answer step.stamp step.call).exec (g.after tree steps)).1 := by
  have halike : tree.Alike tree' g.root base := ⟨hbare.rooted, hrooted, hsame⟩
  have hsound := sound_after hbare Number.stable_inRange huniform hallows.before
  obtain ⟨halike', -⟩ :=
    alike_after hflat hbare halike Number.stable_inRange huniform hallows.before
  obtain ⟨-, hspares⟩ := alike_after hflat hbare halike Number.stable_inRange huniform hallows
  obtain ⟨hreply, -, -⟩ :=
    (hsound.stays_answer hflat fun _ => hallows.slashless_last).run halike'
  exact ⟨hspares, hreply⟩

/-- The sample tree with a file outside of the root. -/
def outsideTree : FileTree :=
  ⟨[(["g"], .directory), (["outside.txt"], .file "secret")], []⟩

theorem rooted_outsideTree : outsideTree.Rooted "/g" ["g"] :=
  ⟨by decide +kernel, by decide⟩

theorem occupant_outsideTree (names : List String) :
    outsideTree.occupant (["g"] ++ names) = FileTree.sample.occupant (["g"] ++ names) := by
  simp [outsideTree, FileTree.sample, FileTree.occupant, FileTree.lookup]

/-- A lookup of the note. -/
def getNote : Step := ⟨⟨"x", 1⟩, .get .node (.ofString "n")⟩

theorem allows_getNote : (Engine.sample [noteRule]).Allows Number.InRange (noteRun ++ [getNote]) where
  distinct := by decide
  slashless _ := by decide
  accepted step hstep := by
    rcases List.mem_append.1 hstep with hnote | hget
    · exact allows_noteRun.accepted step hnote
    · obtain rfl := List.mem_singleton.1 hget
      trivial

/-- The note is found alike with a file outside of the root and without. -/
theorem confined_after_getNote :
    '/' ∉ ((Engine.sample [noteRule]).idPrefix.getD "").toList
      ∧ FileTree.sample.Bare "/g" ["g"] ∧ outsideTree.Rooted "/g" ["g"]
      ∧ (∀ names, outsideTree.occupant (["g"] ++ names)
          = FileTree.sample.occupant (["g"] ++ names))
      ∧ (Engine.sample [noteRule]).Uniform
      ∧ (Engine.sample [noteRule]).Allows Number.InRange (noteRun ++ [getNote])
      ∧ (∀ place, ¬ ["g"] <+: place →
          ((Engine.sample [noteRule]).after .sample (noteRun ++ [getNote])).occupant place
            = FileTree.sample.occupant place)
      ∧ (((Engine.sample [noteRule]).answer getNote.stamp getNote.call).exec
          ((Engine.sample [noteRule]).after outsideTree noteRun)).1
        = (((Engine.sample [noteRule]).answer getNote.stamp getNote.call).exec
          ((Engine.sample [noteRule]).after .sample noteRun)).1 := by
  have hflat : '/' ∉ ((Engine.sample [noteRule]).idPrefix.getD "").toList := by decide
  have huniform : (Engine.sample [noteRule]).Uniform := uniform_of_length (by decide)
  exact ⟨hflat, FileTree.bare_sample, rooted_outsideTree, occupant_outsideTree, huniform,
    allows_getNote, confined_after hflat FileTree.bare_sample rooted_outsideTree
      occupant_outsideTree huniform allows_getNote⟩

/-- A memo whose bag names a file outside of the root. -/
def outsideMemo : Step :=
  ⟨⟨"m", 1⟩, .create .node (.node "Memo" [(RawText.fileKey, .string "../../outside.txt")])⟩

/-- Such a memo is read with the text of that file, and removing it removes the file. -/
theorem removed_with_outsideMemo :
    textOf (((Engine.sample [noteRule]).get .node (.ofString "m")).exec
        ((Engine.sample [noteRule]).after outsideTree (noteRun ++ [outsideMemo]))).1
      = some "secret"
      ∧ outsideTree.occupant ["outside.txt"] = some (.file "secret")
      ∧ (((Engine.sample [noteRule]).remove .node (.ofString "m")).exec
        ((Engine.sample [noteRule]).after outsideTree (noteRun ++ [outsideMemo]))).2.occupant
          ["outside.txt"] = none := by
  decide +kernel

end Engine

end PropertyGraph
