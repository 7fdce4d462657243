/-
  PropertyGraph.Proofs.Storage.RawFiles

  Which files stand in the directory of raw texts.  With one rule a stored node names the file of
  its identity just when its owner sees a text under the rule's property, and the file holds that
  text; no other file stands there.  Work on documents is flat: it changes nothing in a directory
  below the root.  So what a call does to raw texts is what it discards and what it moves out, and
  both are about the file of one identity.
-/
import PropertyGraph.Proofs.Storage.Confinement
import PropertyGraph.Proofs.Storage.Refinement

namespace PropertyGraph

open FilePath (PlainName)
open FileTree (Rooted Fits)
open Naming (PlainStem jsonPath rawName rawPath rawDirectory)
open RawText (fileKey)

variable {α β : Type} {c : EntityClass} {g : Engine} {p : Number → Prop} {root key : String}
  {base : Place} {tree tree' tree'' : FileTree} {used : List String} {rule : RawText}

/-! ## Flat tasks -/

namespace FileTree

/-- The same stands in the directory of raw texts, at any depth. -/
def SameRaw (tree tree' : FileTree) (base : Place) : Prop :=
  ∀ names, names ≠ [] → tree'.occupant (base ++ "raw" :: names) = tree.occupant (base ++ "raw" :: names)

theorem SameRaw.refl (tree : FileTree) (base : Place) : tree.SameRaw tree base := fun _ _ => rfl

theorem SameRaw.trans (h : tree.SameRaw tree' base) (h' : tree'.SameRaw tree'' base) :
    tree.SameRaw tree'' base := fun names hne => (h' names hne).trans (h names hne)

theorem ne_of_deep {names : List String} (hne : names ≠ []) (name : String) :
    base ++ "raw" :: names ≠ base ++ [name] := by
  intro heq
  exact hne (List.cons.inj (List.append_cancel_left heq)).2

theorem sameRaw_put (tree : FileTree) (base : Place) (name : String) (entry : FileEntry) :
    tree.SameRaw (tree.put (base ++ [name]) entry) base :=
  fun _ hne => tree.occupant_put_of_ne entry (ne_of_deep hne name)

theorem sameRaw_drop (tree : FileTree) (base : Place) (name : String) :
    tree.SameRaw (tree.drop (base ++ [name])) base :=
  fun _ hne => tree.occupant_drop_of_ne (ne_of_deep hne name)

end FileTree

namespace FileTask

/-- A task that leaves a root where it is, and the directory of raw texts below it as it is. -/
def Flat (root : String) (base : Place) (task : FileTask α) : Prop :=
  ∀ tree : FileTree, tree.Rooted root base →
    (task.exec tree).2.Rooted root base ∧ tree.SameRaw (task.exec tree).2 base

theorem flat_of_unchanged {task : FileTask α} (h : ∀ tree, (task.exec tree).2 = tree) :
    task.Flat root base := by
  intro tree hrooted
  rw [h tree]
  exact ⟨hrooted, .refl _ _⟩

theorem flat_ofOutcome (o : Outcome α) : (ofOutcome o).Flat root base :=
  flat_of_unchanged fun _ => rfl

theorem flat_pure (a : α) : (pure a : FileTask α).Flat root base := flat_of_unchanged fun _ => rfl

theorem flat_throw (f : Failure) : (throw f : FileTask α).Flat root base :=
  flat_of_unchanged fun _ => rfl

theorem Flat.bind {task : FileTask α} {next : α → FileTask β} (h : task.Flat root base)
    (hnext : ∀ a tree, (task.exec tree).1 = .ok a → (next a).Flat root base) :
    (task >>= next).Flat root base := by
  intro tree hrooted
  obtain ⟨hrooted', hsame⟩ := h tree hrooted
  rcases htask : task.exec tree with ⟨outcome, tree'⟩
  rw [htask] at hrooted' hsame
  cases outcome with
  | error f =>
    rw [exec_bind_of_error htask]
    exact ⟨hrooted', hsame⟩
  | ok a =>
    rw [exec_bind_of_ok htask]
    obtain ⟨hrooted'', hsame'⟩ := hnext a tree (congrArg Prod.fst htask) tree' hrooted'
    exact ⟨hrooted'', hsame.trans hsame'⟩

theorem flat_write {name : String} (hname : PlainName name) (text : String) :
    (write (FilePath.join root name) text).Flat root base := by
  intro tree hrooted
  rw [exec_write, FileTree.write?]
  by_cases hfits : Fits root name
  · rw [hrooted.resolve_join hname hfits]
    simp only
    by_cases hfree : tree.occupant (base ++ [name]) = some .directory
    · rw [if_pos hfree]
      exact ⟨hrooted, .refl _ _⟩
    · rw [if_neg hfree]
      exact ⟨hrooted.changesOnly (tree.changesOnly_put_file text List.getLast?_concat hfree),
        tree.sameRaw_put base name _⟩
  · rw [hrooted.resolve_join_refused hname hfits]
    exact ⟨hrooted, .refl _ _⟩

theorem flat_rename {source target : String} (hsource : PlainName source)
    (htarget : PlainName target) :
    (rename (FilePath.join root source) (FilePath.join root target)).Flat root base := by
  intro tree hrooted
  have hlast : ∀ name : String, (base ++ [name]).getLast? = some name :=
    fun _ => List.getLast?_concat
  rw [exec_rename, FileTree.rename?]
  by_cases hfits : Fits root source
  · rw [hrooted.resolve_join hsource hfits]
    by_cases hfits' : Fits root target
    · rw [hrooted.resolve_join htarget hfits']
      simp only
      cases hold : tree.occupant (base ++ [source]) with
      | none => exact ⟨hrooted, .refl _ _⟩
      | some entry =>
        cases entry with
        | directory => exact ⟨hrooted, .refl _ _⟩
        | file text =>
          have hdrop := tree.changesOnly_drop (hlast source) (by simp [hold])
          -- neither taking the file away nor putting it down enters the directory of raw texts
          have hsame := (tree.sameRaw_drop base source).trans
            ((tree.drop (base ++ [source])).sameRaw_put base target (.file text))
          by_cases hfree : tree.occupant (base ++ [target]) = some .directory
          · rw [hfree]
            exact ⟨hrooted, .refl _ _⟩
          · have hput := (tree.drop (base ++ [source])).changesOnly_put_file text
              (hlast target) (tree.not_directory_of_drop _ hfree)
            have hrooted' := (hrooted.changesOnly hdrop).changesOnly hput
            cases hnew : tree.occupant (base ++ [target]) with
            | none => exact ⟨hrooted', hsame⟩
            | some entry =>
              cases entry with
              | directory => exact absurd hnew hfree
              | file found => exact ⟨hrooted', hsame⟩
    · rw [hrooted.resolve_join_refused htarget hfits']
      exact ⟨hrooted, .refl _ _⟩
  · rw [hrooted.resolve_join_refused hsource hfits]
    exact ⟨hrooted, .refl _ _⟩

/-- A document is written aside and then renamed, both directly below the root. -/
theorem flat_replace {stem : String} (h : PlainStem stem) (text : String) :
    (replace (jsonPath root stem) text).Flat root base := by
  have haside : FilePath.withExtension (jsonPath root stem) "json.tmp"
      = FilePath.join root (stem ++ ".json.tmp") :=
    FilePath.withExtension_join_json h.no_slash h.ne_empty h.ne_point
  rw [replace, haside]
  exact (flat_write h.aside text).bind fun _ _ _ => flat_rename h.aside h.json

/-- The directory of raw texts itself stands directly below the root. -/
theorem flat_makeRaw : (makeDirectories (rawDirectory root)).Flat root base := by
  intro tree hrooted
  have hname := FilePath.plainName_raw
  obtain ⟨hchange, -⟩ := hrooted.makeDirectories hname
  have hsame : tree.SameRaw (tree.makeDirectories (FilePath.join root "raw")).2 base := by
    by_cases hadmits : FileTree.admits (FilePath.join root "raw") = true
    · rw [hrooted.makeDirectories_join hname hadmits, FileTree.makeAlong]
      simp only [hname.ne_empty, hname.ne_point, hname.ne_points, or_self, if_false]
      split
      · exact .refl _ _
      · split
        · exact .refl _ _
        · exact .refl _ _
        · exact tree.sameRaw_put base "raw" _
    · rw [FileTree.makeDirectories]
      simp only [hadmits]
      exact .refl _ _
  rw [rawDirectory, exec_makeDirectories]
  rcases hmade : tree.makeDirectories (FilePath.join root "raw") with ⟨done, tree'⟩
  rw [hmade] at hchange hsame
  cases done <;> exact ⟨hrooted.changesOnly hchange, hsame⟩

end FileTask

namespace Catalog

open FileTask (flat_ofOutcome flat_of_unchanged flat_pure flat_throw flat_replace)

theorem flat_store {type : String} (hcheck : Naming.checkType type = .ok ())
    (entities : List (Entity c)) : (store root type entities).Flat root base := by
  rw [store, Naming.documentPath_eq]
  exact flat_replace (Naming.plainStem_document c hcheck) _

theorem flat_storeIndex (c : EntityClass) (entries : Entries String) :
    (storeIndex root c entries).Flat root base := by
  rw [storeIndex, Naming.indexPath_eq]
  exact flat_replace (Naming.plainStem_index c) _

theorem flat_load (c : EntityClass) (type : String) : (load root c type).Flat root base :=
  flat_of_unchanged fun tree => by rw [exec_load]

theorem flat_index (c : EntityClass) : (index root c).Flat root base :=
  flat_of_unchanged fun tree => by rw [exec_index]

theorem flat_record (c : EntityClass) (key type : String) :
    (record root c key type).Flat root base := by
  rw [record]
  refine (flat_index c).bind fun entries _ _ => ?_
  refine (flat_storeIndex c _).bind fun _ _ _ => ?_
  refine (flat_of_unchanged fun tree => by rw [exec_types]).bind fun known _ _ => ?_
  cases addType known type with
  | none => exact flat_pure _
  | some types =>
    simp only [Naming.typeListPath_eq]
    exact flat_replace (Naming.plainStem_typeList c) _

theorem flat_insert (entity : Entity c) : (insert root entity).Flat root base := by
  rw [insert]
  refine (flat_ofOutcome _).bind fun _ _ hcheck => ?_
  refine (flat_ofOutcome _).bind fun key _ _ => ?_
  refine (flat_load c _).bind fun entities _ _ => ?_
  exact (flat_store hcheck _).bind fun _ _ _ => flat_record c key entity.type

theorem flat_put (old : String) (entity : Entity c) : (put root old entity).Flat root base := by
  rw [put]
  refine (flat_ofOutcome _).bind fun _ _ _ => ?_
  refine (flat_load c old).bind fun entities _ hload => ?_
  have hcheck := checkType_of_exec_load hload
  by_cases htype : entity.type = old
  · rw [if_pos htype]
    exact flat_store hcheck _
  · rw [if_neg htype]
    exact (flat_store hcheck _).bind fun _ _ _ => flat_insert entity

theorem flat_remove (c : EntityClass) (id : Id) : (remove root c id).Flat root base := by
  rw [remove]
  refine (flat_ofOutcome _).bind fun key _ _ => ?_
  refine (flat_index c).bind fun entries _ _ => ?_
  cases Entries.get? key entries with
  | none => exact flat_throw _
  | some type =>
    refine (flat_load c type).bind fun entities _ hload => ?_
    have hcheck := checkType_of_exec_load hload
    cases find id entities with
    | none => exact (flat_storeIndex c _).bind fun _ _ _ => flat_throw _
    | some e =>
      exact (flat_store hcheck _).bind fun _ _ _ =>
        (flat_storeIndex c _).bind fun _ _ _ => flat_pure _

end Catalog

/-! ## The file of one identity -/

namespace FileTree

/-- Between two trees the raw text of an identity has become another one, or none, and nothing else
    has changed in the directory of raw texts. -/
structure Refiles (tree tree' : FileTree) (base : Place) (key : String) (text : Option String) :
    Prop where
  own : tree'.occupant (base ++ ["raw", rawName key]) = text.map .file
  others : ∀ names, names ≠ [] → names ≠ [rawName key] →
    tree'.occupant (base ++ "raw" :: names) = tree.occupant (base ++ "raw" :: names)

variable {text text' : Option String}

theorem Refiles.trans (h : tree.Refiles tree' base key text)
    (h' : tree'.Refiles tree'' base key text') : tree.Refiles tree'' base key text' where
  own := h'.own
  others names hne hother := (h'.others names hne hother).trans (h.others names hne hother)

/-- Work that leaves the raw texts as they are. -/
theorem SameRaw.refiles (h : tree.SameRaw tree' base)
    (hown : tree.occupant (base ++ ["raw", rawName key]) = text.map .file) :
    tree.Refiles tree' base key text where
  own := (h [rawName key] (List.cons_ne_nil _ _)).trans hown
  others names hne _ := h names hne

theorem SameRaw.trans_refiles (h : tree.SameRaw tree' base)
    (h' : tree'.Refiles tree'' base key text) : tree.Refiles tree'' base key text where
  own := h'.own
  others names hne hother := (h'.others names hne hother).trans (h names hne)

theorem Refiles.same (h : tree.Refiles tree' base key text) (h' : tree'.SameRaw tree'' base) :
    tree.Refiles tree'' base key text := h.trans (h'.refiles h.own)

theorem ne_own {names : List String} (h : names ≠ [rawName key]) :
    base ++ "raw" :: names ≠ base ++ ["raw", rawName key] := by
  intro heq
  exact h (List.cons.inj (List.append_cancel_left heq)).2

theorem refiles_put (tree : FileTree) (base : Place) (key text : String) :
    tree.Refiles (tree.put (base ++ ["raw", rawName key]) (.file text)) base key (some text) where
  own := tree.occupant_put_self _ (by simp)
  others _ _ hother := tree.occupant_put_of_ne _ (ne_own hother)

theorem refiles_drop (tree : FileTree) (base : Place) (key : String) :
    tree.Refiles (tree.drop (base ++ ["raw", rawName key])) base key none where
  own := tree.occupant_drop_self (by simp)
  others _ _ hother := tree.occupant_drop_of_ne (ne_own hother)

/-- The path of the raw text of an identity without slashes leads to one place at most. -/
theorem Rooted.resolve_raw (h : tree.Rooted root base) (hslash : '/' ∉ key.toList) {place : Place}
    (hresolve : tree.resolve (rawPath root (rawName key)) = .ok place) :
    place = base ++ ["raw", rawName key] := by
  have hname : PlainName (rawName key) := FilePath.plainName_append hslash (by decide) (by decide)
  have hlocate : tree.locate base ["raw", rawName key] = .ok place := by
    rw [← h.locate_rawPath hname]
    rw [resolve] at hresolve
    split at hresolve
    · cases hresolve
    · split at hresolve
      · cases hresolve
      · exact hresolve
  refine Alike.locate_eq_ok (fun name hmem => ?_) hlocate
  rcases List.mem_cons.1 hmem with rfl | hmem
  · exact FilePath.plainName_raw
  · exact List.mem_singleton.1 hmem ▸ hname

/-- Where a raw text is read, its file stands. -/
theorem HasRaw.occupant {text : String} (h : tree.HasRaw root base key text)
    (hrooted : tree.Rooted root base) (hslash : '/' ∉ key.toList) :
    tree.occupant (base ++ ["raw", rawName key]) = some (.file text) := by
  obtain ⟨place, hresolve, hfile⟩ := resolve_of_read h.read
  rw [← hrooted.resolve_raw hslash hresolve]
  exact hfile

end FileTree

namespace RawText

/-- The text under a key of the bag of a node. -/
def textAt (key : String) (node : Node) : Option String :=
  (Entries.get? key node.properties).bind Json.string?

/-- The text that a rule moves out of a node. -/
def textOf (rule : RawText) (node : Node) : Option String :=
  if rule.covers node.type then textAt rule.property node else none

/-- The stored form of a node of an identity. -/
def formOf (rule : RawText) (key : String) (node : Node) : Node :=
  match rule.textOf node with
  | some _ => rule.movedOut key node
  | none => node

theorem textAt_eq_some_iff {node : Node} {text : String} :
    textAt key node = some text ↔ Entries.get? key node.properties = some (.string text) := by
  rw [textAt, Option.bind_eq_some_iff]
  constructor
  · rintro ⟨value, hvalue, htext⟩
    cases value with
    | string found =>
      obtain rfl : found = text := Option.some.inj htext
      exact hvalue
    | _ => cases htext
  · exact fun hget => ⟨_, hget, rfl⟩

theorem textAt_of_none {node : Node} (h : Entries.get? key node.properties = none) :
    textAt key node = none := by
  rw [textAt, h]
  rfl

/-! ### What becomes of files -/

/-- Splitting moves the text of a node to the file of its identity, or there is no text to move. -/
theorem split_cases {node s : Node} (hid : node.id.requireText = .ok key)
    (hsplit : (rule.split root node).exec tree = (.ok s, tree')) :
    textAt rule.property node = none ∧ s = node ∧ tree' = tree
      ∨ ∃ text tree₁, textAt rule.property node = some text ∧ s = rule.movedOut key node
        ∧ (FileTask.makeDirectories (rawDirectory root)).exec tree = (.ok (), tree₁)
        ∧ (FileTask.write (rawPath root (rawName key)) text).exec tree₁ = (.ok (), tree') := by
  rw [split] at hsplit
  split at hsplit
  · next text hproperty =>
    rw [hid] at hsplit
    obtain ⟨id, tree₁, hkey, hmore⟩ := FileTask.exec_bind_eq_ok hsplit
    obtain ⟨hkey', rfl⟩ := Prod.mk.inj hkey
    obtain rfl := Except.ok.inj hkey'
    obtain ⟨_, tree₁, hmake, hmore⟩ := FileTask.exec_bind_eq_ok hmore
    obtain ⟨_, tree₂, hwrite, hmore⟩ := FileTask.exec_bind_eq_ok hmore
    obtain ⟨hs, rfl⟩ := Prod.mk.inj hmore
    exact .inr ⟨text, tree₁, textAt_eq_some_iff.2 hproperty, (Except.ok.inj hs).symm, hmake, hwrite⟩
  · next hother =>
    obtain ⟨hs, rfl⟩ := Prod.mk.inj hsplit
    refine .inl ⟨Option.eq_none_iff_forall_ne_some.2 fun text htext => ?_,
      (Except.ok.inj hs).symm, rfl⟩
    exact hother text (textAt_eq_some_iff.1 htext)

/-- Writing a raw text makes its file, and nothing else in the directory. -/
theorem refiles_of_write {text : String} (h : tree.Rooted root base) (hslash : '/' ∉ key.toList)
    (hwrite : (FileTask.write (rawPath root (rawName key)) text).exec tree = (.ok (), tree')) :
    tree'.Rooted root base ∧ tree.Refiles tree' base key (some text) := by
  rw [FileTask.exec_write, FileTree.write?] at hwrite
  cases hresolve : tree.resolve (rawPath root (rawName key)) with
  | error trouble => rw [hresolve] at hwrite; cases hwrite
  | ok place =>
    obtain rfl := h.resolve_raw hslash hresolve
    rw [hresolve] at hwrite
    simp only at hwrite
    by_cases hfree : tree.occupant (base ++ ["raw", rawName key]) = some .directory
    · rw [if_pos hfree] at hwrite
      cases hwrite
    · rw [if_neg hfree] at hwrite
      obtain rfl := (Prod.mk.inj hwrite).2
      have hlast : (base ++ ["raw", rawName key]).getLast? = some (rawName key) := by simp
      exact ⟨h.changesOnly (tree.changesOnly_put_file text hlast hfree),
        tree.refiles_put base key text⟩

/-- Discarding the raw text of a node removes its file, and nothing else in the directory. -/
theorem refiles_of_discard {node : Node} {text : String} (h : tree.Rooted root base)
    (hslash : '/' ∉ key.toList) (hfile : textAt fileKey node = some (rawName key))
    (hraw : tree.HasRaw root base key text)
    (hdiscard : (discard root node).exec tree = (.ok (), tree')) :
    tree'.Rooted root base ∧ tree.Refiles tree' base key none := by
  obtain ⟨place, hresolve, hthere⟩ := FileTree.resolve_of_read hraw.read
  obtain rfl := h.resolve_raw hslash hresolve
  have hexec : (discard root node).exec tree
      = (FileTask.remove (rawPath root (rawName key))).exec tree := by
    rw [discard, textAt_eq_some_iff.1 hfile]
  rw [hexec, FileTask.exec_remove, FileTree.remove, hresolve] at hdiscard
  simp only [hthere] at hdiscard
  obtain rfl := (Prod.mk.inj hdiscard).2
  have hlast : (base ++ ["raw", rawName key]).getLast? = some (rawName key) := by simp
  exact ⟨h.changesOnly (tree.changesOnly_drop hlast (by simp [hthere])),
    tree.refiles_drop base key⟩

/-! ### Stored forms -/

/-- A node as stored by a rule under an identity: it names the file of the identity instead of
    having a text, or it names no file and has no text that would be moved out. -/
inductive Filed (rule : RawText) (key : String) (s : Node) : Prop where
  | apart : rule.covers s.type = true → Entries.get? rule.property s.properties = none →
    textAt fileKey s = some (rawName key) → Filed rule key s
  | inline : rule.textOf s = none → textAt fileKey s = none → Filed rule key s

theorem textAt_of_textOf {node : Node} {text : String} (h : rule.textOf node = some text) :
    rule.covers node.type = true ∧ textAt rule.property node = some text := by
  rw [textOf] at h
  split at h
  · exact ⟨‹_›, h⟩
  · cases h

/-- A stored form names the file of its identity if a text has been moved out. -/
theorem textAt_formOf {node : Node} {text : String}
    (hplain : Entries.get? fileKey node.properties = none) (h : rule.textOf node = some text)
    (key : String) : textAt fileKey (rule.formOf key node) = some (rawName key) := by
  rw [formOf, h]
  have hproperty := textAt_eq_some_iff.1 (textAt_of_textOf h).2
  refine textAt_eq_some_iff.2 (get?_renameEntry_target hproperty fun e he hkey => ?_)
  exact absurd (List.mem_map.2 ⟨e, he, hkey⟩) (Entries.get?_eq_none_iff.1 hplain)

theorem filed_formOf {node : Node} (hproperty : rule.property ≠ fileKey)
    (hplain : Entries.get? fileKey node.properties = none) (key : String) :
    rule.Filed key (rule.formOf key node) := by
  cases htext : rule.textOf node with
  | none =>
    rw [formOf, htext]
    exact .inline htext (textAt_of_none hplain)
  | some text =>
    have hnamed := textAt_formOf hplain htext key
    rw [formOf, htext] at hnamed ⊢
    exact .apart (textAt_of_textOf htext).1 (get?_renameEntry_source hproperty.symm) hnamed

/-- Reading a node back keeps the texts of its bag. -/
theorem textAt_reread {s : Node} (hnodup : (Entries.keys s.properties).Nodup) (key : String) :
    textAt key s.reread = textAt key s := by
  rw [textAt, textAt, Entity.get?_reread hnodup]
  cases Entries.get? key s.properties with
  | none => rfl
  | some value => cases value <;> rfl

theorem Filed.reread {s : Node} (h : rule.Filed key s)
    (hnodup : (Entries.keys s.properties).Nodup) : rule.Filed key s.reread := by
  cases h with
  | apart hcovers hproperty hfile =>
    refine .apart hcovers ?_ ((textAt_reread hnodup _).trans hfile)
    rw [Entity.get?_reread hnodup, hproperty]
    rfl
  | inline htext hfile =>
    refine .inline ?_ ((textAt_reread hnodup _).trans hfile)
    rw [textOf, textAt_reread hnodup]
    exact htext

/-- A node stays as it was filed, and names the same file, however often it is read back. -/
theorem Filed.rereads {s s' : Node} (h : rule.Filed key s) (hp : Number.Stable p)
    (hproper : s.Proper p) (hrereads : s.Rereads s') :
    rule.Filed key s' ∧ textAt fileKey s' = textAt fileKey s ∧ s'.Proper p := by
  induction hrereads with
  | refl => exact ⟨h, rfl, hproper⟩
  | step _ ih =>
    obtain ⟨hfiled, hsame, hproper'⟩ := ih
    have hnodup := hproper'.properties.1
    exact ⟨hfiled.reread hnodup, (textAt_reread hnodup _).trans hsame,
      Entity.proper_reread hp.reread hproper'⟩

end RawText

/-! ## One call -/

namespace Engine

section OneRule

variable (hrules : g.rules = [rule])

include hrules

theorem rulesFor_of_rule (type : String) :
    g.rulesFor type = if rule.covers type then [rule] else [] := by
  rw [rulesFor, hrules, List.filter_singleton]
  cases rule.covers type <;> rfl

/-- With one rule a node is brought into its stored form by splitting it, or it is its own. -/
theorem split_of_stored {node s : Node} (hstored : (g.stored node).exec tree = (.ok s, tree')) :
    rule.covers node.type = true ∧ (rule.split g.root node).exec tree = (.ok s, tree')
      ∨ rule.covers node.type = false ∧ s = node ∧ tree' = tree := by
  rw [stored, rulesFor_of_rule hrules] at hstored
  cases hcovers : rule.covers node.type with
  | true =>
    rw [hcovers, if_pos rfl, List.foldlM_cons] at hstored
    obtain ⟨a, tree₁, hsplit, hrest⟩ := FileTask.exec_bind_eq_ok hstored
    obtain ⟨ha, rfl⟩ := Prod.mk.inj hrest
    exact .inl ⟨rfl, Except.ok.inj ha ▸ hsplit⟩
  | false =>
    rw [hcovers] at hstored
    obtain ⟨hs, rfl⟩ := Prod.mk.inj hstored
    exact .inr ⟨rfl, (Except.ok.inj hs).symm, rfl⟩

theorem eq_formOf_of_stored {node s : Node} (hid : node.id.requireText = .ok key)
    (hstored : (g.stored node).exec tree = (.ok s, tree')) : s = rule.formOf key node := by
  rw [RawText.formOf, RawText.textOf]
  rcases split_of_stored hrules hstored with ⟨hcovers, hsplit⟩ | ⟨hcovers, rfl, -⟩
  · rw [if_pos hcovers]
    rcases RawText.split_cases hid hsplit with ⟨htext, rfl, -⟩ | ⟨text, _, htext, rfl, -⟩ <;> rw [htext]
  · rw [if_neg (by rw [hcovers]; exact Bool.false_ne_true)]

/-- Bringing a node without a file into its stored form leaves its text in a file. -/
theorem refiles_of_stored {node s : Node} (h : tree.Rooted g.root base)
    (hid : node.id.requireText = .ok key) (hslash : '/' ∉ key.toList)
    (hfree : tree.occupant (base ++ ["raw", rawName key]) = none)
    (hstored : (g.stored node).exec tree = (.ok s, tree')) :
    tree'.Rooted g.root base ∧ tree.Refiles tree' base key (rule.textOf node) := by
  rw [RawText.textOf]
  rcases split_of_stored hrules hstored with ⟨hcovers, hsplit⟩ | ⟨hcovers, rfl, rfl⟩
  · rw [if_pos hcovers]
    rcases RawText.split_cases hid hsplit with
      ⟨htext, rfl, rfl⟩ | ⟨text, tree₁, htext, rfl, hmake, hwrite⟩
    · rw [htext]
      exact ⟨h, (FileTree.SameRaw.refl _ _).refiles hfree⟩
    · obtain ⟨hrooted, hsame⟩ := FileTask.flat_makeRaw tree h
      rw [hmake] at hrooted hsame
      obtain ⟨hrooted', hrefiles⟩ := RawText.refiles_of_write hrooted hslash hwrite
      rw [htext]
      exact ⟨hrooted', hsame.trans_refiles hrefiles⟩
  · rw [if_neg (by rw [hcovers]; exact Bool.false_ne_true)]
    exact ⟨h, (FileTree.SameRaw.refl _ _).refiles hfree⟩

/-- Discarding what a node keeps apart leaves it without a file. -/
theorem refiles_of_discard {kept : Node} (h : tree.Rooted g.root base) (hslash : '/' ∉ key.toList)
    (hkeeps : g.KeepsNode tree base key kept)
    (hfree : RawText.textAt fileKey kept = none →
      tree.occupant (base ++ ["raw", rawName key]) = none)
    (hdiscard : (g.discard kept.type kept).exec tree = (.ok (), tree')) :
    tree'.Rooted g.root base ∧ tree.Refiles tree' base key none := by
  rw [discard] at hdiscard
  cases hkeeps with
  | unruled hnil => rw [hrules] at hnil; cases hnil
  | inline hfile =>
    rw [RawText.exec_discardAll_none _ hfile tree] at hdiscard
    obtain rfl := (Prod.mk.inj hdiscard).2
    exact ⟨h, (FileTree.SameRaw.refl _ _).refiles (hfree (RawText.textAt_of_none hfile))⟩
  | apart text _ hfor hfile hraw =>
    rw [rulesFor_of_rule hrules] at hfor hdiscard
    split at hdiscard
    · obtain ⟨u, tree₁, hexec, hrest⟩ := FileTask.exec_bind_eq_ok hdiscard
      obtain rfl := (Prod.mk.inj hrest).2
      exact RawText.refiles_of_discard h hslash (RawText.textAt_eq_some_iff.2 hfile) hraw hexec
    · next hcovers => exact absurd (if_neg hcovers) hfor

end OneRule

/-! ### Tidy directories -/

/-- The directory of raw texts is tidy: stored nodes are filed by the rule, and whatever stands in
    the directory is the file of a node that names it. -/
structure Tidy (g : Engine) (rule : RawText) (tree : FileTree) (base : Place) : Prop where
  filed : ∀ key s, g.table tree .node key = some s → rule.Filed key s
  owned : ∀ names entry, names ≠ [] → tree.occupant (base ++ "raw" :: names) = some entry →
    ∃ key s, names = [rawName key] ∧ g.table tree .node key = some s
      ∧ RawText.textAt fileKey s = some (rawName key)

theorem rawName_inj {first second : String} (h : rawName first = rawName second) :
    first = second := (String.append_left_inj _).1 h

namespace Tidy

variable (h : g.Tidy rule tree base)

include h

/-- An identity whose node names no file has none. -/
theorem free (hnot : ∀ s, g.table tree .node key = some s → RawText.textAt fileKey s = none) :
    tree.occupant (base ++ ["raw", rawName key]) = none := by
  cases hentry : tree.occupant (base ++ ["raw", rawName key]) with
  | none => rfl
  | some entry =>
    obtain ⟨key', s, hnames, hs, hfile⟩ := h.owned [rawName key] entry (by simp) hentry
    obtain rfl := rawName_inj (List.singleton_inj.1 hnames)
    rw [hnot s hs] at hfile
    cases hfile

/-- Where neither raw texts nor nodes change, the directory stays tidy. -/
theorem of_same (hsame : tree.SameRaw tree' base)
    (htable : ∀ key, g.table tree' .node key = g.table tree .node key) :
    g.Tidy rule tree' base where
  filed key s hs := h.filed key s (htable key ▸ hs)
  owned names entry hne hentry := by
    rw [hsame names hne] at hentry
    obtain ⟨key, s, hnames, hs, hfile⟩ := h.owned names entry hne hentry
    exact ⟨key, s, hnames, (htable key).trans hs, hfile⟩

/-- A change under one key keeps the directory tidy if the node under that key is filed, and names
    the file that there is. -/
theorem change (hp : Number.Stable p)
    (hproper : ∀ key s, g.table tree .node key = some s → s.Proper p)
    (hspares : (g.table tree).Spares (g.table tree') .node key) {text : Option String}
    (hrefiles : tree.Refiles tree' base key text)
    (hfiled : ∀ s, g.table tree' .node key = some s → rule.Filed key s)
    (hnamed : text ≠ none → ∃ s, g.table tree' .node key = some s
      ∧ RawText.textAt fileKey s = some (rawName key)) : g.Tidy rule tree' base where
  filed key' s' hs' := by
    by_cases hkey : key' = key
    · subst hkey
      exact hfiled s' hs'
    · have hrel := hspares .node key' fun _ => hkey
      rw [hs'] at hrel
      obtain ⟨s, hs, hrereads⟩ := Entity.Rereads.exists_of_rel_after hrel
      exact ((h.filed key' s hs).rereads hp (hproper key' s hs) hrereads).1
  owned names entry hne hentry := by
    by_cases hown : names = [rawName key]
    · rw [hown, hrefiles.own] at hentry
      have htext : text ≠ none := by
        rintro rfl
        cases hentry
      obtain ⟨s, hs, hfile⟩ := hnamed htext
      exact ⟨key, s, hown, hs, hfile⟩
    · -- A file of another node: the node is read back, and its text is the same as before.
      rw [hrefiles.others names hne hown] at hentry
      obtain ⟨key', s, rfl, hs, hfile⟩ := h.owned names entry hne hentry
      have hkey : key' ≠ key := by
        rintro rfl
        exact hown rfl
      have hrel := hspares .node key' fun _ => hkey
      rw [hs] at hrel
      obtain ⟨s', hs', hrereads⟩ := Entity.Rereads.exists_of_rel hrel
      refine ⟨key', s', rfl, hs', ?_⟩
      rw [((h.filed key' s hs).rereads hp (hproper key' s hs) hrereads).2.1, hfile]

/-- Storing a node with its text in its file keeps the directory tidy. -/
theorem puts (hp : Number.Stable p)
    (hproper : ∀ key s, g.table tree .node key = some s → s.Proper p)
    (hproperty : rule.property ≠ fileKey) {v : Node}
    (hplain : Entries.get? fileKey v.properties = none)
    (hputs : (g.table tree).Puts (g.table tree') .node key (rule.formOf key v))
    (hnodup : (Entries.keys (rule.formOf key v).properties).Nodup)
    (hrefiles : tree.Refiles tree' base key (rule.textOf v)) : g.Tidy rule tree' base := by
  refine h.change hp hproper hputs.spares hrefiles (fun s hs => ?_) fun htext => ?_
  · obtain rfl := Option.some.inj (hputs.here.symm.trans hs)
    exact (RawText.filed_formOf hproperty hplain key).reread hnodup
  · obtain ⟨text, htext⟩ := Option.ne_none_iff_exists'.1 htext
    refine ⟨_, hputs.here, ?_⟩
    rw [RawText.textAt_reread hnodup]
    exact RawText.textAt_formOf hplain htext key

/-- A node that has been located has an identity without slashes, and its file if it names one. -/
theorem of_located (hconsistent : g.Consistent p used tree base) (hrules : g.rules = [rule])
    (hflat : '/' ∉ (g.idPrefix.getD "").toList) {id : Id} {type : String} {index : Entries String}
    {entities : List Node} {kept : Node}
    (hlocated : (tree.shelf g.root .node).Located id key type index entities kept) :
    '/' ∉ key.toList ∧ (RawText.textAt fileKey kept = none →
      tree.occupant (base ++ ["raw", rawName key]) = none) := by
  have hsome : g.rules ≠ [] := by
    rw [hrules]
    exact List.cons_ne_nil _ _
  constructor
  · obtain ⟨unique, hmem, rfl⟩ := hconsistent.sound.key_of_located hlocated
    exact slashless_keyOf (fun _ => hflat)
      (fun hsome => hconsistent.sound.slashless hsome unique hmem) hsome
  · intro hnone
    refine h.free fun s hs => ?_
    rw [hconsistent.table_of_located hlocated] at hs
    obtain rfl := Option.some.inj hs
    exact hnone

end Tidy

/-! ### Calls about nodes -/

section Nodes

variable (h : g.Consistent p used tree base) (hp : Number.Stable p)
  (h' : ∃ used', g.Consistent p used' tree' base) (hrules : g.rules = [rule])
  (hproperty : rule.property ≠ fileKey) (hflat : '/' ∉ (g.idPrefix.getD "").toList)
  (ht : g.Tidy rule tree base) {stamp : Stamp}

include h in
theorem proper_table (key : String) (s : Node) (hs : g.table tree .node key = some s) :
    s.Proper p := (h.of_table hs).2.1

include hrules in
theorem plain_of_plainBag {bag : Bag} (hplain : g.PlainBag .node bag) :
    Entries.get? fileKey bag = none := hplain rfl (by rw [hrules]; simp)

include h hp h' hrules hflat ht

include hproperty in
theorem tidy_of_create {body : Body .node} {v : Node} (hfresh : stamp.unique ∉ used)
    (hslash : '/' ∉ stamp.unique.toList) (hplain : g.PlainBag .node body.properties)
    (hexec : (g.create stamp body).exec tree = (.ok v, tree'))
    (hcreates : g.Creates p tree base stamp body (.ok v) tree')
    (hlimit : (tree'.shelf g.root .node).WithinLimit) : g.Tidy rule tree' base := by
  obtain ⟨used', h'⟩ := h'
  obtain ⟨rfl, s, hs, hform, hputs⟩ := h.puts_of_creates hp h' hfresh hcreates hlimit
  obtain ⟨_, _, hmade⟩ := hform.made
  have hid : (g.created stamp body).id.requireText = .ok (g.keyOf stamp.unique) := rfl
  obtain rfl := eq_formOf_of_stored hrules hid hmade
  refine ht.puts hp (proper_table h) hproperty (plain_of_plainBag hrules hplain) hputs
    hs.properties.1 ?_
  -- the text is written, and then the documents
  rw [create] at hexec
  obtain ⟨_, _, hcheck, hexec⟩ := FileTask.exec_bind_eq_ok hexec
  obtain rfl := (Prod.mk.inj hcheck).2
  obtain ⟨s, tree₁, hstored, hexec⟩ := FileTask.exec_bind_eq_ok hexec
  obtain ⟨_, tree₂, hinsert, hexec⟩ := FileTask.exec_bind_eq_ok hexec
  obtain rfl := (Prod.mk.inj hexec).2
  have hfree : tree.occupant (base ++ ["raw", rawName (g.keyOf stamp.unique)]) = none := by
    refine ht.free fun s hs => ?_
    rw [h.table_fresh hfresh .node] at hs
    cases hs
  obtain ⟨hrooted, hrefiles⟩ := refiles_of_stored hrules h.sound.hosts.rooted hid
    (slashless_keyOf (fun _ => hflat) (fun _ => hslash) (by rw [hrules]; simp)) hfree hstored
  have hdocuments := (Catalog.flat_insert s tree₁ hrooted).2
  rw [hinsert] at hdocuments
  exact hrefiles.same hdocuments

include hproperty in
theorem tidy_of_edit {id : Id} {patch : Patch .node} {v : Node}
    (hplain : ∀ bag, patch.properties = some bag → g.PlainBag .node bag)
    (hexec : (g.edit stamp id patch).exec tree = (.ok v, tree'))
    (hedits : g.Edits p tree base stamp id patch (.ok v) tree')
    (hlimit : (tree'.shelf g.root .node).WithinLimit) : g.Tidy rule tree' base := by
  obtain ⟨used', h'⟩ := h'
  obtain ⟨key, _, s, rfl, -, hs, hform, hputs⟩ := h.puts_of_edits hp h' hedits hlimit
  obtain ⟨_, _, hmade⟩ := hform.made
  rw [edit] at hexec
  obtain ⟨⟨old, kept⟩, tree₁, hlocate, hexec⟩ := FileTask.exec_bind_eq_ok hexec
  rw [Catalog.exec_locate] at hlocate
  obtain ⟨hfound, rfl⟩ := Prod.mk.inj hlocate
  obtain ⟨key', index, entities, hlocated⟩ := Shelf.located_of_locate hfound
  obtain rfl : key = key' := Catalog.ofString_inj hlocated.id_eq
  have hkept := h.sound.finds .node _ _ _ _ _ _ hlocated
  obtain ⟨seen, hview, hrebagged, hseen⟩ := exec_view (p := p) hkept.keeps
  obtain ⟨seen', tree₁, hview', hexec⟩ := FileTask.exec_bind_eq_ok hexec
  obtain ⟨hsame, rfl⟩ := Prod.mk.inj (hview.symm.trans hview')
  obtain rfl := Except.ok.inj hsame
  obtain ⟨_, tree₁, hcheck, hexec⟩ := FileTask.exec_bind_eq_ok hexec
  obtain rfl := (Prod.mk.inj hcheck).2
  obtain ⟨_, tree₁, hdiscard, hexec⟩ := FileTask.exec_bind_eq_ok hexec
  obtain ⟨s', tree₂, hstored, hexec⟩ := FileTask.exec_bind_eq_ok hexec
  obtain ⟨_, tree₃, hput, hexec⟩ := FileTask.exec_bind_eq_ok hexec
  obtain ⟨hv, rfl⟩ := Prod.mk.inj hexec
  obtain rfl := Except.ok.inj hv
  have hid : (patch.apply seen stamp.time).id.requireText = .ok key := by
    show seen.id.requireText = _
    rw [hrebagged.id]
    exact hkept.requireText
  obtain rfl := eq_formOf_of_stored hrules hid hmade
  refine ht.puts hp (proper_table h) hproperty
    (plain_of_plainBag hrules (plainBag_apply hseen hplain)) hputs hs.properties.1 ?_
  -- the old file is removed, a new one may be written, and then the documents
  obtain ⟨hslash, hfree⟩ := ht.of_located h hrules hflat hlocated
  rw [← hkept.type] at hdiscard
  obtain ⟨hrooted, hdiscarded⟩ := refiles_of_discard hrules h.sound.hosts.rooted hslash
    (keeps_node.1 hkept.keeps) hfree hdiscard
  obtain ⟨hrooted', hstoredFile⟩ := refiles_of_stored hrules hrooted hid hslash
    hdiscarded.own hstored
  have hdocuments := (Catalog.flat_put old s' tree₂ hrooted').2
  rw [hput] at hdocuments
  exact (hdiscarded.trans hstoredFile).same hdocuments

theorem tidy_of_remove {id : Id} (hexec : (g.remove .node id).exec tree = (.ok (), tree'))
    (hdeletes : g.Deletes tree base .node id (.ok ()) tree')
    (hlimit : (tree'.shelf g.root .node).WithinLimit) : g.Tidy rule tree' base := by
  obtain ⟨used', h'⟩ := h'
  obtain ⟨key, _, rfl, -, hspares, hgone⟩ := h.gone_of_deletes hp h' hdeletes hlimit
  refine ht.change hp (proper_table h) hspares ?_
    (fun s hs => by rw [hgone] at hs; cases hs) (fun hnone => absurd rfl hnone)
  rw [remove] at hexec
  obtain ⟨kept, tree₁, hremove, hdiscard⟩ := FileTask.exec_bind_eq_ok hexec
  obtain ⟨outcome, tree₂, hexec', hremoves⟩ :=
    Catalog.exec_remove (c := .node) h.sound.hosts (h.sound.ready .node) (.ofString key)
  obtain ⟨rfl, rfl⟩ := Prod.mk.inj (hremove.symm.trans hexec')
  obtain ⟨hrooted, hdocuments⟩ :=
    Catalog.flat_remove .node (.ofString key) tree h.sound.hosts.rooted
  rw [hremove] at hrooted hdocuments
  cases hremoves with
  | done _ key' type index entities _ hlocated hupdates =>
    obtain rfl : key = key' := Catalog.ofString_inj hlocated.id_eq
    have hkept := h.sound.finds .node _ _ _ _ _ _ hlocated
    obtain ⟨hslash, hfree⟩ := ht.of_located h hrules hflat hlocated
    rw [← hdocuments [rawName key] (List.cons_ne_nil _ _)] at hfree
    have hkeeps := hkept.keeps.of_changesOnly hupdates.change fun _ => not_documentName_rawLast _
    obtain ⟨-, hrefiles⟩ := refiles_of_discard hrules hrooted hslash (keeps_node.1 hkeeps) hfree
      hdiscard
    exact hdocuments.trans_refiles hrefiles

end Nodes

/-! ### Calls about relationships -/

theorem flat_of_relationship (g : Engine) (base : Place) (stamp : Stamp) :
    (∀ body : Body .relationship, (g.create stamp body).Flat g.root base)
      ∧ (∀ id (patch : Patch .relationship), (g.edit stamp id patch).Flat g.root base)
      ∧ ∀ id, (g.remove .relationship id).Flat g.root base := by
  refine ⟨fun body => ?_, fun id patch => ?_, fun id => ?_⟩
  · rw [create]
    refine (FileTask.flat_ofOutcome _).bind fun _ _ _ => ?_
    refine (FileTask.flat_pure _).bind fun s _ _ => ?_
    exact (Catalog.flat_insert s).bind fun _ _ _ => FileTask.flat_pure _
  · rw [edit]
    refine (FileTask.flat_of_unchanged fun tree => ?_).bind fun found _ _ => ?_
    · rw [Catalog.exec_locate]
    · refine (FileTask.flat_pure _).bind fun seen _ _ => ?_
      refine (FileTask.flat_ofOutcome _).bind fun _ _ _ => ?_
      refine (FileTask.flat_pure _).bind fun _ _ _ => ?_
      refine (FileTask.flat_pure _).bind fun s _ _ => ?_
      exact (Catalog.flat_put found.1 s).bind fun _ _ _ => FileTask.flat_pure _
  · rw [remove]
    exact (Catalog.flat_remove .relationship id).bind fun _ _ _ => FileTask.flat_pure _

/-- A flat task that leaves the documents of nodes as they are keeps the directory tidy. -/
theorem Tidy.of_flat {task : FileTask α} (ht : g.Tidy rule tree base)
    (h : tree.Rooted g.root base) (hflat : task.Flat g.root base)
    (hother : ∀ c', c' ≠ .relationship →
      ((task.exec tree).2).shelf g.root c' = tree.shelf g.root c') :
    g.Tidy rule (task.exec tree).2 base := by
  refine ht.of_same (hflat tree h).2 fun key => ?_
  rw [table, table, hother .node (by decide)]

/-! ### All calls -/

/-- A call that does not fail for the sake of files keeps the directory of raw texts tidy. -/
theorem Tidy.after_call (ht : g.Tidy rule tree base) (h : g.Consistent p used tree base)
    (hp : Number.Stable p) (hrules : g.rules = [rule]) (hproperty : rule.property ≠ fileKey)
    (hflat : '/' ∉ (g.idPrefix.getD "").toList) {step : Step} (haccepts : g.Accepts p step)
    (hfresh : ∀ unique ∈ step.given, unique ∉ used)
    (hslash : ∀ unique ∈ step.given, '/' ∉ unique.toList) (hfiles : ¬ g.FailsOfFiles tree step)
    (hlimit : ∀ c, ((g.advance tree step).shelf g.root c).WithinLimit) :
    g.Tidy rule (g.advance tree step) base := by
  have huniform : g.Uniform := uniform_of_length (by rw [hrules]; rfl)
  have h' := h.after_call hp huniform haccepts hfresh (fun unique hgiven _ => hslash unique hgiven)
    hfiles hlimit
  obtain ⟨outcome, tree', hexec, hanswers⟩ := h.sound.exec_answer huniform haccepts
  have hafter : g.advance tree step = tree' := by rw [advance, hexec]
  rw [hafter] at h' hlimit ⊢
  have hfiles' : ∀ f, outcome = .error f → ¬ f.OfFiles :=
    fun f hf hstorage => hfiles ⟨f, by rw [hexec, hf], hstorage⟩
  obtain ⟨stamp, call⟩ := step
  -- relationships have no raw texts, so a change of one does not enter the directory
  have hwork := flat_of_relationship g base stamp
  cases hanswers with
  | got c id outcome => exact ht
  | searched c s outcome => exact ht
  | listed c outcome => exact ht
  | @created c body outcome _ hcreates =>
    cases c with
    | relationship =>
      obtain rfl := congrArg Prod.snd hexec
      exact ht.of_flat h.sound.hosts.rooted (hwork.1 body) fun _ => hcreates.other_class
    | node =>
      cases outcome with
      | ok v =>
        exact tidy_of_create h hp ⟨_, h'⟩ hrules hproperty hflat ht
          (hfresh _ (List.mem_singleton.2 rfl)) (hslash _ (List.mem_singleton.2 rfl)) haccepts.2.2
          hexec hcreates (hlimit _)
      -- a creation that fails may have left a raw text, but only if it failed for the sake of
      -- files
      | error f =>
        cases hcreates with
        | refused _ _ _ hsame =>
          rcases hsame with hstorage | rfl
          · exact absurd hstorage (hfiles' f rfl)
          · exact ht
        | unindexed _ _ entities s hstorage => exact absurd hstorage (hfiles' f rfl)
  | @edited c id patch outcome _ hedits =>
    cases c with
    | relationship =>
      obtain rfl := congrArg Prod.snd hexec
      exact ht.of_flat h.sound.hosts.rooted (hwork.2.1 id patch) fun _ => hedits.other_class
    | node =>
      cases outcome with
      | ok v =>
        exact tidy_of_edit h hp ⟨_, h'⟩ hrules hproperty hflat ht haccepts.2.2 hexec hedits (hlimit _)
      | error f =>
        cases hedits with
        | refused _ _ => exact ht
        | unwritten _ _ key type index entities kept _ _ _ _ hstorage =>
          exact absurd hstorage (hfiles' f rfl)
        | lost _ _ key type index entities kept seen hstorage =>
          exact absurd hstorage (hfiles' f rfl)
  | @removed c id outcome _ hdeletes =>
    cases c with
    | relationship =>
      obtain rfl := congrArg Prod.snd hexec
      exact ht.of_flat h.sound.hosts.rooted (hwork.2.2 id) fun _ => hdeletes.other_class
    | node =>
      cases outcome with
      | ok u => exact tidy_of_remove h hp ⟨_, h'⟩ hrules hflat ht hexec hdeletes (hlimit _)
      | error f =>
        cases hdeletes with
        | refused _ => exact ht
        | stale _ _ key type index entities hkey hindex htype hload hfind hupdates =>
          exact (h.not_stale hkey hindex htype hload hfind).elim

end Engine

end PropertyGraph
