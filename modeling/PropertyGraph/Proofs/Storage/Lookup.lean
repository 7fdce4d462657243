/-
  PropertyGraph.Proofs.Storage.Lookup

  Lookups after a change that succeeded.  A change of one entity spares the others: they stand
  in the same documents, which can still be read, and the index leads to them as before.  The
  entity itself is found in its stored form and seen as it was returned.  Both need that the
  new bag is within the nesting limit; otherwise its document can no longer be read.
-/
import PropertyGraph.Proofs.Storage.History

namespace PropertyGraph

open FileTree (ChangesOnly DocumentName)
open Naming (rawLast)
open Catalog (Named)
open Json (printedTree)

variable {c : EntityClass} {g : Engine} {p : Number → Prop} {tree tree' : FileTree}
  {base : Place} {key type : String} {used : List String}

/-! ## Shelves that spare other identities -/

namespace Shelf

variable {s t u : Shelf c} {entities entities' : List (Entity c)} {index : Entries String}

/-- A shelf on which, after another one, at most the entity of a key has changed: the index leads
    to the others as before, the same documents can be read, and the others stand in them. -/
structure Spares (s t : Shelf c) (key : String) : Prop where
  index : ∃ before after, s.index = .ok before ∧ t.index = .ok after
    ∧ ∀ other, other ≠ key → Entries.get? other after = Entries.get? other before
  loaded : ∀ type entities, s.load type = .ok entities →
    ∃ entities', t.load type = .ok entities' ∧ ∀ other, other ≠ key →
      Catalog.find (.ofString other) entities' = Catalog.find (.ofString other) entities
  refused : ∀ type f, s.load type = .error f → t.load type = .error f

theorem Spares.trans (h : s.Spares t key) (h' : t.Spares u key) : s.Spares u key where
  index := by
    obtain ⟨before, middle, hs, ht, hfirst⟩ := h.index
    obtain ⟨middle', after, ht', hu, hsecond⟩ := h'.index
    obtain rfl : middle = middle' := Except.ok.inj (ht.symm.trans ht')
    exact ⟨before, after, hs, hu, fun other hne => (hsecond other hne).trans (hfirst other hne)⟩
  loaded type entities hload := by
    obtain ⟨middle, hmiddle, hfirst⟩ := h.loaded type entities hload
    obtain ⟨after, hafter, hsecond⟩ := h'.loaded type middle hmiddle
    exact ⟨after, hafter, fun other hne => (hsecond other hne).trans (hfirst other hne)⟩
  refused type f hload := h'.refused type f (h.refused type f hload)

/-- Another document under a type spares those whom it still holds. -/
theorem spares_put (hindex : s.index = .ok index) (hload : s.load type = .ok entities)
    (hread : (s.put type entities').load type = .ok entities')
    (hfind : ∀ other, other ≠ key →
      Catalog.find (.ofString other) entities' = Catalog.find (.ofString other) entities) :
    s.Spares (s.put type entities') key where
  index := ⟨index, index, hindex, hindex, fun _ _ => rfl⟩
  loaded other found hfound := by
    by_cases hother : other = type
    · subst hother
      obtain rfl : entities = found := Except.ok.inj (hload.symm.trans hfound)
      exact ⟨entities', hread, hfind⟩
    · rw [load_put_of_ne _ hother]
      exact ⟨found, hfound, fun _ _ => rfl⟩
  refused other f hrefused := by
    have hother : other ≠ type := by
      rintro rfl
      rw [hload] at hrefused
      cases hrefused
    rw [load_put_of_ne _ hother]
    exact hrefused

theorem spares_record (hindex : s.index = .ok index) (key type : String) :
    s.Spares (s.record key type) key where
  index := ⟨index, index.insert key type, hindex, index_record hindex key type,
    fun _ hne => Entries.get?_insert_of_ne hne type index⟩
  loaded _ found hfound := ⟨found, hfound, fun _ _ => rfl⟩
  refused _ _ hrefused := hrefused

theorem spares_erase (hindex : s.index = .ok index) (key : String) :
    s.Spares (s.setIndex (index.erase key)) key where
  index := ⟨index, index.erase key, hindex, rfl, fun _ hne => Entries.get?_erase_of_ne hne index⟩
  loaded _ found hfound := ⟨found, hfound, fun _ _ => rfl⟩
  refused _ _ hrefused := hrefused

/-- Taking an identity out of a document spares the others. -/
theorem spares_without {rest : List (Entity c)} (hindex : s.index = .ok index)
    (hload : s.load type = .ok entities) (hnamed : Named entities)
    (hsub : List.Sublist rest entities)
    (hrest : ∀ e, e ∈ rest ↔ e ∈ entities ∧ e.id ≠ .ofString key)
    (hread : (s.put type rest).load type = .ok rest) : s.Spares (s.put type rest) key := by
  refine spares_put hindex hload hread fun other hne =>
    Catalog.find_eq_of_mem_iff hnamed (hnamed.sublist hsub) (fun e he => ?_) hne
  rw [hrest]
  exact and_iff_left he

section Append

variable {x : Entity c} (hindex : s.index = .ok index)
  (hid : x.id = .ofString key)
  (hread : (s.put type (entities ++ [x])).load type = .ok (entities ++ [x]))

include hindex hid hread

/-- Appending an entity to a document and recording its type spares the others. -/
theorem spares_append (hload : s.load type = .ok entities) :
    s.Spares ((s.put type (entities ++ [x])).record key type) key := by
  have hindex' : (s.put type (entities ++ [x])).index = .ok index := hindex
  exact (spares_put hindex hload hread fun _ hne => Catalog.find_append_of_ne hid hne).trans
    (spares_record hindex' key type)

/-- What was appended is found, if it is the only one of its identity. -/
theorem get_append (hnamed : Named entities) (hfresh : ∀ e ∈ entities, e.id ≠ .ofString key) :
    ((s.put type (entities ++ [x])).record key type).get (.ofString key) = .ok (some x) :=
  Located.get_eq ⟨rfl, index_record hindex key type, Entries.get?_insert_self .., hread,
    (hnamed.append hid hfresh).find_eq_some_iff.2 ⟨by simp, hid⟩⟩

end Append

section Replace

variable {id : Id} {kept x : Entity c} (hlocated : s.Located id key type index entities kept)
  (hnamed : Named entities) (hid : x.id = .ofString key)
  (hread : (s.put type (Catalog.replaceFirst x entities)).load type
    = .ok (Catalog.replaceFirst x entities))

include hlocated hnamed hid hread

/-- Putting an entity in the place of the one of its identity spares the others. -/
theorem spares_replaceFirst : s.Spares (s.put type (Catalog.replaceFirst x entities)) key := by
  have hthere : ∃ e ∈ entities, e.id = .ofString key :=
    ⟨kept, hlocated.mem, hlocated.id_of_named hnamed⟩
  refine spares_put hlocated.indexed hlocated.loaded hread fun other hne =>
    Catalog.find_eq_of_mem_iff hnamed (hnamed.replaceFirst hid hthere) (fun e he => ?_) hne
  rw [Catalog.mem_replaceFirst_iff hnamed hid hthere]
  constructor
  · rintro (rfl | ⟨hmem, -⟩)
    · exact absurd hid he
    · exact hmem
  · exact fun hmem => .inr ⟨hmem, he⟩

theorem get_replaceFirst :
    (s.put type (Catalog.replaceFirst x entities)).get (.ofString key) = .ok (some x) := by
  have hthere : ∃ e ∈ entities, e.id = .ofString key :=
    ⟨kept, hlocated.mem, hlocated.id_of_named hnamed⟩
  have hfound : Catalog.find (.ofString key) (Catalog.replaceFirst x entities) = some x :=
    (hnamed.replaceFirst hid hthere).find_eq_some_iff.2
      ⟨(Catalog.mem_replaceFirst_iff hnamed hid hthere).2 (.inl rfl), hid⟩
  exact Located.get_eq ⟨rfl, hlocated.indexed, hlocated.typed, hread, hfound⟩

end Replace

/-- A lookup of another identity finds what it has found. -/
theorem Spares.get_eq (h : s.Spares t key) {id : Id} (hne : id ≠ .ofString key) :
    t.get id = s.get id := by
  rw [get, get]
  cases hkey : id.requireText with
  | error f => rfl
  | ok other =>
    obtain rfl := Catalog.eq_ofString_of_requireText hkey
    have hother : other ≠ key := by
      rintro rfl
      exact hne rfl
    obtain ⟨before, after, hs, ht, hget⟩ := h.index
    rw [hs, ht]
    simp only [bind, Except.bind, hget other hother]
    cases Entries.get? other before with
    | none => rfl
    | some type =>
      simp only
      cases hload : s.load type with
      | error f => rw [h.refused type f hload]
      | ok entities =>
        obtain ⟨entities', hload', hfind⟩ := h.loaded type entities hload
        rw [hload']
        simp only [hfind other hother]

/-- A document of proper entities within the nesting limit is read as it was written. -/
theorem load_put_of_entities (hload : s.load type = .ok entities)
    (hproper : ∀ e ∈ entities', e.Proper Number.Whole)
    (hlimit : ∀ e ∈ entities', (printedTree 2 e.toJson).withinLimit = true) :
    (s.put type entities').load type = .ok entities' := by
  rw [s.load_put_self (checkType_of_load hload),
    Document.decode_entitiesText_of_entities Number.stable_whole hproper hlimit]
  have hreread : entities'.map Entity.reread = entities' :=
    (List.map_congr_left fun e he => (hproper e he).reread).trans (List.map_id _)
  rw [hreread]

end Shelf

/-! ## How others are seen -/

namespace Engine

/-- An entity that is kept is seen alike in all trees, unless there are rules and it is a node. -/
theorem Keeps.seenSame_or {e : Entity c} (h : g.Keeps tree base key e) :
    (∀ tree₁ tree₂, g.SeenSame tree₁ tree₂ e) ∨ c = .node ∧ g.rules ≠ [] := by
  cases c with
  | relationship => exact .inl fun _ _ => rfl
  | node =>
    cases keeps_node.1 h with
    | unruled hrules =>
      refine .inl fun tree₁ tree₂ => ?_
      rw [SeenSame, view, rulesFor_of_rules hrules]
      rfl
    | inline hfile =>
      refine .inl fun tree₁ tree₂ => ?_
      rw [SeenSame, view, RawText.exec_mergeAll_none _ hfile, RawText.exec_mergeAll_none _ hfile]
    | apart text hproperty hrules hfile hraw =>
      exact .inr ⟨rfl, fun hnil => hrules (rulesFor_of_rules hnil e.type)⟩

/-- An entity that is kept in every tree is seen alike in all of them: in a tree without files
    it can have no raw text. -/
theorem seenSame_of_keeps_everywhere {e : Entity c} (h : ∀ tree, g.Keeps tree base key e)
    (tree₁ tree₂ : FileTree) : g.SeenSame tree₁ tree₂ e := by
  cases c with
  | relationship => rfl
  | node =>
    cases keeps_node.1 (h ⟨[], []⟩) with
    | unruled hrules =>
      rw [SeenSame, view, rulesFor_of_rules hrules]
      rfl
    | inline hfile =>
      rw [SeenSame, view, RawText.exec_mergeAll_none _ hfile, RawText.exec_mergeAll_none _ hfile]
    | apart text hproperty hrules hfile hraw =>
      have hthere := hraw.directory.there
      simp [FileTree.occupant, FileTree.lookup] at hthere

namespace Sound

/-- After a call about one entity the others of its class are seen as before. -/
theorem seenSame (h : g.Sound p used tree base) {unique : String}
    (hslash : g.rules ≠ [] → '/' ∉ unique.toList)
    (hchange : tree.ChangesOnly tree' (Touched c (g.keyOf unique))) {entities : List (Entity c)}
    (hload : (tree.shelf g.root c).load type = .ok entities) {e : Entity c} (he : e ∈ entities)
    (hne : e.id ≠ .ofString (g.keyOf unique)) : g.SeenSame tree tree' e := by
  obtain ⟨other, hother, hkept⟩ := (h.good c).all type entities hload e he
  -- a raw text is touched by calls about its own identity only
  rcases hkept.keeps.seenSame_or with halways | ⟨rfl, hrules⟩
  · exact halways tree tree'
  · refine view_of_changesOnly hkept.keeps hchange fun _ => ?_
    rintro (hname | ⟨-, hname⟩)
    · exact not_documentName_rawLast _ hname
    · refine Naming.not_rawTouches_rawLast (fun heq => hne ?_) hname
      rw [hkept.id, Naming.rawLast_inj (h.slashless hrules other hother) (hslash hrules) heq]

/-- After a call about an entity of one class those of the other class are seen as before. -/
theorem seenSame_of_other_class (h : g.Sound p used tree base) {c' : EntityClass}
    (hclass : c' ≠ c) (hchange : tree.ChangesOnly tree' (Touched c key))
    {entities : List (Entity c')} (hload : (tree.shelf g.root c').load type = .ok entities)
    {e : Entity c'} (he : e ∈ entities) : g.SeenSame tree tree' e := by
  obtain ⟨other, -, hkept⟩ := (h.good c').all type entities hload e he
  refine view_of_changesOnly hkept.keeps hchange fun hnode => ?_
  rintro (hname | ⟨hnode', -⟩)
  · exact not_documentName_rawLast _ hname
  · exact hclass (hnode.trans hnode'.symm)

/-- A lookup finds an entity of the identity it was asked for. -/
theorem id_of_get (h : g.Sound p used tree base) {id : Id} {e : Entity c}
    (hget : (tree.shelf g.root c).get id = .ok (some e)) :
    e.id = id ∧ ∃ type entities, (tree.shelf g.root c).load type = .ok entities ∧ e ∈ entities := by
  obtain ⟨key, type, index, entities, hlocated⟩ := Shelf.located_of_get hget
  refine ⟨?_, type, entities, hlocated.loaded, hlocated.mem⟩
  rw [(h.finds c _ _ _ _ _ _ hlocated).id, hlocated.id_eq]

/-- Where the shelf spares an identity, a lookup of it gives the same answer as before. -/
theorem get_of_spares (h : g.Sound p used tree base) {unique : String}
    (hslash : g.rules ≠ [] → '/' ∉ unique.toList)
    (hchange : tree.ChangesOnly tree' (Touched c (g.keyOf unique)))
    (hspares : (tree.shelf g.root c).Spares (tree'.shelf g.root c) (g.keyOf unique)) {id : Id}
    (hne : id ≠ .ofString (g.keyOf unique)) :
    ((g.get c id).exec tree').1 = ((g.get c id).exec tree).1 := by
  have hagrees : (g.get c id).Agrees tree tree' := by
    refine agrees_get (hspares.get_eq hne) fun e hget => ?_
    obtain ⟨hid, type, entities, hload, he⟩ := h.id_of_get hget
    exact h.seenSame hslash hchange hload he (hid ▸ hne)
  exact hagrees.same

end Sound

/-! ## Changes that succeeded -/

/-- A change of the entity of a key that succeeded: the others are spared, and the entity is found
    in a stored form that is seen as `v`. -/
structure Settles (g : Engine) (p : Number → Prop) (tree tree' : FileTree) (base : Place)
    (key : String) (v : Entity c) : Prop where
  change : tree.ChangesOnly tree' (Touched c key)
  spares : (tree.shelf g.root c).Spares (tree'.shelf g.root c) key
  found : ∃ s, (tree'.shelf g.root c).get (.ofString key) = .ok (some s)
    ∧ g.StoredAs p tree' base key v s

theorem Settles.exec_get {v : Entity c} (h : g.Settles p tree tree' base key v)
    (hlength : g.rules.length ≤ 1) :
    (g.get c (.ofString key)).exec tree' = (.ok (some v), tree') := by
  obtain ⟨s, hfound, hform⟩ := h.found
  have hget : (Catalog.get g.root c (.ofString key)).exec tree' = (.ok (some s), tree') := by
    rw [Catalog.exec_get, hfound]
  rw [get, FileTask.exec_bind_of_ok hget]
  exact FileTask.exec_bind_of_ok (hform.seen hlength)

section Nodes

variable {stamp : Stamp} {v node : Node} {entities : List Node}

/-- What is left of a document is read as it was written. -/
theorem Sound.load_put_of_sublist (h : g.Sound Number.Whole used tree base)
    (hshallow : (tree.shelf g.root c).Shallow) {entities rest : List (Entity c)}
    (hload : (tree.shelf g.root c).load type = .ok entities) (hsub : List.Sublist rest entities) :
    ((tree.shelf g.root c).put type rest).load type = .ok rest :=
  Shelf.load_put_of_entities hload (fun e he => h.proper hload e (hsub.subset he))
    fun e he => hshallow type entities hload e (hsub.subset he)

/-- The stored form of a node nests no deeper than the node. -/
theorem StoredAs.withinLimit {s : Node} (h : g.StoredAs p tree base key v s)
    (hid : v.id = .ofString key)
    (hlimit : (Json.object v.properties).nesting ≤ Node.maxNesting) :
    (printedTree 2 s.toJson).withinLimit = true :=
  (Node.withinLimit_iff (h.rebagged.id.trans hid)).2 (Nat.le_trans h.rebagged.nesting hlimit)

/-- Creating a node that is within the nesting limit. -/
theorem Sound.settles_of_creates (h : g.Sound Number.Whole used tree base)
    (hshallow : (tree.shelf g.root .node).Shallow) (hfresh : stamp.unique ∉ used)
    {body : Body .node} (hcreates : g.Creates Number.Whole tree base stamp body (.ok v) tree')
    (hlimit : (Json.object v.properties).nesting ≤ Node.maxNesting) :
    v.id = .ofString (g.keyOf stamp.unique)
      ∧ g.Settles Number.Whole tree tree' base (g.keyOf stamp.unique) v := by
  cases hcreates with
  | done _ entities s hload hdocument hindex hkept hform hbecomes =>
    obtain ⟨⟨index, hindexed⟩, -⟩ := (h.ready .node).readable hindex
    have hnamed := (h.good .node).named body.type entities hload
    have hread : ((tree.shelf g.root .node).put body.type (entities ++ [s])).load body.type
        = .ok (entities ++ [s]) :=
      Shelf.load_put_of_entities hload (h.proper_append hload hkept.proper)
        (hshallow.append hload (hform.withinLimit rfl hlimit))
    refine ⟨rfl, hbecomes.change, ?_, s, ?_, hform⟩
    · rw [hbecomes.here]
      exact Shelf.spares_append hindexed hkept.id hread hload
    · rw [hbecomes.here]
      exact Shelf.get_append hindexed hkept.id hread hnamed fun e he => h.id_ne hfresh hload he

/-- Editing a node that is within the nesting limit afterwards. -/
theorem Sound.settles_of_edits (h : g.Sound Number.Whole used tree base)
    (hshallow : (tree.shelf g.root .node).Shallow) {id : Id} {patch : Patch .node}
    (hedits : g.Edits Number.Whole tree base stamp id patch (.ok v) tree')
    (hlimit : (Json.object v.properties).nesting ≤ Node.maxNesting) :
    ∃ unique ∈ used, id = .ofString (g.keyOf unique) ∧ v.id = id
      ∧ g.Settles Number.Whole tree tree' base (g.keyOf unique) v := by
  have hgood := h.good .node
  cases hedits with
  | changed _ key type index entities kept seen s hlocated hrebagged hkept hform hbecomes =>
    obtain ⟨unique, hmem, rfl⟩ := h.key_of_located hlocated
    have hnamed := hgood.named type entities hlocated.loaded
    have hid : (patch.apply seen stamp.time).id = .ofString (g.keyOf unique) :=
      hrebagged.id.trans (hlocated.id_of_named hnamed)
    have hread : ((tree.shelf g.root .node).put type (Catalog.replaceFirst s entities)).load type
        = .ok (Catalog.replaceFirst s entities) := by
      refine Shelf.load_put_of_entities hlocated.loaded
        (h.proper_replaceFirst hlocated.loaded hkept.proper) fun e he => ?_
      rcases Catalog.mem_of_mem_replaceFirst he with hnew | hother
      · rw [hnew]
        exact hform.withinLimit hid hlimit
      · exact hshallow type entities hlocated.loaded e hother
    refine ⟨unique, hmem, hlocated.id_eq, hid.trans hlocated.id_eq.symm, hbecomes.change, ?_, s, ?_,
      hform⟩
    · rw [hbecomes.here]
      exact Shelf.spares_replaceFirst hlocated hnamed hkept.id hread
    · rw [hbecomes.here]
      exact Shelf.get_replaceFirst hlocated hnamed hkept.id hread
  | moved _ key type type' index entities entities' kept seen s hlocated hne hload _ hrebagged
      hkept hform hbecomes =>
    obtain ⟨unique, hmem, rfl⟩ := h.key_of_located hlocated
    have hnamed := hgood.named type entities hlocated.loaded
    have hid : (patch.apply seen stamp.time).id = .ofString (g.keyOf unique) :=
      hrebagged.id.trans (hlocated.id_of_named hnamed)
    have hrest := fun e => hlocated.mem_others_iff hnamed (x := e)
    have hsublist : List.Sublist (entities.filter fun e => !e.id.same id) entities :=
      List.filter_sublist
    generalize entities.filter (fun e => !e.id.same id) = rest at hrest hsublist hbecomes
    -- first the document that the node leaves, then the one that it comes to
    have hleft := h.load_put_of_sublist hshallow hlocated.loaded hsublist
    have hspares :=
      Shelf.spares_without hlocated.indexed hlocated.loaded hnamed hsublist hrest hleft
    have hload' : ((tree.shelf g.root .node).put type rest).load type' = .ok entities' := by
      rw [Shelf.load_put_of_ne _ hne]
      exact hload
    have hcome : (((tree.shelf g.root .node).put type rest).put type' (entities' ++ [s])).load type'
        = .ok (entities' ++ [s]) :=
      Shelf.load_put_of_entities hload' (h.proper_append hload hkept.proper)
        (hshallow.append hload (hform.withinLimit hid hlimit))
    have hindexed : ((tree.shelf g.root .node).put type rest).index = .ok index := hlocated.indexed
    refine ⟨unique, hmem, hlocated.id_eq, hid.trans hlocated.id_eq.symm, hbecomes.change, ?_, s, ?_,
      hform⟩
    · rw [hbecomes.here]
      exact hspares.trans (Shelf.spares_append hindexed hkept.id hcome hload')
    · rw [hbecomes.here]
      exact Shelf.get_append hindexed hkept.id hcome (hgood.named type' entities' hload)
        fun e he => h.id_ne_of_located hlocated hne hload he

/-- Removing a node. -/
theorem Sound.spares_of_deletes (h : g.Sound Number.Whole used tree base)
    (hshallow : (tree.shelf g.root c).Shallow) {id : Id}
    (hdeletes : g.Deletes tree base c id (.ok ()) tree') :
    ∃ unique ∈ used, id = .ofString (g.keyOf unique)
      ∧ tree.ChangesOnly tree' (Touched c (g.keyOf unique))
      ∧ (tree.shelf g.root c).Spares (tree'.shelf g.root c) (g.keyOf unique) := by
  cases hdeletes with
  | done _ key type index entities kept hlocated hbecomes =>
    obtain ⟨unique, hmem, rfl⟩ := h.key_of_located hlocated
    have hnamed := (h.good c).named type entities hlocated.loaded
    have hsublist := Catalog.removeFirst_sublist id entities
    have hindexed : ((tree.shelf g.root c).put type (Catalog.removeFirst id entities)).index
        = .ok index := hlocated.indexed
    refine ⟨unique, hmem, hlocated.id_eq, hbecomes.change, ?_⟩
    rw [hbecomes.here]
    exact (Shelf.spares_without hlocated.indexed hlocated.loaded hnamed hsublist
      (fun _ => hlocated.mem_removeFirst_iff hnamed)
      (h.load_put_of_sublist hshallow hlocated.loaded hsublist)).trans
        (Shelf.spares_erase hindexed _)

end Nodes

end Engine

end PropertyGraph
