/-
  PropertyGraph.Proofs.Storage.Representation

  How a graph without raw texts is represented below its root.  As long as no call fails for
  the sake of files and all documents can be read, the index maps an identity to a type just
  when the document of the type holds it, and the list names the types that have a document,
  which are those that have ever held an entity.  Each kind of change is shown to bring all
  of this about again, and so it holds after every run.
-/
import PropertyGraph.Proofs.Json.DoubleText
import PropertyGraph.Proofs.Storage.Run
import PropertyGraph.Proofs.Storage.TypeList

namespace PropertyGraph

open Catalog (Named)
open Json (Tree)

variable {c : EntityClass} {g : Engine} {p : Number → Prop} {tree tree' : FileTree}
  {base : Place} {key type : String} {used : List String} {ever : String → Prop}

/-! ## Shelves as tables -/

namespace Shelf

/-- The document of a type holds an entity of an identity. -/
def Holds (s : Shelf c) (type key : String) : Prop :=
  ∃ entities, s.load type = .ok entities ∧ ∃ e ∈ entities, e.id = .ofString key

/-- The index maps an identity to a type. -/
def Maps (s : Shelf c) (key type : String) : Prop :=
  ∃ index, s.index = .ok index ∧ Entries.get? key index = some type

/-- The list of types names a type. -/
def Lists (s : Shelf c) (type : String) : Prop := ∃ types, s.types = .ok types ∧ type ∈ types

/-- No bracket of a document is cut off by the nesting limit of the reader. -/
def WithinLimit (s : Shelf c) : Prop :=
  ∀ type text, s.text type = .ok text → (Tree.ofText text).withinLimit = true

/-- Index and list of types agree with the documents, and the types that have a document are
    those that have ever held an entity. -/
structure Catalogued (s : Shelf c) (ever : String → Prop) : Prop where
  readable : ∀ type, s.Has type → ∃ entities, s.load type = .ok entities
  mapped : ∀ key type, s.Maps key type ↔ s.Holds type key
  ascending : ∀ types, s.types = .ok types → types.Pairwise (· < ·)
  listed : ∀ type, s.Lists type ↔ s.Has type
  held : ∀ type, s.Has type ↔ ever type

/-- The types that have held an entity before or hold one now. -/
def EverSince (s : Shelf c) (ever : String → Prop) (type : String) : Prop :=
  ever type ∨ ∃ key, s.Holds type key

variable {s s' : Shelf c} {entities : List (Entity c)}

theorem maps_iff {index : Entries String} (hindex : s.index = .ok index) :
    s.Maps key type ↔ Entries.get? key index = some type := by
  constructor
  · rintro ⟨entries, hentries, hget⟩
    obtain rfl := Except.ok.inj (hindex.symm.trans hentries)
    exact hget
  · exact fun hget => ⟨index, hindex, hget⟩

theorem lists_iff {types : List String} (htypes : s.types = .ok types) :
    s.Lists type ↔ type ∈ types := by
  constructor
  · rintro ⟨list, hlist, hmem⟩
    obtain rfl := Except.ok.inj (htypes.symm.trans hlist)
    exact hmem
  · exact fun hmem => ⟨types, htypes, hmem⟩

/-- What the index maps after an identity has been recorded. -/
theorem maps_record {index : Entries String} (hindex : s.index = .ok index)
    (key type k other : String) :
    (s.record key type).Maps k other ↔ k = key ∧ other = type ∨ k ≠ key ∧ s.Maps k other := by
  rw [maps_iff (index_record hindex key type), maps_iff hindex]
  by_cases hk : k = key
  · subst hk
    rw [Entries.get?_insert_self]
    constructor
    · exact fun htype => .inl ⟨rfl, (Option.some.inj htype).symm⟩
    · rintro (⟨-, rfl⟩ | ⟨hne, -⟩)
      · rfl
      · exact absurd rfl hne
  · rw [Entries.get?_insert_of_ne hk]
    constructor
    · exact fun hget => .inr ⟨hk, hget⟩
    · rintro (⟨he, -⟩ | ⟨-, hget⟩)
      · exact absurd he hk
      · exact hget

/-- What the index maps after an identity has been taken out of it. -/
theorem maps_erase {index : Entries String} (hindex : s.index = .ok index)
    (hkeys : (Entries.keys index).Nodup) (key k other : String) :
    (s'.setIndex (index.erase key)).Maps k other ↔ k ≠ key ∧ s.Maps k other := by
  rw [maps_iff (s'.index_setIndex _), maps_iff hindex]
  by_cases hk : k = key
  · subst hk
    rw [Entries.get?_erase_self hkeys]
    exact ⟨nofun, fun h => absurd rfl h.1⟩
  · rw [Entries.get?_erase_of_ne hk]
    exact ⟨fun hget => ⟨hk, hget⟩, fun h => h.2⟩

/-- The types that an ascending list names after one has been recorded. -/
theorem lists_record {types : List String} (htypes : s.types = .ok types)
    (hascending : types.Pairwise (· < ·)) (key type other : String) :
    (s.record key type).Lists other ↔ other = type ∨ s.Lists other := by
  rw [lists_iff (types_record htypes key type), lists_iff htypes]
  exact (Catalog.ascending_recorded hascending type).2 other

theorem Holds.has (h : s.Holds type key) : s.Has type := by
  obtain ⟨entities, hload, e, he, -⟩ := h
  exact has_of_load hload (List.ne_nil_of_mem he)

/-- A document within the nesting limit is read as it was written, each entity as it is read
    back. -/
theorem load_put_of_withinLimit (hp : Number.Stable p) (hproper : ∀ e ∈ entities, e.Proper p)
    (hcheck : Naming.checkType type = .ok ())
    (hlimit : (Tree.ofText (Document.entitiesText entities)).withinLimit = true) :
    (s.put type entities).load type = .ok (entities.map Entity.reread) := by
  rw [s.load_put_self hcheck, Document.decode_entitiesText hp hproper hlimit]

/-- What a written document holds. -/
theorem holds_put_self (hload : (s.put type entities).load type = .ok (entities.map Entity.reread))
    (htexts : ∀ e ∈ entities, ∃ key, e.id = .ofString key) :
    (s.put type entities).Holds type key ↔ ∃ e ∈ entities, e.id = .ofString key := by
  have hid : ∀ e ∈ entities, e.reread.id = e.id := by
    intro e he
    obtain ⟨text, htext⟩ := htexts e he
    show e.id.reread = e.id
    rw [htext]
    rfl
  constructor
  · rintro ⟨read, hread, e, he, hkey⟩
    obtain rfl := Except.ok.inj (hload.symm.trans hread)
    obtain ⟨x, hx, rfl⟩ := List.mem_map.1 he
    exact ⟨x, hx, (hid x hx) ▸ hkey⟩
  · rintro ⟨e, he, hkey⟩
    exact ⟨_, hload, e.reread, List.mem_map.2 ⟨e, he, rfl⟩, (hid e he).trans hkey⟩

theorem holds_put_of_ne {other : String} (h : other ≠ type) :
    (s.put type entities).Holds other key ↔ s.Holds other key := by
  rw [Holds, Holds, load_put_of_ne _ h]

/-- What documents hold when an entity of a new identity has been added to one of them. -/
theorem holds_append {e : Entity c} (hload : s.load type = .ok entities)
    (hread : (s.put type (entities ++ [e])).load type
      = .ok ((entities ++ [e]).map Entity.reread))
    (hnamed : Named entities) (hid : e.id = .ofString key) (hnot : ∀ other, ¬ s.Holds other key)
    (other k : String) :
    (s.put type (entities ++ [e])).Holds other k
      ↔ k = key ∧ other = type ∨ k ≠ key ∧ s.Holds other k := by
  by_cases hother : other = type
  · subst hother
    have hfresh : ∀ x ∈ entities, x.id ≠ .ofString key :=
      fun x hx hkey => hnot other ⟨entities, hload, x, hx, hkey⟩
    rw [holds_put_self hread (hnamed.append hid hfresh).texts]
    constructor
    · rintro ⟨x, hx, hkey⟩
      -- Which entity bears the key decides: an old one bears an old key, since the new key is
      -- nowhere.
      rcases List.mem_append.1 hx with hold | hlast
      · refine .inr ⟨?_, entities, hload, x, hold, hkey⟩
        rintro rfl
        exact hnot _ ⟨entities, hload, x, hold, hkey⟩
      · rw [List.mem_singleton.1 hlast, hid] at hkey
        exact .inl ⟨(Catalog.ofString_inj hkey).symm, rfl⟩
    · rintro (⟨rfl, -⟩ | ⟨-, entities', hload', x, hx, hkey⟩)
      · exact ⟨e, by simp, hid⟩
      · obtain rfl := Except.ok.inj (hload.symm.trans hload')
        exact ⟨x, List.mem_append_left _ hx, hkey⟩
  · rw [holds_put_of_ne hother]
    constructor
    · intro hold
      refine .inr ⟨?_, hold⟩
      rintro rfl
      exact hnot other hold
    · rintro (⟨-, he⟩ | ⟨-, hold⟩)
      · exact absurd he hother
      · exact hold

/-- What documents hold when an entity has come in the place of the one of its identity. -/
theorem holds_replaceFirst {x : Entity c} (hload : s.load type = .ok entities)
    (hread : (s.put type (Catalog.replaceFirst x entities)).load type
      = .ok ((Catalog.replaceFirst x entities).map Entity.reread))
    (hnamed : Named entities) (hid : x.id = .ofString key)
    (hthere : ∃ e ∈ entities, e.id = .ofString key) (other k : String) :
    (s.put type (Catalog.replaceFirst x entities)).Holds other k ↔ s.Holds other k := by
  by_cases hother : other = type
  · subst hother
    rw [holds_put_self hread (hnamed.replaceFirst hid hthere).texts]
    -- the identities of the document are the same, one by one
    rw [← List.mem_map (f := Entity.id), Catalog.ids_replaceFirst hnamed hid hthere, List.mem_map]
    constructor
    · rintro ⟨e, he, hkey⟩
      exact ⟨entities, hload, e, he, hkey⟩
    · rintro ⟨entities', hload', e, he, hkey⟩
      obtain rfl := Except.ok.inj (hload.symm.trans hload')
      exact ⟨e, he, hkey⟩
  · exact holds_put_of_ne hother

/-- What documents hold when an identity has been taken out of the only one that held it. -/
theorem holds_without {rest : List (Entity c)} (hload : s.load type = .ok entities)
    (hread : (s.put type rest).load type = .ok (rest.map Entity.reread)) (hnamed : Named entities)
    (hrest : ∀ e, e ∈ rest ↔ e ∈ entities ∧ e.id ≠ .ofString key)
    (honly : ∀ other, other ≠ type → ¬ s.Holds other key) (other k : String) :
    (s.put type rest).Holds other k ↔ k ≠ key ∧ s.Holds other k := by
  by_cases hother : other = type
  · subst hother
    rw [holds_put_self hread fun e he => hnamed.texts e ((hrest e).1 he).1]
    constructor
    · rintro ⟨e, he, hkey⟩
      obtain ⟨hmem, hne⟩ := (hrest e).1 he
      refine ⟨?_, entities, hload, e, hmem, hkey⟩
      rintro rfl
      exact hne hkey
    · rintro ⟨hne, entities', hload', e, he, hkey⟩
      obtain rfl := Except.ok.inj (hload.symm.trans hload')
      refine ⟨e, (hrest e).2 ⟨he, fun hid => hne ?_⟩, hkey⟩
      exact Catalog.ofString_inj (hkey.symm.trans hid)
  · -- The other documents stay, and by assumption none of them held the identity.
    rw [holds_put_of_ne hother]
    constructor
    · intro hold
      refine ⟨?_, hold⟩
      rintro rfl
      exact honly other hother hold
    · exact fun h => h.2

namespace Catalogued

/-- The types that have a document stay those that have ever held an entity, if documents
    stay and new ones come only with an entity. -/
theorem held_since (h : s.Catalogued ever) (hstays : ∀ other, s.Has other → s'.Has other)
    (hnew : ∀ other, s'.Has other → s.Has other ∨ ∃ k, s'.Holds other k) (other : String) :
    s'.Has other ↔ s'.EverSince ever other := by
  constructor
  · intro hhas
    rcases hnew other hhas with hbefore | hholds
    · exact .inl ((h.held other).1 hbefore)
    · exact .inr hholds
  · rintro (hever | ⟨k, hholds⟩)
    · exact hstays other ((h.held other).2 hever)
    · exact hholds.has

/-- A shelf on which nothing has changed. -/
theorem unchanged (h : s.Catalogued ever) : s.Catalogued (s.EverSince ever) where
  readable := h.readable
  mapped := h.mapped
  ascending := h.ascending
  listed := h.listed
  held := h.held_since (fun _ => id) fun _ => .inl

/-- Documents have changed, but neither what they hold nor which of them there are. -/
theorem of_same_holds (h : s.Catalogued ever) (hindex : s'.index = s.index)
    (htypes : s'.types = s.types) (hhas : ∀ type, s'.Has type ↔ s.Has type)
    (hholds : ∀ type key, s'.Holds type key ↔ s.Holds type key)
    (hreadable : ∀ type, s'.Has type → ∃ entities, s'.load type = .ok entities) :
    s'.Catalogued (s'.EverSince ever) where
  readable := hreadable
  mapped key type := by
    rw [Maps, hindex, hholds]
    exact h.mapped key type
  ascending types htypes' := h.ascending types (htypes ▸ htypes')
  listed type := by
    rw [Lists, htypes, hhas]
    exact h.listed type
  held := h.held_since (fun other => (hhas other).2) fun other hhas' => .inl ((hhas other).1 hhas')

/-- An identity has come to the document of a type, and index and list say so. -/
theorem record (h : s.Catalogued ever) {index : Entries String} (hindex : s.index = .ok index)
    {types : List String} (htypes : s.types = .ok types) (hindex' : s'.index = s.index)
    (htypes' : s'.types = s.types) (hhas : ∀ other, s'.Has other ↔ other = type ∨ s.Has other)
    (hholds : ∀ other k, s'.Holds other k ↔ k = key ∧ other = type ∨ k ≠ key ∧ s.Holds other k)
    (hreadable : ∀ other, s'.Has other → ∃ entities, s'.load other = .ok entities) :
    (s'.record key type).Catalogued ((s'.record key type).EverSince ever) := by
  have hentries : s'.index = .ok index := hindex'.trans hindex
  have hlist : s'.types = .ok types := htypes'.trans htypes
  have hascending := h.ascending types htypes
  -- recording leaves the documents alone: it has those of `s'` and holds what `s'` holds
  refine ⟨hreadable, fun k other => ?_, fun list hlist' => ?_, fun other => ?_, ?_⟩
  · show (s'.record key type).Maps k other ↔ s'.Holds other k
    rw [maps_record hentries, maps_iff hentries, ← maps_iff hindex, hholds, h.mapped]
  · obtain rfl := Except.ok.inj ((types_record hlist key type).symm.trans hlist')
    exact (Catalog.ascending_recorded hascending type).1
  · show (s'.record key type).Lists other ↔ s'.Has other
    rw [lists_record hlist hascending, lists_iff hlist, ← lists_iff htypes, hhas, h.listed]
  · refine h.held_since (fun other hold => (hhas other).2 (.inr hold)) fun other hnow => ?_
    rcases (hhas other).1 hnow with rfl | hold
    · exact .inr ⟨key, (hholds other key).2 (.inl ⟨rfl, rfl⟩)⟩
    · exact .inl hold

/-- An identity has gone from its document, and the index says so. -/
theorem erase (h : s.Catalogued ever) {index : Entries String} (hindex : s.index = .ok index)
    (hkeys : (Entries.keys index).Nodup) (htypes : s'.types = s.types)
    (hhas : ∀ other, s'.Has other ↔ s.Has other)
    (hholds : ∀ other k, s'.Holds other k ↔ k ≠ key ∧ s.Holds other k)
    (hreadable : ∀ other, s'.Has other → ∃ entities, s'.load other = .ok entities) :
    (s'.setIndex (index.erase key)).Catalogued ((s'.setIndex (index.erase key)).EverSince ever) := by
  refine ⟨hreadable, fun k other => ?_, fun list hlist => h.ascending list (htypes ▸ hlist),
    fun other => ?_, ?_⟩
  · show (s'.setIndex (index.erase key)).Maps k other ↔ s'.Holds other k
    rw [maps_erase hindex hkeys, hholds, h.mapped]
  · show s'.Lists other ↔ s'.Has other
    rw [Lists, htypes, hhas]
    exact h.listed other
  · exact h.held_since (fun other => (hhas other).2) fun other hnow => .inl ((hhas other).1 hnow)

end Catalogued

end Shelf

/-! ## One call -/

namespace FileTree

/-- Whether no bracket of a file is cut off by the nesting limit of the reader. -/
def withinLimit (tree : FileTree) : Bool :=
  tree.entries.all fun e =>
    match e.2 with
    | .directory => true
    | .file text => (Tree.ofText text).withinLimit

theorem mem_of_lookup {place : Place} {entry : FileEntry} {entries : List (Place × FileEntry)}
    (h : lookup place entries = some entry) : (place, entry) ∈ entries := by
  induction entries with
  | nil => cases h
  | cons e rest ih =>
    obtain ⟨p, e⟩ := e
    rw [lookup] at h
    split at h
    · next hp => rw [hp, Option.some.inj h]; exact List.mem_cons_self ..
    · exact List.mem_cons_of_mem _ (ih h)

theorem withinLimit_of_read (h : tree.withinLimit = true) {path text : String}
    (hread : tree.read path = .ok text) : (Tree.ofText text).withinLimit = true := by
  obtain ⟨place, -, hentry⟩ := resolve_of_read hread
  rw [occupant] at hentry
  split at hentry
  · cases hentry
  · exact List.all_eq_true.1 h _ (mem_of_lookup hentry)

theorem withinLimit_shelf {root : String} (h : tree.withinLimit = true) (c : EntityClass) :
    (tree.shelf root c).WithinLimit := by
  intro type text htext
  simp only [shelf] at htext
  cases hcheck : Naming.checkType type with
  | error f => rw [hcheck] at htext; cases htext
  | ok u =>
    rw [hcheck] at htext
    exact withinLimit_of_read h htext

end FileTree

namespace Engine

/-- The document of a type after a call, when all documents are within the nesting limit. -/
theorem load_of_put {s : Shelf c} {entities : List (Entity c)} (hp : Number.Stable p)
    (hproper : ∀ e ∈ entities, e.Proper p) (hcheck : Naming.checkType type = .ok ())
    (hlimit : (s.put type entities).WithinLimit) :
    (s.put type entities).load type = .ok (entities.map Entity.reread) :=
  Shelf.load_put_of_withinLimit hp hproper hcheck
    (hlimit type (Document.entitiesText entities) (if_pos rfl))

/-- The documents of an entity that moves, the one that it leaves and the one that it comes to, when
    all documents are within the nesting limit. -/
theorem Sound.loads_moved (h : g.Sound p used tree base) (hp : Number.Stable p)
    {type' : String} {entities rest entities' : List (Entity c)} {e : Entity c}
    (hload : (tree.shelf g.root c).load type = .ok entities) (hrest : ∀ x ∈ rest, x ∈ entities)
    (hne : type' ≠ type) (hload' : (tree.shelf g.root c).load type' = .ok entities')
    (he : e.Proper p)
    (hlimit : (((tree.shelf g.root c).put type rest).put type' (entities' ++ [e])).WithinLimit) :
    ((tree.shelf g.root c).put type rest).load type = .ok (rest.map Entity.reread)
      ∧ ((tree.shelf g.root c).put type rest).load type' = .ok entities'
      ∧ (((tree.shelf g.root c).put type rest).put type' (entities' ++ [e])).load type'
        = .ok ((entities' ++ [e]).map Entity.reread) := by
  refine ⟨?_, ?_, ?_⟩
  · refine Shelf.load_put_of_withinLimit hp (fun x hx => h.proper hload x (hrest x hx))
      (Shelf.checkType_of_load hload) (hlimit type _ ?_)
    show (if type = type' then _ else (if type = type then _ else _)) = _
    rw [if_neg hne.symm, if_pos rfl]
  · rw [Shelf.load_put_of_ne _ hne]
    exact hload'
  · exact load_of_put hp (h.proper_append hload' he) (Shelf.checkType_of_load hload') hlimit

/-- A shelf with another document is readable if it was before. -/
theorem readable_put {s : Shelf c} {entities read : List (Entity c)}
    (hreadable : ∀ type, s.Has type → ∃ entities, s.load type = .ok entities)
    (hload : (s.put type entities).load type = .ok read) (other : String)
    (hhas : (s.put type entities).Has other) :
    ∃ entities', (s.put type entities).load other = .ok entities' := by
  by_cases hother : other = type
  · subst hother
    exact ⟨read, hload⟩
  · rw [Shelf.load_put_of_ne _ hother]
    rcases (s.has_put type entities other).1 hhas with he | hold
    · exact absurd he hother
    · exact hreadable other hold

/-- An identity that was found in one document is held by no other. -/
theorem Sound.not_holds_of_located (h : g.Sound p used tree base) {id : Id} {key type : String}
    {index : Entries String} {entities : List (Entity c)} {kept : Entity c}
    (hlocated : (tree.shelf g.root c).Located id key type index entities kept) {other : String}
    (hother : other ≠ type) : ¬ (tree.shelf g.root c).Holds other key := by
  rintro ⟨entities', hload, e, he, hkey⟩
  exact h.id_ne_of_located hlocated hother hload he hkey

/-- Creating an entity brings index and list of types into line. -/
theorem Sound.catalogued_of_creates (h : g.Sound p used tree base) (hp : Number.Stable p)
    (hcatalogued : (tree.shelf g.root c).Catalogued ever) {stamp : Stamp}
    (hfresh : stamp.unique ∉ used) {body : Body c} {outcome : Outcome (Entity c)}
    (hcreates : g.Creates p tree base stamp body outcome tree')
    (hfiles : ∀ f, outcome = .error f → ¬ f.OfFiles)
    (hlimit : (tree'.shelf g.root c).WithinLimit) :
    (tree'.shelf g.root c).Catalogued ((tree'.shelf g.root c).EverSince ever) := by
  cases hcreates with
  | refused f _ hbecomes =>
    rw [hbecomes.here]
    exact hcatalogued.unchanged
  | unindexed f _ entities s hstorage => exact absurd hstorage (hfiles f rfl)
  | done _ entities s hload hwritable hindex hkept _ hbecomes =>
    rw [hbecomes.here] at hlimit ⊢
    have hread := load_of_put (s := tree.shelf g.root c) hp (h.proper_append hload hkept.proper)
      (Shelf.checkType_of_load hload) hlimit
    obtain ⟨⟨index, hindexed⟩, types, htypes⟩ := (h.ready c).readable hindex
    have hnot : ∀ other, ¬ (tree.shelf g.root c).Holds other (g.keyOf stamp.unique) := by
      rintro other ⟨entities', hload', e, he, hkey⟩
      exact h.id_ne hfresh hload' he hkey
    exact hcatalogued.record hindexed htypes rfl rfl
      (fun other => (tree.shelf g.root c).has_put _ _ other)
      (Shelf.holds_append hload hread ((h.good c).named _ _ hload) hkept.id hnot)
      (readable_put hcatalogued.readable hread)

/-- Editing an entity brings index and list of types into line. -/
theorem Sound.catalogued_of_edits (h : g.Sound p used tree base) (hp : Number.Stable p)
    (hcatalogued : (tree.shelf g.root c).Catalogued ever) {stamp : Stamp} {id : Id}
    {patch : Patch c} {outcome : Outcome (Entity c)}
    (hedits : g.Edits p tree base stamp id patch outcome tree')
    (hfiles : ∀ f, outcome = .error f → ¬ f.OfFiles)
    (hlimit : (tree'.shelf g.root c).WithinLimit) :
    (tree'.shelf g.root c).Catalogued ((tree'.shelf g.root c).EverSince ever) := by
  cases hedits with
  | refused f _ => exact hcatalogued.unchanged
  | unwritten f _ key type index entities kept _ _ hbecomes _ =>
    rw [hbecomes.here]
    exact hcatalogued.unchanged
  | lost f _ key type index entities kept seen hstorage => exact absurd hstorage (hfiles f rfl)
  | changed _ key type index entities kept seen s hlocated _ hkept _ hbecomes =>
    rw [hbecomes.here] at hlimit ⊢
    have hnamed := (h.good c).named type entities hlocated.loaded
    have hread := load_of_put (s := tree.shelf g.root c) hp
      (h.proper_replaceFirst hlocated.loaded hkept.proper)
      (Shelf.checkType_of_load hlocated.loaded) hlimit
    exact hcatalogued.of_same_holds rfl rfl (Shelf.has_put_of_has hlocated.has _)
      (Shelf.holds_replaceFirst hlocated.loaded hread hnamed hkept.id
        ⟨kept, hlocated.mem, hlocated.id_of_named hnamed⟩)
      (readable_put hcatalogued.readable hread)
  | moved _ key type type' index entities entities' kept seen s hlocated hne hload hwritable _ hkept
      _ hbecomes =>
    rw [hbecomes.here] at hlimit ⊢
    have hnamed := (h.good c).named type entities hlocated.loaded
    have hrest := fun e => hlocated.mem_others_iff hnamed (x := e)
    generalize entities.filter (fun e => !e.id.same id) = rest at hrest hlimit ⊢
    -- the document that the entity has left, and the one that it has come to
    obtain ⟨hread, hload', hread'⟩ := h.loads_moved hp hlocated.loaded
      (fun e he => ((hrest e).1 he).1) hne hload hkept.proper hlimit
    have hleft := Shelf.holds_without hlocated.loaded hread hnamed hrest
      fun _ hother => h.not_holds_of_located hlocated hother
    have hcome := Shelf.holds_append hload' hread' ((h.good c).named type' entities' hload)
      hkept.id fun other hold => ((hleft other key).1 hold).1 rfl
    have hindex := (h.ready c).writable_index hlocated.indexed hlocated.typed
    obtain ⟨-, types, htypes⟩ := (h.ready c).readable hindex
    refine hcatalogued.record hlocated.indexed htypes rfl rfl (fun other => ?_)
      (fun other k => ?_)
      (readable_put (readable_put hcatalogued.readable hread) hread')
    · rw [Shelf.has_put, Shelf.has_put_of_has hlocated.has]
    · rw [hcome, hleft]
      -- of the other identities both documents hold what they held
      refine or_congr_right (and_congr_right fun hk => ?_)
      exact and_iff_right hk

/-- Removing an entity brings the index into line. -/
theorem Sound.catalogued_of_deletes (h : g.Sound p used tree base) (hp : Number.Stable p)
    (hcatalogued : (tree.shelf g.root c).Catalogued ever) {id : Id} {outcome : Outcome Unit}
    (hdeletes : g.Deletes tree base c id outcome tree')
    (hlimit : (tree'.shelf g.root c).WithinLimit) :
    (tree'.shelf g.root c).Catalogued ((tree'.shelf g.root c).EverSince ever) := by
  cases hdeletes with
  | refused f => exact hcatalogued.unchanged
  | stale f _ key type index entities hkey hindex htype hload hfind hupdates =>
    -- the index has no stale entries
    obtain ⟨entities', hload', e, he, hid⟩ := (hcatalogued.mapped key type).1 ⟨index, hindex, htype⟩
    obtain rfl := Except.ok.inj (hload.symm.trans hload')
    have hnamed := (h.good c).named type entities hload
    have hfound := hnamed.find_eq_some_iff.2 ⟨he, hid⟩
    rw [Catalog.eq_ofString_of_requireText hkey, hfound] at hfind
    cases hfind
  | done _ key type index entities kept hlocated hbecomes =>
    rw [hbecomes.here] at hlimit ⊢
    have hnamed := (h.good c).named type entities hlocated.loaded
    have hrest := fun e => hlocated.mem_removeFirst_iff hnamed (x := e)
    have hproper : ∀ e ∈ Catalog.removeFirst id entities, e.Proper p :=
      fun e he => h.proper hlocated.loaded e ((hrest e).1 he).1
    have hread := load_of_put (s := tree.shelf g.root c) hp hproper
      (Shelf.checkType_of_load hlocated.loaded) hlimit
    exact hcatalogued.erase hlocated.indexed ((h.ready c).keys index hlocated.indexed) rfl
      (Shelf.has_put_of_has hlocated.has _)
      (Shelf.holds_without hlocated.loaded hread hnamed hrest
        fun _ hother => h.not_holds_of_located hlocated hother)
      (readable_put hcatalogued.readable hread)

/-! ## Runs -/

/-- A call fails because a file was refused or its text is malformed. -/
def FailsOfFiles (g : Engine) (tree : FileTree) (step : Step) : Prop :=
  ∃ f, ((g.answer step.stamp step.call).exec tree).1 = .error f ∧ f.OfFiles

/-- A run in which no call fails for the sake of files, and in which all documents stay within
    the nesting limit. -/
structure Undisturbed (g : Engine) (tree : FileTree) (steps : List Step) : Prop where
  answers : ∀ before step rest, steps = before ++ step :: rest →
    ¬ g.FailsOfFiles (g.after tree before) step
  limits : ∀ before step rest, steps = before ++ step :: rest →
    ∀ c, ((g.after tree (before ++ [step])).shelf g.root c).WithinLimit

/-- Before or after some call of a run the document of a type held an entity. -/
def HasHeld (g : Engine) (tree : FileTree) (steps : List Step) (c : EntityClass) (type : String) :
    Prop :=
  ∃ before rest key, steps = before ++ rest ∧ ((g.after tree before).shelf g.root c).Holds type key

/-- Whether a call is answered without a failure of files, and leaves only files within the nesting
    limit. -/
def undisturbed (g : Engine) (tree : FileTree) (step : Step) : Bool :=
  (match ((g.answer step.stamp step.call).exec tree).1 with
    | .error .io | .error .malformed => false
    | _ => true) && (g.advance tree step).withinLimit

/-- Whether all calls of a run are undisturbed. -/
def runsUndisturbed (g : Engine) : FileTree → List Step → Bool
  | _, [] => true
  | tree, step :: rest => g.undisturbed tree step && g.runsUndisturbed (g.advance tree step) rest

theorem not_failsOfFiles_of_undisturbed {step : Step} (h : g.undisturbed tree step = true) :
    ¬ g.FailsOfFiles tree step := by
  rintro ⟨f, hf, hfiles⟩
  rw [undisturbed, hf] at h
  cases f <;> first | exact hfiles | cases h

theorem undisturbed_of_runs {steps : List Step} (h : g.runsUndisturbed tree steps = true) :
    g.Undisturbed tree steps := by
  induction steps generalizing tree with
  | nil => exact ⟨fun before _ _ heq => absurd heq.symm (by simp),
      fun before _ _ heq => absurd heq.symm (by simp)⟩
  | cons first rest ih =>
    rw [runsUndisturbed, Bool.and_eq_true] at h
    have hrest := ih h.2
    refine ⟨fun before step after heq => ?_, fun before step after heq c => ?_⟩
    · cases before with
      | nil =>
        obtain ⟨rfl, rfl⟩ := List.cons.inj heq
        exact not_failsOfFiles_of_undisturbed h.1
      | cons other before =>
        obtain ⟨rfl, hafter⟩ := List.cons.inj heq
        exact hrest.answers before step after hafter
    · cases before with
      | nil =>
        obtain ⟨rfl, rfl⟩ := List.cons.inj heq
        exact FileTree.withinLimit_shelf (Bool.and_eq_true _ _ ▸ h.1).2 c
      | cons other before =>
        obtain ⟨rfl, hafter⟩ := List.cons.inj heq
        exact hrest.limits before step after hafter c

theorem Undisturbed.before {steps : List Step} {step : Step}
    (h : g.Undisturbed tree (steps ++ [step])) : g.Undisturbed tree steps where
  answers before other rest heq := by
    refine h.answers before other (rest ++ [step]) ?_
    rw [heq, List.append_assoc, List.cons_append]
  limits before other rest heq := by
    refine h.limits before other (rest ++ [step]) ?_
    rw [heq, List.append_assoc, List.cons_append]

/-- The types that have ever held an entity after one more call. -/
theorem hasHeld_append {steps : List Step} {step : Step} (c : EntityClass) (type : String) :
    g.HasHeld tree (steps ++ [step]) c type
      ↔ ((g.after tree (steps ++ [step])).shelf g.root c).EverSince (g.HasHeld tree steps c) type := by
  constructor
  · rintro ⟨before, rest, key, heq, hholds⟩
    rcases List.eq_nil_or_concat rest with rfl | ⟨more, last, rfl⟩
    · rw [List.append_nil] at heq
      exact .inr ⟨key, heq ▸ hholds⟩
    · rw [List.concat_eq_append, ← List.append_assoc] at heq
      exact .inl ⟨before, more, key, (List.append_inj' heq rfl).1, hholds⟩
  · rintro (⟨before, rest, key, heq, hholds⟩ | ⟨key, hholds⟩)
    · exact ⟨before, rest ++ [step], key, by rw [heq, List.append_assoc], hholds⟩
    · exact ⟨steps ++ [step], [], key, by rw [List.append_nil], hholds⟩

/-- A call that does not fail for the sake of files brings index and list of types into line. -/
theorem Sound.catalogued_advance (h : g.Sound p used tree base) (hp : Number.Stable p)
    (huniform : g.Uniform) {step : Step} (haccepts : g.Accepts p step)
    (hfresh : ∀ unique ∈ step.given, unique ∉ used) (hfiles : ¬ g.FailsOfFiles tree step)
    (hlimit : ∀ c, ((g.advance tree step).shelf g.root c).WithinLimit) (c : EntityClass)
    (hcatalogued : (tree.shelf g.root c).Catalogued ever) :
    ((g.advance tree step).shelf g.root c).Catalogued
      (((g.advance tree step).shelf g.root c).EverSince ever) := by
  have hanswers := h.answers huniform haccepts
  have hfiles' : ∀ f, ((g.answer step.stamp step.call).exec tree).1 = .error f → ¬ f.OfFiles :=
    fun f hf hstorage => hfiles ⟨f, hf, hstorage⟩
  generalize g.advance tree step = tree' at hanswers hlimit ⊢
  generalize ((g.answer step.stamp step.call).exec tree).1 = outcome at hanswers hfiles'
  -- a change of the other class does not touch this shelf
  have hsame : ∀ tree' : FileTree, tree'.shelf g.root c = tree.shelf g.root c →
      (tree'.shelf g.root c).Catalogued ((tree'.shelf g.root c).EverSince ever) := by
    intro tree' hshelf
    rw [hshelf]
    exact hcatalogued.unchanged
  obtain ⟨stamp, call⟩ := step
  cases hanswers with
  | got c' id => exact hcatalogued.unchanged
  | searched c' s => exact hcatalogued.unchanged
  | listed c' => exact hcatalogued.unchanged
  | @created c' _ _ _ hcreates =>
    by_cases hclass : c = c'
    · subst hclass
      exact h.catalogued_of_creates hp hcatalogued (hfresh _ (List.mem_singleton.2 rfl)) hcreates
        hfiles' (hlimit c)
    · exact hsame tree' (hcreates.other_class hclass)
  | @edited c' _ _ _ _ hedits =>
    by_cases hclass : c = c'
    · subst hclass
      exact h.catalogued_of_edits hp hcatalogued hedits hfiles' (hlimit c)
    · exact hsame tree' (hedits.other_class hclass)
  | @removed c' _ _ _ hdeletes =>
    by_cases hclass : c = c'
    · subst hclass
      exact h.catalogued_of_deletes hp hcatalogued hdeletes (hlimit c)
    · exact hsame tree' (hdeletes.other_class hclass)

/-- An empty root is catalogued. -/
theorem catalogued_of_bare (hbare : tree.Bare g.root base) (c : EntityClass) :
    (tree.shelf g.root c).Catalogued (g.HasHeld tree [] c) where
  readable type hhas := absurd hhas (hbare.not_has type)
  mapped key type := by
    constructor
    · rintro ⟨index, hindex, hget⟩
      rw [hbare.index hindex] at hget
      cases hget
    · exact fun hholds => absurd hholds.has (hbare.not_has type)
  ascending types htypes := by
    rw [hbare.types htypes]
    exact .nil
  listed type := by
    constructor
    · rintro ⟨types, htypes, hmem⟩
      rw [hbare.types htypes] at hmem
      cases hmem
    · exact fun hhas => absurd hhas (hbare.not_has type)
  held type := by
    constructor
    · exact fun hhas => absurd hhas (hbare.not_has type)
    · rintro ⟨before, rest, key, heq, hholds⟩
      obtain rfl : before = [] := (List.append_eq_nil_iff.1 heq.symm).1
      exact absurd hholds.has (hbare.not_has type)

theorem catalogued_after (hbare : tree.Bare g.root base) (hp : Number.Stable p)
    (huniform : g.Uniform) {steps : List Step} (hallows : g.Allows p steps)
    (hundisturbed : g.Undisturbed tree steps) (c : EntityClass) :
    ((g.after tree steps).shelf g.root c).Catalogued (g.HasHeld tree steps c) := by
  induction steps using List.reverseRecOn with
  | nil => exact catalogued_of_bare hbare c
  | append_singleton steps step ih =>
    have hsound := sound_after hbare hp huniform hallows.before
    have hlimits := hundisturbed.limits steps step [] rfl
    have hanswers := hundisturbed.answers steps step [] rfl
    have hheld : g.HasHeld tree (steps ++ [step]) c
        = ((g.after tree (steps ++ [step])).shelf g.root c).EverSince (g.HasHeld tree steps c) :=
      funext fun type => propext (hasHeld_append c type)
    rw [hheld]
    rw [after_append] at hlimits ⊢
    exact hsound.catalogued_advance hp huniform (hallows.accepted step (by simp))
      (fun unique hgiven => hallows.fresh hgiven) hanswers hlimits c
      (ih hallows.before hundisturbed.before)

end Engine

/-! ## The representation -/

/-- How the entities of a class are represented: under their types, under distinct identities
    that are texts, and with an index and a list of types that agree with the documents. -/
structure Shelf.Represents (s : Shelf c) (ever : String → Prop) : Prop where
  typed : ∀ type entities, s.load type = .ok entities →
    ∀ e ∈ entities, e.type = type ∧ ∃ key, e.id = .ofString key
  distinct : ∀ type entities, s.load type = .ok entities → (entities.map Entity.id).Nodup
  apart : ∀ type type' entities entities', s.load type = .ok entities →
    s.load type' = .ok entities' → type ≠ type' → ∀ e ∈ entities, ∀ e' ∈ entities', e.id ≠ e'.id
  catalogued : s.Catalogued ever

/-- A graph without raw texts is represented so after every run that starts from an empty root
    and in which nothing fails for the sake of files. -/
theorem Engine.represents_after (hbare : tree.Bare g.root base) (hrules : g.rules = [])
    {steps : List Step} (hallows : g.Allows Number.InRange steps)
    (hundisturbed : g.Undisturbed tree steps) (c : EntityClass) :
    ((g.after tree steps).shelf g.root c).Represents (g.HasHeld tree steps c) := by
  have huniform : g.Uniform := uniform_of_length (by rw [hrules]; exact Nat.zero_le 1)
  have hsound := sound_after hbare Number.stable_inRange huniform hallows
  have hgood := hsound.good c
  refine ⟨fun type entities hload e he => ?_, fun type entities hload => ?_, hgood.apart,
    catalogued_after hbare Number.stable_inRange huniform hallows hundisturbed c⟩
  · obtain ⟨unique, -, hkept⟩ := hgood.all type entities hload e he
    exact ⟨hkept.type, _, hkept.id⟩
  · exact (hgood.named type entities hload).distinct

/-- A run in which a node moves to another type, and another call fails. -/
def Engine.moveRun : List Step :=
  [⟨⟨"n", 0⟩, .create .node (.node "A" [])⟩,
    ⟨⟨"x", 1⟩, .edit .node (.ofString "n") ⟨some "B", none, ()⟩⟩,
    ⟨⟨"y", 2⟩, .remove .relationship (.ofString "r")⟩]

theorem Engine.allows_moveRun : (Engine.sample []).Allows p moveRun where
  distinct := by decide
  slashless h := absurd rfl h
  accepted step hstep := by
    simp only [moveRun, List.mem_cons, List.not_mem_nil, or_false] at hstep
    rcases hstep with rfl | rfl | rfl
    · exact ⟨by decide, ⟨⟨List.nodup_nil, trivial⟩, trivial⟩, fun _ _ => rfl⟩
    · exact ⟨by decide, ⟨nofun, trivial⟩, nofun⟩
    · trivial

theorem Engine.undisturbed_moveRun : (Engine.sample []).Undisturbed .sample moveRun :=
  undisturbed_of_runs (by decide +kernel)

theorem Engine.represents_after_moveRun :
    FileTree.sample.Bare "/g" ["g"] ∧ (Engine.sample []).Allows Number.InRange moveRun
      ∧ (Engine.sample []).Undisturbed .sample moveRun
      ∧ (((Engine.sample []).after .sample moveRun).shelf "/g" .node).Represents
        ((Engine.sample []).HasHeld .sample moveRun .node) :=
  ⟨FileTree.bare_sample, allows_moveRun, undisturbed_moveRun,
    represents_after FileTree.bare_sample rfl allows_moveRun undisturbed_moveRun .node⟩

end PropertyGraph
