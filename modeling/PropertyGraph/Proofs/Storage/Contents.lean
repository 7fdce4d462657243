/-
  PropertyGraph.Proofs.Storage.Contents

  The table of a graph in documents.  As long as index and documents agree, a lookup finds an
  entity under a key just when some document contains it, and so the table is what the documents
  contain.  A call that does not fail for the sake of files is followed by the table as its reply
  says: the entity of the call is written, and the others of its document are read back.
-/
import PropertyGraph.Proofs.Storage.Representation
import PropertyGraph.Proofs.Storage.Searching
import PropertyGraph.Proofs.Table

namespace PropertyGraph

open Catalog (Named)
open Engine (Step)

variable {c : EntityClass} {g : Engine} {p : Number → Prop} {tree tree' : FileTree}
  {base : Place} {key type : String} {used : List String} {ever : String → Prop}

/-! ## What documents contain -/

namespace Shelf

variable {P : String → Entity c → Prop} {s s' s'' : Shelf c} {entities es : List (Entity c)}
  {e x : Entity c}

/-- Some document contains an entity under a key. -/
def Contains (s : Shelf c) (key : String) (e : Entity c) : Prop :=
  ∃ type entities, s.load type = .ok entities ∧ e ∈ entities ∧ e.id = .ofString key

/-- The entity that a lookup finds under a key. -/
def lookup (s : Shelf c) (key : String) : Option (Entity c) := (s.get (.ofString key)).toOption.join

theorem get_of_lookup (h : s.lookup key = some e) : s.get (.ofString key) = .ok (some e) := by
  rw [lookup] at h
  cases hget : s.get (.ofString key) with
  | error f => rw [hget] at h; cases h
  | ok found =>
    rw [hget] at h
    have hfound : found = some e := h
    rw [hfound]

/-- A lookup that comes to an end was one by a key. -/
theorem lookup_of_get {id : Id} {found : Option (Entity c)} (h : s.get id = .ok found) :
    ∃ key, id = .ofString key ∧ s.lookup key = found := by
  cases hkey : id.requireText with
  | error f => rw [get, hkey] at h; cases h
  | ok key =>
    obtain rfl := Catalog.eq_ofString_of_requireText hkey
    exact ⟨key, rfl, by rw [lookup, h]; rfl⟩

/-- A lookup finds what the documents contain, and nothing else. -/
theorem lookup_eq_some_iff (hgood : s.Good P) (hcatalogued : s.Catalogued ever) :
    s.lookup key = some e ↔ s.Contains key e := by
  constructor
  · intro hlookup
    obtain ⟨key', type, index, entities, hlocated⟩ := located_of_get (get_of_lookup hlookup)
    have hkey : key' = key := Catalog.ofString_inj hlocated.id_eq.symm
    subst hkey
    exact ⟨type, entities, hlocated.loaded, hlocated.mem,
      hlocated.id_of_named (hgood.named type entities hlocated.loaded)⟩
  · rintro ⟨type, entities, hload, hmem, hid⟩
    obtain ⟨index, hindex, htype⟩ :=
      (hcatalogued.mapped key type).2 ⟨entities, hload, e, hmem, hid⟩
    have hlocated : s.Located (.ofString key) key type index entities e :=
      ⟨rfl, hindex, htype, hload,
        (hgood.named type entities hload).find_eq_some_iff.2 ⟨hmem, hid⟩⟩
    rw [lookup, hlocated.get_eq]
    rfl

theorem lookup_eq_none (hgood : s.Good P) (hcatalogued : s.Catalogued ever)
    (h : ∀ e, ¬ s.Contains key e) : s.lookup key = none := by
  cases hlookup : s.lookup key with
  | none => rfl
  | some e => exact absurd ((lookup_eq_some_iff hgood hcatalogued).1 hlookup) (h e)

/-! ### Contents that stay -/

/-- Between two shelves the entities under other keys stay, but for being read back. -/
structure Retains (s s' : Shelf c) (key : String) : Prop where
  stays : ∀ k x, k ≠ key → s.Contains k x → ∃ x', x.Rereads x' ∧ s'.Contains k x'
  stayed : ∀ k x', k ≠ key → s'.Contains k x' → ∃ x, x.Rereads x' ∧ s.Contains k x

theorem Retains.trans (h : s.Retains s' key) (h' : s'.Retains s'' key) : s.Retains s'' key where
  stays k x hk hx := by
    obtain ⟨x', hfirst, hx'⟩ := h.stays k x hk hx
    obtain ⟨x'', hsecond, hx''⟩ := h'.stays k x' hk hx'
    exact ⟨x'', hfirst.trans hsecond, hx''⟩
  stayed k x'' hk hx'' := by
    obtain ⟨x', hsecond, hx'⟩ := h'.stayed k x'' hk hx''
    obtain ⟨x, hfirst, hx⟩ := h.stayed k x' hk hx'
    exact ⟨x, hfirst.trans hsecond, hx⟩

/-- A lookup under another key finds the same entity, but for being read back. -/
theorem Retains.lookup (h : s.Retains s' key) (hgood : s.Good P) (hcatalogued : s.Catalogued ever)
    {Q : String → Entity c → Prop} {ever' : String → Prop} (hgood' : s'.Good Q)
    (hcatalogued' : s'.Catalogued ever') {k : String} (hk : k ≠ key) :
    Option.Rel Entity.Rereads (s.lookup k) (s'.lookup k) := by
  cases hlookup : s.lookup k with
  | some x =>
    obtain ⟨x', hrereads, hx'⟩ :=
      h.stays k x hk ((lookup_eq_some_iff hgood hcatalogued).1 hlookup)
    rw [(lookup_eq_some_iff hgood' hcatalogued').2 hx']
    exact .some hrereads
  | none =>
    have hnone : s'.lookup k = none := by
      refine lookup_eq_none hgood' hcatalogued' fun x' hx' => ?_
      obtain ⟨x, -, hx⟩ := h.stayed k x' hk hx'
      rw [(lookup_eq_some_iff hgood hcatalogued).2 hx] at hlookup
      cases hlookup
    rw [hnone]
    exact .none

/-! ### Contents that are written -/

section Put

variable (hload : s.load type = .ok entities)
  (hread : (s.put type es).load type = .ok (es.map Entity.reread))

include hread in
/-- What was written is contained as it is read back. -/
theorem contains_put (he : e ∈ es) (hid : e.id = .ofString key) :
    (s.put type es).Contains key e.reread :=
  ⟨type, _, hread, List.mem_map_of_mem he, Entity.Rereads.id (.step .refl) hid⟩

include hload hread in
/-- A document with the same entities under other keys retains them, and so do all others. -/
theorem retains_put (htexts : ∀ e ∈ es, ∃ k, e.id = .ofString k)
    (hmem : ∀ e : Entity c, e.id ≠ .ofString key → (e ∈ es ↔ e ∈ entities)) :
    s.Retains (s.put type es) key := by
  have hne : ∀ {k : String} {x : Entity c}, k ≠ key → x.id = .ofString k → x.id ≠ .ofString key := by
    intro k x hk hid hkey
    exact hk (Catalog.ofString_inj (hid.symm.trans hkey))
  constructor
  · rintro k x hk ⟨other, loaded, hloaded, hx, hid⟩
    by_cases hother : other = type
    · subst hother
      obtain rfl : entities = loaded := Except.ok.inj (hload.symm.trans hloaded)
      exact ⟨x.reread, .step .refl, contains_put hread ((hmem x (hne hk hid)).2 hx) hid⟩
    · refine ⟨x, .refl, other, loaded, ?_, hx, hid⟩
      rw [load_put_of_ne _ hother]
      exact hloaded
  · rintro k x' hk ⟨other, loaded, hloaded, hx', hid⟩
    by_cases hother : other = type
    · subst hother
      obtain rfl := Except.ok.inj (hread.symm.trans hloaded)
      obtain ⟨x, hx, rfl⟩ := List.mem_map.1 hx'
      -- its identity is a text, and so it had this key when it was written
      obtain ⟨k', hk'⟩ := htexts x hx
      have hsame : k' = k :=
        Catalog.ofString_inj ((Entity.Rereads.id (.step .refl) hk').symm.trans hid)
      rw [hsame] at hk'
      exact ⟨x, .step .refl, other, entities, hload, (hmem x (hne hk hk')).1 hx, hk'⟩
    · rw [load_put_of_ne _ hother] at hloaded
      exact ⟨x', .refl, other, loaded, hloaded, hx', hid⟩

include hload hread in
/-- A document without the entities of a key retains the others. -/
theorem retains_without (hnamed : Catalog.Named entities)
    (hrest : ∀ x, x ∈ es ↔ x ∈ entities ∧ x.id ≠ .ofString key) :
    s.Retains (s.put type es) key := by
  refine retains_put hload hread (fun x hx => hnamed.texts x ((hrest x).1 hx).1) fun x hne => ?_
  rw [hrest, and_iff_left hne]

end Put

section Written

variable (hload : s.load type = .ok entities) (hid : e.id = .ofString key)

include hload hid

/-- A document with another entity at the end retains those of other keys. -/
theorem retains_append (hnamed : Catalog.Named (entities ++ [e]))
    (hread : (s.put type (entities ++ [e])).load type = .ok ((entities ++ [e]).map Entity.reread)) :
    s.Retains (s.put type (entities ++ [e])) key := by
  refine retains_put hload hread hnamed.texts fun x hne => ?_
  rw [List.mem_append, List.mem_singleton]
  refine or_iff_left ?_
  rintro rfl
  exact hne hid

/-- A document with an entity in another's place retains those of other keys. -/
theorem retains_replaceFirst (hnamed : Catalog.Named entities)
    (hthere : ∃ x ∈ entities, x.id = .ofString key)
    (hread : (s.put type (Catalog.replaceFirst e entities)).load type
      = .ok ((Catalog.replaceFirst e entities).map Entity.reread)) :
    s.Retains (s.put type (Catalog.replaceFirst e entities)) key := by
  refine retains_put hload hread (hnamed.replaceFirst hid hthere).texts fun x hne => ?_
  rw [Catalog.mem_replaceFirst_iff hnamed hid hthere, and_iff_left hne]
  refine or_iff_right ?_
  rintro rfl
  exact hne hid

end Written

/-- Index and list of types contain nothing. -/
theorem Retains.record (h : s.Retains s' key) (k type : String) :
    s.Retains (s'.record k type) key := ⟨h.stays, h.stayed⟩

theorem Retains.setIndex (h : s.Retains s' key) (index : Entries String) :
    s.Retains (s'.setIndex index) key := ⟨h.stays, h.stayed⟩

end Shelf

/-! ## One call -/

namespace Engine

/-- What a graph in documents holds. -/
def table (g : Engine) (tree : FileTree) : Table := fun c key => (tree.shelf g.root c).lookup key

/-- A graph in which index and documents agree. -/
structure Consistent (g : Engine) (p : Number → Prop) (used : List String) (tree : FileTree)
    (base : Place) : Prop where
  sound : g.Sound p used tree base
  catalogued : ∀ c, ∃ ever, (tree.shelf g.root c).Catalogued ever

namespace Consistent

variable {stamp : Stamp} {e : Entity c}

theorem table_eq_some_iff (h : g.Consistent p used tree base) :
    g.table tree c key = some e ↔ (tree.shelf g.root c).Contains key e := by
  obtain ⟨ever, hcatalogued⟩ := h.catalogued c
  exact Shelf.lookup_eq_some_iff (h.sound.good c) hcatalogued

/-- An entity of the table was given an identity and is proper. -/
theorem of_table (h : g.Consistent p used tree base) (he : g.table tree c key = some e) :
    e.id = .ofString key ∧ e.Proper p ∧ ∃ unique ∈ used, key = g.keyOf unique := by
  obtain ⟨type, entities, hload, hmem, hid⟩ := h.table_eq_some_iff.1 he
  obtain ⟨unique, hunique, hkept⟩ := (h.sound.good c).all type entities hload e hmem
  exact ⟨hid, hkept.proper, unique, hunique, Catalog.ofString_inj (hid.symm.trans hkept.id)⟩

/-- A key made from an unused text has no entry. -/
theorem table_fresh (h : g.Consistent p used tree base) {unique : String}
    (hfresh : unique ∉ used) (c : EntityClass) : g.table tree c (g.keyOf unique) = none := by
  cases hget : g.table tree c (g.keyOf unique) with
  | none => rfl
  | some e =>
    obtain ⟨-, -, other, hother, hkey⟩ := h.of_table hget
    rw [keyOf_inj hkey] at hfresh
    exact absurd hother hfresh

/-- What has been located is the entry of its key. -/
theorem table_of_located (h : g.Consistent p used tree base) {id : Id} {index : Entries String}
    {entities : List (Entity c)}
    (hlocated : (tree.shelf g.root c).Located id key type index entities e) :
    g.table tree c key = some e :=
  h.table_eq_some_iff.2 ⟨type, entities, hlocated.loaded, hlocated.mem,
    hlocated.id_of_named ((h.sound.good c).named type entities hlocated.loaded)⟩

/-- Where shelves retain what is under other keys, the table spares it. -/
theorem spares (h : g.Consistent p used tree base) {used' : List String}
    (h' : g.Consistent p used' tree' base)
    (hretains : (tree.shelf g.root c).Retains (tree'.shelf g.root c) key)
    (hother : ∀ c', c' ≠ c → tree'.shelf g.root c' = tree.shelf g.root c') :
    (g.table tree).Spares (g.table tree') c key := by
  intro c' key' hne
  by_cases hclass : c' = c
  · subst hclass
    obtain ⟨ever, hcatalogued⟩ := h.catalogued c'
    obtain ⟨ever', hcatalogued'⟩ := h'.catalogued c'
    exact hretains.lookup (h.sound.good c') hcatalogued (h'.sound.good c') hcatalogued' (hne rfl)
  · rw [table, table, hother c' hclass]
    cases (tree.shelf g.root c').lookup key' with
    | none => exact .none
    | some e => exact .some .refl

/-- A call that changes no shelf leaves the table. -/
theorem table_congr (h : ∀ c, tree'.shelf g.root c = tree.shelf g.root c) :
    g.table tree' = g.table tree := by
  funext c key
  rw [table, table, h c]

/-- A call after which the shelf of its class is as it was leaves the table. -/
theorem table_of_becomes (hbecomes : tree.Becomes tree' g.root base key (tree.shelf g.root c)) :
    g.table tree' = g.table tree := by
  refine table_congr fun c' => ?_
  by_cases hclass : c' = c
  · rw [hclass, hbecomes.here]
  · exact hbecomes.other c' hclass

/-- The index leads to no type whose document lacks the entity. -/
theorem not_stale (h : g.Consistent p used tree base) {id : Id} {index : Entries String}
    {entities : List (Entity c)} (hkey : id.requireText = .ok key)
    (hindex : (tree.shelf g.root c).index = .ok index) (htype : Entries.get? key index = some type)
    (hload : (tree.shelf g.root c).load type = .ok entities)
    (hfind : Catalog.find id entities = none) : False := by
  obtain ⟨ever, hcatalogued⟩ := h.catalogued c
  obtain ⟨loaded, hloaded, e, he, hid⟩ := (hcatalogued.mapped key type).1 ⟨index, hindex, htype⟩
  obtain rfl := Except.ok.inj (hload.symm.trans hloaded)
  have hfound := ((h.sound.good c).named type entities hload).find_eq_some_iff.2 ⟨he, hid⟩
  rw [Catalog.eq_ofString_of_requireText hkey, hfound] at hfind
  cases hfind

end Consistent

/-! ### Without rules -/

section Unruled

variable (hrules : g.rules = [])

include hrules

theorem view_eq_pure (e : Entity c) : g.view e = pure e := by
  cases c with
  | relationship => rfl
  | node => rw [view, rulesFor_of_rules hrules]; rfl

theorem stored_eq_pure (e : Entity c) : g.stored e = pure e := by
  cases c with
  | relationship => rfl
  | node => rw [stored, rulesFor_of_rules hrules]; rfl

theorem discard_eq_pure (type : String) (e : Entity c) : g.discard type e = pure () := by
  cases c with
  | relationship => rfl
  | node => rw [discard, rulesFor_of_rules hrules]; rfl

theorem view_of_rules (e : Entity c) (tree : FileTree) :
    (g.view e).exec tree = (.ok e, tree) := by
  rw [view_eq_pure hrules]
  rfl

theorem stored_of_rules (e : Entity c) (tree : FileTree) :
    (g.stored e).exec tree = (.ok e, tree) := by
  rw [stored_eq_pure hrules]
  rfl

theorem discard_of_rules (type : String) (e : Entity c) (tree : FileTree) :
    (g.discard type e).exec tree = (.ok (), tree) := by
  rw [discard_eq_pure hrules]
  rfl

/-- An entity is its own stored form. -/
theorem StoredAs.eq_of_rules {e s : Entity c} (h : g.StoredAs p tree base key e s) : s = e := by
  have hseen := h.seen (by rw [hrules]; exact Nat.zero_le 1)
  rw [view_of_rules hrules] at hseen
  exact Except.ok.inj (Prod.mk.inj hseen).1

/-- Looking at entities that are all their own views is filtering them. -/
theorem exec_keep_of_rules (m : CompiledSearcher c) (entities : List (Entity c))
    (tree : FileTree) : (g.keep m entities).exec tree = (m.filter entities, tree) := by
  refine exec_keep ?_
  induction entities with
  | nil => exact .nil
  | cons e rest ih => exact .cons (view_of_rules hrules e tree) ih

theorem exec_get_of_rules (c : EntityClass) (id : Id) (tree : FileTree) :
    (g.get c id).exec tree = ((tree.shelf g.root c).get id, tree) := by
  rw [get, FileTask.exec_bind, Catalog.exec_get]
  cases (tree.shelf g.root c).get id with
  | error f => rfl
  | ok found =>
    cases found with
    | none => rfl
    | some e => exact FileTask.exec_bind_of_ok (view_of_rules hrules e tree)

/-- What a scan finds stands in documents. -/
theorem mem_of_exec_scan {documents : List (String × Searcher)} {found : List (Entity c)}
    (h : ((g.scan c documents).exec tree).1 = .ok found) :
    ∀ e ∈ found, ∃ type entities, (tree.shelf g.root c).load type = .ok entities
      ∧ e ∈ entities := by
  induction documents generalizing found with
  | nil =>
    obtain rfl : [] = found := Except.ok.inj h
    exact fun e he => absurd he List.not_mem_nil
  | cons document rest ih =>
    obtain ⟨type, residual⟩ := document
    rw [scan, FileTask.exec_bind, FileTask.exec_ofOutcome] at h
    -- a scan that succeeds has compiled the residual, loaded the document and filtered it
    cases hm : residual.compile (g.evaluators.forClass c) with
    | error f => rw [hm] at h; cases h
    | ok m =>
      rw [hm] at h
      simp only at h
      rw [FileTask.exec_bind, Catalog.exec_load] at h
      cases hload : (tree.shelf g.root c).load type with
      | error f => rw [hload] at h; cases h
      | ok entities =>
        rw [hload] at h
        simp only at h
        rw [FileTask.exec_bind, exec_keep_of_rules hrules] at h
        cases hkept : m.filter entities with
        | error f => rw [hkept] at h; cases h
        | ok kept =>
          rw [hkept] at h
          simp only at h
          rw [FileTask.exec_bind] at h
          rcases hmore : (g.scan c rest).exec tree with ⟨outcome, tree'⟩
          rw [hmore] at h
          cases outcome with
          | error f => cases h
          | ok more =>
            obtain rfl : kept ++ more = found := Except.ok.inj h
            intro e he
            rcases List.mem_append.1 he with hhere | hrest
            · exact ⟨type, entities, hload,
                (CompiledSearcher.filter_sublist hkept).subset hhere⟩
            · exact ih (by rw [hmore]) e hrest

/-- What a search finds stands in documents. -/
theorem mem_of_exec_search {s : Searcher} {found : List (Entity c)}
    (h : ((g.search c s).exec tree).1 = .ok found) :
    ∀ e ∈ found, ∃ type entities, (tree.shelf g.root c).load type = .ok entities
      ∧ e ∈ entities := by
  rw [search, FileTask.exec_bind, FileTask.exec_ofOutcome] at h
  cases hpaths : s.checkPaths with
  | error f => rw [hpaths] at h; cases h
  | ok u =>
    rw [hpaths] at h
    simp only at h
    rw [FileTask.exec_bind, FileTask.exec_ofOutcome] at h
    cases hplan : s.plan with
    | error f => rw [hplan] at h; cases h
    | ok plan =>
      rw [hplan] at h
      simp only at h
      split at h
      · obtain rfl : [] = found := Except.ok.inj h
        exact fun e he => absurd he List.not_mem_nil
      · rw [FileTask.exec_bind, Catalog.exec_types] at h
        cases htypes : (tree.shelf g.root c).types with
        | error f => rw [htypes] at h; cases h
        | ok known =>
          rw [htypes] at h
          exact mem_of_exec_scan hrules h

/-- An edit that succeeds returns the changed form of the entity that it has located. -/
theorem eq_of_exec_edit {stamp : Stamp} {id : Id} {patch : Patch c} {v : Entity c}
    (h : (g.edit stamp id patch).exec tree = (.ok v, tree')) :
    ∃ old kept, (tree.shelf g.root c).locate id = .ok (old, kept)
      ∧ v = patch.apply kept stamp.time := by
  rw [edit] at h
  obtain ⟨⟨old, kept⟩, tree₁, hlocate, h⟩ := FileTask.exec_bind_eq_ok h
  rw [Catalog.exec_locate] at hlocate
  obtain ⟨hfound, rfl⟩ := Prod.mk.inj hlocate
  obtain ⟨seen, tree₁, hview, h⟩ := FileTask.exec_bind_eq_ok h
  rw [view_of_rules hrules] at hview
  obtain ⟨hseen, rfl⟩ := Prod.mk.inj hview
  obtain rfl := Except.ok.inj hseen
  refine ⟨old, kept, hfound, ?_⟩
  -- all that is left only writes
  obtain ⟨u, tree₁, -, h⟩ := FileTask.exec_bind_eq_ok h
  obtain ⟨u, tree₁, -, h⟩ := FileTask.exec_bind_eq_ok h
  obtain ⟨s, tree₁, -, h⟩ := FileTask.exec_bind_eq_ok h
  obtain ⟨u, tree₁, -, h⟩ := FileTask.exec_bind_eq_ok h
  exact (Except.ok.inj (Prod.mk.inj h).1).symm

end Unruled

/-! ### The table after a call -/

namespace Consistent

variable {stamp : Stamp} {e : Entity c} {used' : List String}

/-- An edit that succeeds has changed the entry of its key. -/
theorem of_exec_edit (h : g.Consistent p used tree base) (hrules : g.rules = []) {patch : Patch c}
    {v : Entity c} (hreply : (g.edit stamp (.ofString key) patch).exec tree = (.ok v, tree')) :
    ∃ old, g.table tree c key = some old ∧ v = patch.apply old stamp.time := by
  obtain ⟨type, kept, hlocate, hv⟩ := eq_of_exec_edit hrules hreply
  obtain ⟨key', index, entities, hlocated⟩ := Shelf.located_of_locate hlocate
  have hkey : key' = key := Catalog.ofString_inj hlocated.id_eq.symm
  subst hkey
  exact ⟨kept, h.table_of_located hlocated, hv⟩

section Changes

variable (h : g.Consistent p used tree base) (hp : Number.Stable p)
  (h' : g.Consistent p used' tree' base)

include h hp h'

/-- What has been created stands in the table in its stored form. -/
theorem puts_of_creates (hfresh : stamp.unique ∉ used) {body : Body c} {v : Entity c}
    (hcreates : g.Creates p tree base stamp body (.ok v) tree')
    (hlimit : (tree'.shelf g.root c).WithinLimit) :
    v = g.created stamp body ∧ ∃ s, s.Proper p
      ∧ g.StoredAs p tree' base (g.keyOf stamp.unique) v s
      ∧ (g.table tree).Puts (g.table tree') c (g.keyOf stamp.unique) s := by
  have hother := fun c' (hne : c' ≠ c) => hcreates.other_class hne
  cases hcreates with
  | done _ entities s hload _ _ hkept hform hbecomes =>
    rw [hbecomes.here] at hlimit
    have hread := load_of_put (s := tree.shelf g.root c) hp
      (h.sound.proper_append hload hkept.proper) (Shelf.checkType_of_load hload) hlimit
    have hnamed := ((h.sound.good c).named body.type entities hload).append hkept.id
      fun e he => h.sound.id_ne hfresh hload he
    have hretains : (tree.shelf g.root c).Retains (tree'.shelf g.root c)
        (g.keyOf stamp.unique) := by
      rw [hbecomes.here]
      exact (Shelf.retains_append hload hkept.id hnamed hread).record _ _
    refine ⟨rfl, s, hkept.proper, hform, h.spares h' hretains hother, ?_⟩
    rw [h'.table_eq_some_iff, hbecomes.here]
    exact Shelf.contains_put hread (List.mem_append_right _ (List.mem_singleton.2 rfl)) hkept.id

/-- What has been changed stands in the table in its stored form. -/
theorem puts_of_edits {id : Id} {patch : Patch c} {v : Entity c}
    (hedits : g.Edits p tree base stamp id patch (.ok v) tree')
    (hlimit : (tree'.shelf g.root c).WithinLimit) :
    ∃ key kept s, id = .ofString key ∧ g.table tree c key = some kept ∧ s.Proper p
      ∧ g.StoredAs p tree' base key v s ∧ (g.table tree).Puts (g.table tree') c key s := by
  have hother := fun c' (hne : c' ≠ c) => hedits.other_class hne
  cases hedits with
  | changed _ key type index entities kept seen s hlocated _ hkept hform hbecomes =>
    rw [hbecomes.here] at hlimit
    have hnamed := (h.sound.good c).named type entities hlocated.loaded
    have hread := load_of_put (s := tree.shelf g.root c) hp
      (h.sound.proper_replaceFirst hlocated.loaded hkept.proper)
      (Shelf.checkType_of_load hlocated.loaded) hlimit
    have hthere : ∃ e ∈ entities, e.id = .ofString key :=
      ⟨kept, hlocated.mem, hlocated.id_of_named hnamed⟩
    -- the other entities of the document stand after it or before it as they did
    have hretains : (tree.shelf g.root c).Retains (tree'.shelf g.root c) key := by
      rw [hbecomes.here]
      exact Shelf.retains_replaceFirst hlocated.loaded hkept.id hnamed hthere hread
    refine ⟨key, kept, s, hlocated.id_eq, h.table_of_located hlocated, hkept.proper, hform,
      h.spares h' hretains hother, ?_⟩
    rw [h'.table_eq_some_iff, hbecomes.here]
    exact Shelf.contains_put hread
      ((Catalog.mem_replaceFirst_iff hnamed hkept.id hthere).2 (.inl rfl)) hkept.id
  | moved _ key type type' index entities entities' kept seen s hlocated hne hload hwritable _ hkept
      hform hbecomes =>
    rw [hbecomes.here] at hlimit
    have hnamed := (h.sound.good c).named type entities hlocated.loaded
    have hrest := fun e => hlocated.mem_others_iff hnamed (x := e)
    -- the old document keeps all others, and the new one has lacked the identity
    generalize entities.filter (fun e => !e.id.same id) = rest at hrest hlimit hbecomes
    obtain ⟨hread, hload', hread'⟩ := h.sound.loads_moved hp hlocated.loaded
      (fun e he => ((hrest e).1 he).1) hne hload hkept.proper hlimit
    have hnamed' := ((h.sound.good c).named type' entities' hload).append hkept.id
      fun e he => h.sound.id_ne_of_located hlocated hne hload he
    have hretains : (tree.shelf g.root c).Retains (tree'.shelf g.root c) key := by
      rw [hbecomes.here]
      exact ((Shelf.retains_without hlocated.loaded hread hnamed hrest).trans
        (Shelf.retains_append hload' hkept.id hnamed' hread')).record _ _
    refine ⟨key, kept, s, hlocated.id_eq, h.table_of_located hlocated, hkept.proper, hform,
      h.spares h' hretains hother, ?_⟩
    rw [h'.table_eq_some_iff, hbecomes.here]
    exact Shelf.contains_put hread' (List.mem_append_right _ (List.mem_singleton.2 rfl)) hkept.id

/-- What has been removed is gone from the table. -/
theorem gone_of_deletes {id : Id} (hdeletes : g.Deletes tree base c id (.ok ()) tree')
    (hlimit : (tree'.shelf g.root c).WithinLimit) :
    ∃ key kept, id = .ofString key ∧ g.table tree c key = some kept
      ∧ (g.table tree).Spares (g.table tree') c key ∧ g.table tree' c key = none := by
  have hother := fun c' (hne : c' ≠ c) => hdeletes.other_class hne
  cases hdeletes with
  | done _ key type index entities kept hlocated hbecomes =>
    rw [hbecomes.here] at hlimit
    have hnamed := (h.sound.good c).named type entities hlocated.loaded
    have hrest := fun e => hlocated.mem_removeFirst_iff hnamed (x := e)
    have hread := load_of_put (s := tree.shelf g.root c) hp
      (fun e he => h.sound.proper hlocated.loaded e ((hrest e).1 he).1)
      (Shelf.checkType_of_load hlocated.loaded) hlimit
    have hretains : (tree.shelf g.root c).Retains (tree'.shelf g.root c) key := by
      rw [hbecomes.here]
      exact (Shelf.retains_without hlocated.loaded hread hnamed hrest).setIndex _
    refine ⟨key, kept, hlocated.id_eq, h.table_of_located hlocated, h.spares h' hretains hother, ?_⟩
    cases hget : g.table tree' c key with
    | none => rfl
    | some e =>
      -- the index would lead to it
      obtain ⟨entry, hfound⟩ : ∃ entry, (tree'.shelf g.root c).get (.ofString key)
        = .ok (some entry) := ⟨e, Shelf.get_of_lookup hget⟩
      obtain ⟨key', type', index', entities', hlocated'⟩ := Shelf.located_of_get hfound
      have hkey : key' = key := Catalog.ofString_inj hlocated'.id_eq.symm
      have hindex := hlocated'.indexed
      rw [hbecomes.here] at hindex
      obtain rfl := Except.ok.inj hindex
      have htyped := hlocated'.typed
      rw [hkey, Entries.get?_erase_self ((h.sound.ready c).keys index hlocated.indexed)] at htyped
      cases htyped

theorem follows_of_creates (hrules : g.rules = []) (hfresh : stamp.unique ∉ used) {body : Body c}
    {outcome : Outcome (Entity c)} (hcreates : g.Creates p tree base stamp body outcome tree')
    (hfiles : ∀ f, outcome = .error f → ¬ f.OfFiles)
    (hlimit : (tree'.shelf g.root c).WithinLimit) :
    (g.table tree).Follows stamp.time (.create c body) outcome (g.table tree') := by
  cases outcome with
  | error f =>
    cases hcreates with
    | refused _ _ hbecomes =>
      rw [table_of_becomes hbecomes]
      exact .failed f
    | unindexed _ _ entities s hstorage => exact absurd hstorage (hfiles f rfl)
  | ok v =>
    obtain ⟨rfl, s, -, hform, hputs⟩ := h.puts_of_creates hp h' hfresh hcreates hlimit
    obtain rfl := hform.eq_of_rules hrules
    exact .created rfl (h.table_fresh hfresh c) hputs.spares hputs.here (.step .refl)

theorem follows_of_edits (hrules : g.rules = []) {id : Id} {patch : Patch c}
    {outcome : Outcome (Entity c)}
    (hedits : g.Edits p tree base stamp id patch outcome tree')
    (hreply : (g.edit stamp id patch).exec tree = (outcome, tree'))
    (hfiles : ∀ f, outcome = .error f → ¬ f.OfFiles)
    (hlimit : (tree'.shelf g.root c).WithinLimit) :
    (g.table tree).Follows stamp.time (.edit c id patch) outcome (g.table tree') := by
  cases outcome with
  | error f =>
    cases hedits with
    | refused _ _ => exact .failed f
    | unwritten _ _ key type index entities kept _ _ hbecomes _ =>
      rw [table_of_becomes hbecomes]
      exact .failed f
    | lost _ _ key type index entities kept seen hstorage => exact absurd hstorage (hfiles f rfl)
  | ok v =>
    obtain ⟨key, kept, s, rfl, -, -, hform, hputs⟩ := h.puts_of_edits hp h' hedits hlimit
    obtain rfl := hform.eq_of_rules hrules
    obtain ⟨old, hold, hv⟩ := h.of_exec_edit hrules hreply
    exact .edited hv hold hputs.spares hputs.here (.step .refl)

theorem follows_of_deletes {id : Id} {outcome : Outcome Unit}
    (hdeletes : g.Deletes tree base c id outcome tree')
    (hlimit : (tree'.shelf g.root c).WithinLimit) :
    (g.table tree).Follows stamp.time (.remove c id) outcome (g.table tree') := by
  cases outcome with
  | error f =>
    cases hdeletes with
    | refused _ => exact .failed f
    | stale _ _ key type index entities hkey hindex htype hload hfind hupdates =>
      exact (h.not_stale hkey hindex htype hload hfind).elim
  | ok _ =>
    obtain ⟨key, kept, rfl, hkept, hspares, hgone⟩ := h.gone_of_deletes hp h' hdeletes hlimit
    exact .removed hkept hspares hgone

end Changes

/-- Texts that nothing has been named by do not matter. -/
theorem mono_of_slashless (h : g.Consistent p used tree base)
    (hsub : ∀ unique ∈ used, unique ∈ used')
    (hslash : g.rules ≠ [] → ∀ unique ∈ used', '/' ∉ unique.toList) :
    g.Consistent p used' tree base where
  sound := {
    hosts := h.sound.hosts
    ready := h.sound.ready
    good := fun c => (h.sound.good c).mono fun _ _ _ _ _ ⟨unique, hmem, hkept⟩ =>
      ⟨unique, hsub unique hmem, hkept⟩
    slashless := hslash }
  catalogued := h.catalogued

theorem mono (h : g.Consistent p used tree base) (hrules : g.rules = [])
    (hsub : ∀ unique ∈ used, unique ∈ used') : g.Consistent p used' tree base :=
  h.mono_of_slashless hsub fun hsome => absurd hrules hsome

/-- A call that does not fail for the sake of files keeps index and documents in agreement. -/
theorem after_call (h : g.Consistent p used tree base) (hp : Number.Stable p) (huniform : g.Uniform)
    {step : Step} (haccepts : g.Accepts p step) (hfresh : ∀ unique ∈ step.given, unique ∉ used)
    (hslash : ∀ unique ∈ step.given, g.rules ≠ [] → '/' ∉ unique.toList)
    (hfiles : ¬ g.FailsOfFiles tree step)
    (hlimit : ∀ c, ((g.advance tree step).shelf g.root c).WithinLimit) :
    g.Consistent p (used ++ step.given) (g.advance tree step) base := by
  refine ⟨h.sound.advance hp huniform haccepts hfresh hslash, fun c => ?_⟩
  obtain ⟨ever, hcatalogued⟩ := h.catalogued c
  exact ⟨_, h.sound.catalogued_advance hp huniform haccepts hfresh hfiles hlimit c hcatalogued⟩

/-- Without rules the table follows the reply to a call that does not fail for the sake of files. -/
theorem follows (h : g.Consistent p used tree base) (hp : Number.Stable p)
    (hrules : g.rules = []) {step : Step} (haccepts : g.Accepts p step)
    (hfresh : ∀ unique ∈ step.given, unique ∉ used) (hfiles : ¬ g.FailsOfFiles tree step)
    (hlimit : ∀ c, ((g.advance tree step).shelf g.root c).WithinLimit) :
    g.Consistent p (used ++ step.given) (g.advance tree step) base
      ∧ (g.table tree).Follows step.stamp.time step.call
        ((g.answer step.stamp step.call).exec tree).1 (g.table (g.advance tree step)) := by
  have huniform : g.Uniform := uniform_of_length (by rw [hrules]; exact Nat.zero_le 1)
  have h' : g.Consistent p (used ++ step.given) (g.advance tree step) base :=
    h.after_call hp huniform haccepts hfresh (fun _ _ hsome => absurd hrules hsome) hfiles hlimit
  refine ⟨h', ?_⟩
  obtain ⟨outcome, tree', hexec, hanswers⟩ := h.sound.exec_answer huniform haccepts
  have hafter : g.advance tree step = tree' := by rw [advance, hexec]
  rw [hafter] at h' hlimit ⊢
  have hfiles' : ∀ f, outcome = .error f → ¬ f.OfFiles :=
    fun f hf hstorage => hfiles ⟨f, by rw [hexec, hf], hstorage⟩
  rw [hexec]
  obtain ⟨stamp, call⟩ := step
  -- Calls that look leave the table alone; for those that change it, what the engine did says how
  -- the table has changed.
  cases hanswers with
  | got c id outcome =>
    have hget : outcome = (tree.shelf g.root c).get id :=
      (congrArg Prod.fst hexec).symm.trans (congrArg Prod.fst (exec_get_of_rules hrules c id tree))
    cases outcome with
    | error f => exact .failed f
    | ok found =>
      obtain ⟨key, rfl, rfl⟩ := Shelf.lookup_of_get hget.symm
      exact .got c key
  | searched c s outcome =>
    cases outcome with
    | error f => exact .failed f
    | ok found =>
      refine .searched s fun e he => ?_
      obtain ⟨type, entities, hload, hmem⟩ :=
        mem_of_exec_search hrules (congrArg Prod.fst hexec) e he
      obtain ⟨unique, -, hkept⟩ := (h.sound.good c).all type entities hload e hmem
      exact ⟨_, hkept.id, h.table_eq_some_iff.2 ⟨type, entities, hload, hmem, hkept.id⟩⟩
  | listed c outcome =>
    cases outcome with
    | error f => exact .failed f
    | ok types => exact .listed c types
  | created hcreates =>
    exact h.follows_of_creates hp h' hrules (hfresh _ (List.mem_singleton.2 rfl)) hcreates hfiles'
      (hlimit _)
  | edited hedits => exact h.follows_of_edits hp h' hrules hedits hexec hfiles' (hlimit _)
  | removed hdeletes => exact h.follows_of_deletes hp h' hdeletes (hlimit _)

end Consistent

/-- An empty root is consistent, and holds nothing. -/
theorem consistent_of_bare (hbare : tree.Bare g.root base) : g.Consistent p [] tree base where
  sound := sound_of_bare hbare
  catalogued c := ⟨_, catalogued_of_bare hbare c⟩

theorem table_of_bare (hbare : tree.Bare g.root base) (c : EntityClass) (key : String) :
    g.table tree c key = none := by
  cases hget : g.table tree c key with
  | none => rfl
  | some e =>
    have hconsistent : g.Consistent Number.InRange [] tree base := consistent_of_bare hbare
    obtain ⟨type, entities, hload, hmem, -⟩ := hconsistent.table_eq_some_iff.1 hget
    rw [hbare.load hload] at hmem
    cases hmem

end Engine

end PropertyGraph
