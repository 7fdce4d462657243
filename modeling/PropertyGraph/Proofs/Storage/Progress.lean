/-
  PropertyGraph.Proofs.Storage.Progress

  Calls that succeed.  Where files fit and all documents can be read, a graph without raw texts
  refuses a call for no reasons of its own: a lookup gives the entry of the table, an entity is
  created, and one that is there is edited or removed.
-/
import PropertyGraph.Proofs.Storage.Contents

namespace PropertyGraph

open FileTree (Hosts Writable)
open Naming (checkType documentStem indexStem)
open Json (Tree printedTree)

variable {c : EntityClass} {g : Engine} {p : Number → Prop} {tree tree' : FileTree}
  {base : Place} {root key type : String} {used : List String} {ever : String → Prop}

/-! ## Values that do not nest too deep -/

/-- A body with nothing in it that nests too deep. -/
structure Body.Shallow (body : Body c) : Prop where
  properties : (Json.object body.properties).nesting ≤ Node.maxNesting
  ends : c.ShallowEnds body.ends

/-- New endpoints that nest no deeper than a bag may. -/
def EntityClass.ShallowEndsPatch : (c : EntityClass) → c.EndsPatch → Prop
  | .node, _ => True
  | .relationship, (patch : EndpointsPatch) =>
    (∀ id, patch.startId = some id → id.value.nesting ≤ Node.maxNesting)
      ∧ ∀ id, patch.endId = some id → id.value.nesting ≤ Node.maxNesting

/-- A patch with nothing in it that nests too deep. -/
structure Patch.Shallow (patch : Patch c) : Prop where
  properties : ∀ bag, patch.properties = some bag → (Json.object bag).nesting ≤ Node.maxNesting
  ends : c.ShallowEndsPatch patch.ends

theorem Body.Shallow.create {body : Body c} (h : body.Shallow) (id : Id) (time : Option Int) :
    (body.create id time).Shallow := ⟨h.properties, h.ends⟩

theorem EntityClass.shallow_applyEnds {patch : c.EndsPatch} {ends : c.Ends}
    (hpatch : c.ShallowEndsPatch patch) (hends : c.ShallowEnds ends) :
    c.ShallowEnds (c.applyEnds patch ends) := by
  cases c with
  | node => trivial
  | relationship =>
    have hend : ∀ (new : Option Id) (old : Id),
        (∀ id, new = some id → id.value.nesting ≤ Node.maxNesting) →
        old.value.nesting ≤ Node.maxNesting → (new.getD old).value.nesting ≤ Node.maxNesting := by
      intro new old hnew hold
      cases new with
      | none => exact hold
      | some id => exact hnew id rfl
    exact ⟨hend _ _ hpatch.1 hends.1, hend _ _ hpatch.2 hends.2⟩

theorem Patch.Shallow.apply {patch : Patch c} (h : patch.Shallow) {e : Entity c} (he : e.Shallow)
    (time : Int) : (patch.apply e time).Shallow where
  properties := by
    rw [Patch.apply]
    cases hbag : patch.properties with
    | none => exact he.properties
    | some bag => exact h.properties bag hbag
  ends := EntityClass.shallow_applyEnds h.ends he.ends

/-- The text of a document of such entities is within the nesting limit. -/
theorem Document.withinLimit_entitiesText (hp : Number.Stable p) {entities : List (Entity c)}
    (hproper : ∀ e ∈ entities, e.Proper p)
    (htexts : ∀ e ∈ entities, ∃ key, e.id = .ofString key) (hshallow : ∀ e ∈ entities, e.Shallow) :
    (Tree.ofText (entitiesText entities)).withinLimit = true := by
  have hlegible : (Json.object [("data", .array (entities.map Entity.toJson))]).Proper
      Number.Legible :=
    ⟨List.nodup_singleton _, Document.proper_entities hp hproper, trivial⟩
  have hitems : ∀ e ∈ entities, e.toJson.nesting ≤ Json.maxDepth - 2 := by
    intro e he
    obtain ⟨key, hid⟩ := htexts e he
    have hwithin := (Entity.withinLimit_iff hid).2 (hshallow e he)
    rw [Tree.withinLimit_printedTree_iff (by decide)] at hwithin
    omega
  have hnesting : Json.nestingItems (entities.map Entity.toJson) ≤ Json.maxDepth - 2 := by
    clear hproper htexts hshallow hlegible
    induction entities with
    | nil => exact Nat.zero_le _
    | cons e rest ih =>
      rw [List.map_cons, Json.nestingItems]
      exact Nat.max_le.2 ⟨hitems e (List.mem_cons_self ..),
        ih fun x hx => hitems x (List.mem_cons_of_mem _ hx)⟩
  rw [entitiesText, encode, Tree.ofText_pretty hlegible,
    Tree.withinLimit_printedTree_iff (by decide)]
  simp only [Json.nesting, Json.nestingEntries, Json.maxDepth] at hnesting ⊢
  omega

/-! ## Catalogs -/

namespace Shelf

variable {s : Shelf c} {entities : List (Entity c)}

theorem WithinLimit.put (h : s.WithinLimit) (hp : Number.Stable p) (type : String)
    (hproper : ∀ e ∈ entities, e.Proper p)
    (htexts : ∀ e ∈ entities, ∃ key, e.id = .ofString key) (hshallow : ∀ e ∈ entities, e.Shallow) :
    (s.put type entities).WithinLimit := by
  intro other text htext
  by_cases hother : other = type
  · subst hother
    have hwritten : Document.entitiesText entities = text := by
      simpa [Shelf.put] using htext
    rw [← hwritten]
    exact Document.withinLimit_entitiesText hp hproper htexts hshallow
  · refine h other text ?_
    simpa [Shelf.put, hother] using htext

/-- A type has a document that can be read, or it has none; where its files fit that is not an
    error. -/
theorem exists_load (h : tree.Hosts root base)
    (hreadable : ∀ type, (tree.shelf root c).Has type →
      ∃ entities, (tree.shelf root c).load type = .ok entities)
    (hcheck : checkType type = .ok ()) (hwritable : Writable root (documentStem type c)) :
    ∃ entities, (tree.shelf root c).load type = .ok entities := by
  have hread := h.read_json (Naming.plainStem_document c hcheck) hwritable
  have htext : (tree.shelf root c).text type = tree.read (Naming.jsonPath root
      (documentStem type c)) := by
    simp only [FileTree.shelf, Naming.documentPath_eq, hcheck]
  cases hentry : tree.occupant (base ++ [documentStem type c ++ ".json"]) with
  | none =>
    refine ⟨[], ?_⟩
    rw [hentry] at hread
    rw [Shelf.load, hcheck, htext, hread]
    rfl
  | some entry =>
    rw [hentry] at hread
    cases entry with
    | directory =>
      refine ⟨[], ?_⟩
      rw [Shelf.load, hcheck, htext, hread]
      rfl
    | file text => exact hreadable type ⟨text, htext.trans hread⟩

end Shelf

namespace Catalog

/-- An entity whose document can be read and written is inserted. -/
theorem exec_insert_of_load (h : tree.Hosts root base) (hready : (tree.shelf root c).Ready root)
    {entity : Entity c} (hid : entity.id.requireText = .ok key) {entities : List (Entity c)}
    (hload : (tree.shelf root c).load entity.type = .ok entities)
    (hdocument : Writable root (documentStem entity.type c)) (hindex : Writable root (indexStem c)) :
    ∃ tree', (insert root entity).exec tree = (.ok (), tree') := by
  have hcheck := Shelf.checkType_of_load hload
  obtain ⟨tree₁, hstore, hput⟩ := exec_store h hcheck hdocument (entities ++ [entity])
  have hready₁ : (tree₁.shelf root c).Ready root := hput.here ▸ hready.put hdocument _
  obtain ⟨⟨index, hentries⟩, types, htypes⟩ := hready₁.readable hindex
  obtain ⟨tree₂, hrecord, -⟩ := exec_record hput.hosts hindex hentries
    (hready₁.keys index hentries) htypes key entity.type
  refine ⟨tree₂, ?_⟩
  rw [insert, FileTask.exec_bind, FileTask.exec_ofOutcome, hcheck]
  simp only
  rw [hid, FileTask.exec_bind, FileTask.exec_ofOutcome]
  simp only
  rw [FileTask.exec_bind, exec_load, hload]
  simp only
  rw [FileTask.exec_bind_of_ok hstore]
  exact hrecord

/-- An entity that can be found is removed. -/
theorem exec_remove_of_located (h : tree.Hosts root base)
    (hready : (tree.shelf root c).Ready root) {id : Id} {index : Entries String}
    {entities : List (Entity c)} {entity : Entity c}
    (hlocated : (tree.shelf root c).Located id key type index entities entity) :
    ∃ tree', (remove root c id).exec tree = (.ok entity, tree') := by
  have hwritable := hready.writable_index hlocated.indexed hlocated.typed
  have hkeys := Entries.nodup_keys_erase (hready.keys index hlocated.indexed) key
  obtain ⟨tree₁, hstore, hput⟩ := exec_store h (Shelf.checkType_of_load hlocated.loaded)
    (hready.documents type hlocated.has) (removeFirst id entities)
  obtain ⟨tree₂, hstore', -⟩ := exec_storeIndex hput.hosts hwritable hkeys
  refine ⟨tree₂, ?_⟩
  rw [remove, FileTask.exec_bind, FileTask.exec_ofOutcome, hlocated.named]
  simp only
  rw [FileTask.exec_bind, exec_index, hlocated.indexed]
  simp only [hlocated.typed]
  rw [FileTask.exec_bind, exec_load, hlocated.loaded]
  simp only [hlocated.found]
  rw [FileTask.exec_bind_of_ok hstore, FileTask.exec_bind_of_ok hstore']
  rfl

end Catalog

/-! ## Calls -/

namespace Engine

/-- Documents that can be read are seen. -/
theorem exists_shows_of_readable (hrules : g.rules = []) {known : List String}
    (hknown : ∀ type ∈ known, ∃ entities, (tree.shelf g.root c).load type = .ok entities) :
    ∃ all : List (Entity c), g.Shows tree known all ∧ ∀ e, e ∈ all ↔ ∃ type ∈ known, ∃ entities,
      (tree.shelf g.root c).load type = .ok entities ∧ e ∈ entities := by
  induction known with
  | nil => exact ⟨[], .nil, by simp⟩
  | cons type rest ih =>
    obtain ⟨entities, hload⟩ := hknown type (List.mem_cons_self ..)
    obtain ⟨more, hmore, hmem⟩ := ih fun other hother => hknown other (List.mem_cons_of_mem _ hother)
    have hviews : ∀ es : List (Entity c),
        List.Forall₂ (fun e seen => (g.view e).exec tree = (.ok seen, tree)) es es := by
      intro es
      induction es with
      | nil => exact .nil
      | cons e rest ih => exact .cons (view_of_rules hrules e tree) ih
    refine ⟨entities ++ more, .cons ⟨entities, hload, hviews entities⟩ hmore, fun e => ?_⟩
    rw [List.mem_append, hmem]
    constructor
    · rintro (hhere | ⟨other, hother, hthere⟩)
      · exact ⟨type, List.mem_cons_self .., entities, hload, hhere⟩
      · exact ⟨other, List.mem_cons_of_mem _ hother, hthere⟩
    · rintro ⟨other, hother, loaded, hloaded, he⟩
      rcases List.mem_cons.1 hother with rfl | hother
      · obtain rfl := Except.ok.inj (hload.symm.trans hloaded)
        exact .inl he
      · exact .inr ⟨other, hother, loaded, hloaded, he⟩

/-! ### Identities that are no texts -/

section NoText

variable {id : Id} {failure : Failure} (hid : id.requireText = .error failure)

include hid

theorem get_of_no_text (tree : FileTree) (root : String) (c : EntityClass) :
    (tree.shelf root c).get id = .error failure := by
  simp [Shelf.get, hid, bind, Except.bind]

theorem exec_edit_of_no_text (g : Engine) (stamp : Stamp) (patch : Patch c) (tree : FileTree) :
    (g.edit stamp id patch).exec tree = (.error failure, tree) := by
  refine FileTask.exec_bind_of_error ?_
  rw [Catalog.exec_locate]
  simp [Shelf.locate, hid, bind, Except.bind]

theorem exec_remove_of_no_text (g : Engine) (c : EntityClass) (tree : FileTree) :
    (g.remove c id).exec tree = (.error failure, tree) := by
  refine FileTask.exec_bind_of_error ?_
  rw [Catalog.remove, FileTask.exec_bind, FileTask.exec_ofOutcome, hid]

end NoText

end Engine

namespace Engine.Consistent

variable {stamp : Stamp} (h : g.Consistent p used tree base)

include h

section Lookups

variable (hindex : Writable g.root (indexStem c))

include hindex

/-- What the table lacks the index lacks. -/
theorem not_indexed (he : g.table tree c key = none) :
    ∃ index, (tree.shelf g.root c).index = .ok index ∧ Entries.get? key index = none := by
  obtain ⟨⟨index, hentries⟩, -⟩ := (h.sound.ready c).readable hindex
  obtain ⟨ever, hcatalogued⟩ := h.catalogued c
  refine ⟨index, hentries, ?_⟩
  cases htype : Entries.get? key index with
  | none => rfl
  | some type =>
    -- what the index says the documents contain
    obtain ⟨entities, hload, e, hmem, hid⟩ :=
      (hcatalogued.mapped key type).1 ⟨index, hentries, htype⟩
    rw [h.table_eq_some_iff.2 ⟨type, entities, hload, hmem, hid⟩] at he
    cases he

/-- A lookup gives the entry of the table. -/
theorem get_eq (key : String) :
    (tree.shelf g.root c).get (.ofString key) = .ok (g.table tree c key) := by
  cases htable : g.table tree c key with
  | some e => exact Shelf.get_of_lookup htable
  | none =>
    obtain ⟨index, hentries, htype⟩ := h.not_indexed hindex htable
    have hkey : (Id.ofString key).requireText = .ok key := rfl
    simp [Shelf.get, hkey, hentries, htype, bind, Except.bind, pure, Except.pure]

/-- An entry of the table can be located under its type. -/
theorem exists_located {e : Entity c} (he : g.table tree c key = some e) :
    ∃ index entities,
      (tree.shelf g.root c).Located (.ofString key) key e.type index entities e := by
  have hget := h.get_eq hindex key
  rw [he] at hget
  obtain ⟨key', type, index, entities, hlocated⟩ := Shelf.located_of_get hget
  have hkey : key' = key := Catalog.ofString_inj hlocated.id_eq.symm
  subst hkey
  have htype := (h.sound.finds c _ _ _ _ _ _ hlocated).type
  rw [htype]
  exact ⟨index, entities, hlocated⟩


end Lookups

/-! ### Changes -/

section Changes

variable (hrules : g.rules = []) (hindex : Writable g.root (indexStem c))

include hindex in
/-- The type of an entity that is there has a document with a name that fits. -/
theorem documents_of_table {e : Entity c} (he : g.table tree c key = some e) :
    checkType e.type = .ok () ∧ Writable g.root (documentStem e.type c) := by
  obtain ⟨index, entities, hlocated⟩ := h.exists_located hindex he
  exact ⟨Shelf.checkType_of_load hlocated.loaded,
    (h.sound.ready c).documents e.type hlocated.has⟩

include hrules hindex

/-- An entity is created if its type can have a document. -/
theorem exec_create_ok (stamp : Stamp) {body : Body c} (hcheck : checkType body.type = .ok ())
    (hwritable : Writable g.root (documentStem body.type c)) :
    ∃ tree', (g.create stamp body).exec tree = (.ok (g.created stamp body), tree') := by
  obtain ⟨ever, hcatalogued⟩ := h.catalogued c
  obtain ⟨entities, hload⟩ :=
    Shelf.exists_load h.sound.hosts hcatalogued.readable hcheck hwritable
  have hstored := stored_of_rules hrules (g.created stamp body) tree
  have hid : (g.created stamp body).id.requireText = .ok (g.keyOf stamp.unique) := rfl
  have hload' : (tree.shelf g.root c).load (g.created stamp body).type = .ok entities := hload
  obtain ⟨tree', hinsert⟩ :=
    Catalog.exec_insert_of_load h.sound.hosts (h.sound.ready c) hid hload' hwritable hindex
  refine ⟨tree', ?_⟩
  rw [create, FileTask.exec_bind, FileTask.exec_ofOutcome, hcheck]
  simp only
  rw [show g.stored (body.create (.fresh g.idPrefix stamp.unique) (some stamp.time))
    = g.stored (g.created stamp body) from rfl, FileTask.exec_bind_of_ok hstored,
    FileTask.exec_bind_of_ok hinsert]
  rfl

/-- An entity that is there is edited if its new type can have a document. -/
theorem exec_edit_ok (stamp : Stamp) {e : Entity c} (he : g.table tree c key = some e) {patch : Patch c}
    (hcheck : checkType (patch.apply e stamp.time).type = .ok ())
    (hwritable : Writable g.root (documentStem (patch.apply e stamp.time).type c)) :
    ∃ tree', (g.edit stamp (.ofString key) patch).exec tree
      = (.ok (patch.apply e stamp.time), tree') := by
  obtain ⟨index, entities, hlocated⟩ := h.exists_located hindex he
  obtain ⟨v, hv⟩ : ∃ v, patch.apply e stamp.time = v := ⟨_, rfl⟩
  have hid : v.id = .ofString key := by
    rw [← hv]
    exact (h.of_table he).1
  have hlocate : (Catalog.locate g.root c (.ofString key)).exec tree = (.ok (e.type, e), tree) := by
    rw [Catalog.exec_locate, hlocated.locate_eq]
  -- under the same type it is replaced, under another one it is inserted
  have hput : ∃ tree', (Catalog.put g.root e.type v).exec tree = (.ok (), tree') := by
    rw [hv] at hcheck hwritable
    by_cases hsame : v.type = e.type
    · rw [← hsame]
      obtain ⟨tree', hput, -⟩ := Catalog.exec_put_same h.sound.hosts hcheck
        (hsame ▸ hlocated.loaded) hwritable
      exact ⟨tree', hput⟩
    · have hold := (h.sound.ready c).documents e.type hlocated.has
      obtain ⟨tree₁, hput, hupdates⟩ := Catalog.exec_put_moved h.sound.hosts hsame hcheck
        hlocated.loaded hold
      obtain ⟨ever, hcatalogued⟩ := h.catalogued c
      obtain ⟨entities', hload⟩ :=
        Shelf.exists_load h.sound.hosts hcatalogued.readable hcheck hwritable
      have hready₁ : (tree₁.shelf g.root c).Ready g.root :=
        hupdates.here.symm ▸ (h.sound.ready c).put hold _
      have hload₁ : (tree₁.shelf g.root c).load v.type = .ok entities' := by
        rw [hupdates.here, Shelf.load_put_of_ne _ hsame]
        exact hload
      obtain ⟨tree', hinsert⟩ := Catalog.exec_insert_of_load hupdates.hosts hready₁
        (by rw [hid]; rfl) hload₁ hwritable hindex
      exact ⟨tree', hput.trans hinsert⟩
  obtain ⟨tree', hput⟩ := hput
  refine ⟨tree', ?_⟩
  rw [edit, FileTask.exec_bind_of_ok hlocate]
  simp only
  rw [FileTask.exec_bind_of_ok (view_of_rules hrules e tree), FileTask.exec_bind,
    FileTask.exec_ofOutcome, hcheck, hv]
  simp only
  rw [FileTask.exec_bind_of_ok (discard_of_rules hrules e.type e tree),
    FileTask.exec_bind_of_ok (stored_of_rules hrules v tree), FileTask.exec_bind_of_ok hput]
  rfl

omit hrules in
/-- An entity that is not there is not edited. -/
theorem exec_edit_missing (he : g.table tree c key = none) (patch : Patch c) :
    (g.edit stamp (.ofString key) patch).exec tree
      = (.error (.notFound c (.ofString key)), tree) := by
  obtain ⟨index, hentries, htype⟩ := h.not_indexed hindex he
  have hkey : (Id.ofString key).requireText = .ok key := rfl
  refine FileTask.exec_bind_of_error ?_
  rw [Catalog.exec_locate]
  simp [Shelf.locate, hkey, hentries, htype, bind, Except.bind, throw, throwThe,
    MonadExceptOf.throw]

omit hrules in
/-- An entity that is not there is not removed. -/
theorem exec_remove_missing (he : g.table tree c key = none) :
    (g.remove c (.ofString key)).exec tree
      = (.error (.notFound c (.ofString key)), tree) := by
  obtain ⟨index, hentries, htype⟩ := h.not_indexed hindex he
  have hkey : (Id.ofString key).requireText = .ok key := rfl
  refine FileTask.exec_bind_of_error ?_
  rw [Catalog.remove, FileTask.exec_bind, FileTask.exec_ofOutcome, hkey]
  simp only
  rw [FileTask.exec_bind, Catalog.exec_index, hentries]
  simp only [htype]
  rfl

/-- An entity that is there is removed. -/
theorem exec_remove_ok {e : Entity c} (he : g.table tree c key = some e) :
    ∃ tree', (g.remove c (.ofString key)).exec tree = (.ok (), tree') := by
  obtain ⟨index, entities, hlocated⟩ := h.exists_located hindex he
  obtain ⟨tree', hremove⟩ :=
    Catalog.exec_remove_of_located h.sound.hosts (h.sound.ready c) hlocated
  refine ⟨tree', ?_⟩
  rw [remove, FileTask.exec_bind_of_ok hremove]
  exact discard_of_rules hrules e.type e tree'

end Changes

/-! ### Searches -/

/-- The documents of all known types are seen, and show what is in the table. -/
theorem exists_shows (hrules : g.rules = []) (hindex : Writable g.root (indexStem c)) :
    ∃ known, ∃ all : List (Entity c), (tree.shelf g.root c).types = .ok known ∧ known.Nodup
      ∧ g.Shows tree known all ∧ ∀ e, e ∈ all ↔ ∃ key, g.table tree c key = some e := by
  obtain ⟨ever, hcatalogued⟩ := h.catalogued c
  obtain ⟨-, known, htypes⟩ := (h.sound.ready c).readable hindex
  have hlists : ∀ type, type ∈ known ↔ (tree.shelf g.root c).Has type := by
    intro type
    rw [← Shelf.lists_iff htypes, hcatalogued.listed]
  have hreadable : ∀ type ∈ known, ∃ entities, (tree.shelf g.root c).load type = .ok entities :=
    fun type htype => hcatalogued.readable type ((hlists type).1 htype)
  obtain ⟨all, hshows, hmem⟩ := Engine.exists_shows_of_readable hrules hreadable
  refine ⟨known, all, htypes, (hcatalogued.ascending known htypes).imp ne_of_lt, hshows,
    fun e => ?_⟩
  rw [hmem]
  constructor
  · rintro ⟨type, -, entities, hload, he⟩
    obtain ⟨key, hid⟩ := ((h.sound.good c).named type entities hload).texts e he
    exact ⟨key, h.table_eq_some_iff.2 ⟨type, entities, hload, he, hid⟩⟩
  · rintro ⟨key, htable⟩
    obtain ⟨type, entities, hload, he, -⟩ := h.table_eq_some_iff.1 htable
    exact ⟨type, (hlists type).2 (Shelf.has_of_load hload (List.ne_nil_of_mem he)), entities, hload,
      he⟩

/-- A search filters the entities of the table whose types its plan leaves open. -/
theorem exec_search_open (hrules : g.rules = []) (hindex : Writable g.root (indexStem c))
    {s : Searcher} {plan : Plan} (hpaths : s.checkPaths = .ok ()) (hplan : s.plan = .ok plan) :
    ∃ all : List (Entity c), (g.search c s).exec tree
        = (s.filter (g.evaluators.forClass c) (all.filter fun e => plan.opens e.type), tree)
      ∧ (all.map Entity.id).Nodup ∧ ∀ e, e ∈ all ↔ ∃ key, g.table tree c key = some e := by
  obtain ⟨known, all, htypes, hknown, hshows, hmem⟩ := h.exists_shows hrules hindex
  exact ⟨all, hshows.exec_search htypes (h.sound.typed c) hknown hpaths hplan,
    h.sound.nodup_of_shows hshows hknown, hmem⟩

/-- A search finds, in some order, what a searcher keeps of the table. -/
theorem exec_search_eq (hrules : g.rules = []) (hindex : Writable g.root (indexStem c))
    {s : Searcher} (hfilter : ∀ es : List (Entity c), ∃ kept,
      s.filter (g.evaluators.forClass c) es = .ok kept) :
    ∃ all found : List (Entity c), (g.search c s).exec tree = (.ok found, tree)
      ∧ s.filter (g.evaluators.forClass c) all = .ok found ∧ (all.map Entity.id).Nodup
      ∧ ∀ e, e ∈ all ↔ ∃ key, g.table tree c key = some e := by
  obtain ⟨known, all, htypes, hknown, hshows, hmem⟩ := h.exists_shows hrules hindex
  obtain ⟨found, hfound⟩ := hfilter all
  exact ⟨all, found, search_of_shows htypes hshows (h.sound.typed c) hknown hfound, hfound,
    h.sound.nodup_of_shows hshows hknown, hmem⟩

end Engine.Consistent

/-! ### Limits -/

namespace Engine.Consistent

variable {stamp : Stamp} (h : g.Consistent p used tree base) (hp : Number.Stable p)
  (hlimit : (tree.shelf g.root c).WithinLimit)
  (hshallow : ∀ key (e : Entity c), g.table tree c key = some e → e.Shallow)

include h hshallow

/-- What can be read from a document is in the table, and so it does not nest too deep. -/
theorem shallow_of_load {entities : List (Entity c)}
    (hload : (tree.shelf g.root c).load type = .ok entities) : ∀ e ∈ entities, e.Shallow := by
  intro e he
  obtain ⟨key, hid⟩ := ((h.sound.good c).named type entities hload).texts e he
  exact hshallow key e (h.table_eq_some_iff.2 ⟨type, entities, hload, he, hid⟩)

include hp

/-- A document of entities that have been read, and of one that does not nest too deep, stays within
    the limit. -/
theorem withinLimit_put {entities es : List (Entity c)} {v : Entity c}
    (hload : (tree.shelf g.root c).load type = .ok entities) (hproper : v.Proper p)
    (hid : v.id = .ofString key) (hv : v.Shallow) (hes : ∀ e ∈ es, e = v ∨ e ∈ entities)
    {s : Shelf c} (hs : s.WithinLimit) (type' : String) : (s.put type' es).WithinLimit := by
  refine hs.put hp type' (fun e he => ?_) (fun e he => ?_) fun e he => ?_
  · rcases hes e he with rfl | hold
    · exact hproper
    · exact h.sound.proper hload e hold
  · rcases hes e he with rfl | hold
    · exact ⟨key, hid⟩
    · exact ((h.sound.good c).named type entities hload).texts e hold
  · rcases hes e he with rfl | hold
    · exact hv
    · exact h.shallow_of_load hshallow hload e hold

include hlimit

/-- A document of some of the entities that have been read stays within the limit. -/
theorem withinLimit_put_sublist {entities es : List (Entity c)}
    (hload : (tree.shelf g.root c).load type = .ok entities) (hsub : List.Sublist es entities) :
    ((tree.shelf g.root c).put type es).WithinLimit :=
  hlimit.put hp type (fun e he => h.sound.proper hload e (hsub.subset he))
    (fun e he => ((h.sound.good c).named type entities hload).texts e (hsub.subset he))
    fun e he => h.shallow_of_load hshallow hload e (hsub.subset he)

theorem withinLimit_of_creates (hrules : g.rules = []) {body : Body c} {v : Entity c}
    (hcreates : g.Creates p tree base stamp body (.ok v) tree') (hv : v.Shallow) :
    (tree'.shelf g.root c).WithinLimit := by
  cases hcreates with
  | done _ entities s hload _ _ hkept hform hbecomes =>
    obtain rfl := hform.eq_of_rules hrules
    rw [hbecomes.here]
    exact h.withinLimit_put hp hshallow hload hkept.proper hkept.id hv
      (fun e he => (List.mem_append.1 he).symm.imp_left List.mem_singleton.1) hlimit body.type

theorem withinLimit_of_edits (hrules : g.rules = []) {id : Id} {patch : Patch c} {v : Entity c}
    (hedits : g.Edits p tree base stamp id patch (.ok v) tree') (hv : v.Shallow) :
    (tree'.shelf g.root c).WithinLimit := by
  cases hedits with
  | changed _ key type index entities kept seen s hlocated _ hkept hform hbecomes =>
    obtain rfl := hform.eq_of_rules hrules
    rw [hbecomes.here]
    exact h.withinLimit_put hp hshallow hlocated.loaded hkept.proper hkept.id hv
      (fun e he => Catalog.mem_of_mem_replaceFirst he) hlimit type
  | moved _ key type type' index entities entities' kept seen s hlocated hne hload _ _ hkept hform
      hbecomes =>
    obtain rfl := hform.eq_of_rules hrules
    rw [hbecomes.here]
    have hleft := h.withinLimit_put_sublist hp hlimit hshallow hlocated.loaded
      (List.filter_sublist (p := fun e => !e.id.same id))
    exact h.withinLimit_put hp hshallow hload hkept.proper hkept.id hv
      (fun e he => (List.mem_append.1 he).symm.imp_left List.mem_singleton.1) hleft type'

theorem withinLimit_of_deletes {id : Id}
    (hdeletes : g.Deletes tree base c id (.ok ()) tree') : (tree'.shelf g.root c).WithinLimit := by
  cases hdeletes with
  | done _ key type index entities kept hlocated hbecomes =>
    rw [hbecomes.here]
    exact h.withinLimit_put_sublist hp hlimit hshallow hlocated.loaded
      (Catalog.removeFirst_sublist id entities)

end Engine.Consistent

/-! ### After a call -/

namespace Engine.Consistent

variable {stamp : Stamp} (h : g.Consistent p used tree base) (hp : Number.Stable p)
  (hrules : g.rules = []) (hlimits : ∀ c, (tree.shelf g.root c).WithinLimit)

include h hp hrules hlimits

/-- After a call that succeeds the graph is consistent and its table has followed the call, if the
    documents of the class that it is about are still within the limit. -/
theorem succeeds (call : Call) {reply : call.Reply}
    (hexec : (g.answer stamp call).exec tree = (.ok reply, tree'))
    (haccepts : g.Accepts p ⟨stamp, call⟩)
    (hfresh : ∀ unique ∈ Step.given ⟨stamp, call⟩, unique ∉ used)
    (hclass : g.Answers p tree base stamp call (.ok reply) tree' →
      (tree'.shelf g.root c).WithinLimit
        ∧ ∀ c', c' ≠ c → tree'.shelf g.root c' = tree.shelf g.root c') :
    g.Consistent p (used ++ Step.given ⟨stamp, call⟩) tree' base
      ∧ (∀ c, (tree'.shelf g.root c).WithinLimit)
      ∧ (g.table tree).Follows stamp.time call (.ok reply) (g.table tree') := by
  have huniform : g.Uniform := uniform_of_length (by rw [hrules]; exact Nat.zero_le 1)
  have hafter : g.advance tree ⟨stamp, call⟩ = tree' := congrArg Prod.snd hexec
  have hreply : ((g.answer stamp call).exec tree).1 = .ok reply := congrArg Prod.fst hexec
  have hanswers := h.sound.answers huniform haccepts
  rw [hafter, hreply] at hanswers
  obtain ⟨hlimit, hother⟩ := hclass hanswers
  -- The call changes the documents of its own class only; the other ones are where they were.
  have hlimits' : ∀ c, (tree'.shelf g.root c).WithinLimit := by
    intro c'
    by_cases hc : c' = c
    · rw [hc]
      exact hlimit
    · rw [hother c' hc]
      exact hlimits c'
  have hfiles : ¬ g.FailsOfFiles tree ⟨stamp, call⟩ := by
    rintro ⟨f, hf, -⟩
    rw [hreply] at hf
    cases hf
  obtain ⟨hconsistent, hfollows⟩ :=
    h.follows hp hrules haccepts hfresh hfiles (hafter.symm ▸ hlimits')
  rw [hafter] at hconsistent hfollows
  rw [hreply] at hfollows
  exact ⟨hconsistent, hlimits', hfollows⟩

variable (hindex : Writable g.root (indexStem c))
  (htable : ∀ key (e : Entity c), g.table tree c key = some e → e.Shallow)

include hindex htable

variable (stamp)

/-- An entity that does not nest too deep is created if its type can have a document, and the graph
    goes on from there. -/
theorem created {body : Body c} (htime : TimeFits stamp.time) (hproper : body.Proper p)
    (hshallow : body.Shallow)
    (hcheck : checkType body.type = .ok ())
    (hwritable : Writable g.root (documentStem body.type c)) (hfresh : stamp.unique ∉ used) :
    ∃ tree', (g.create stamp body).exec tree = (.ok (g.created stamp body), tree')
      ∧ g.Consistent p (used ++ [stamp.unique]) tree' base
      ∧ (∀ c, (tree'.shelf g.root c).WithinLimit)
      ∧ (g.table tree).Follows stamp.time (.create c body) (.ok (g.created stamp body))
        (g.table tree') := by
  obtain ⟨tree', hexec⟩ := h.exec_create_ok hrules hindex stamp hcheck hwritable
  refine ⟨tree', hexec, h.succeeds hp hrules hlimits (.create c body) (c := c) hexec
    ⟨htime, hproper, fun _ hsome => absurd hrules hsome⟩
    (fun unique hgiven => List.mem_singleton.1 hgiven ▸ hfresh) fun hanswers => ?_⟩
  cases hanswers with
  | created hcreates =>
    exact ⟨h.withinLimit_of_creates hp (hlimits c) htable hrules hcreates (hshallow.create _ _),
      fun _ => hcreates.other_class⟩

/-- An entity that is there is edited if its new type can have a document, and the graph goes on from
    there. -/
theorem edited {e : Entity c} (he : g.table tree c key = some e) {patch : Patch c}
    (htime : TimeFits stamp.time) (hproper : patch.Proper p) (hshallow : patch.Shallow)
    (hcheck : checkType (patch.apply e stamp.time).type = .ok ())
    (hwritable : Writable g.root (documentStem (patch.apply e stamp.time).type c)) :
    ∃ tree', (g.edit stamp (.ofString key) patch).exec tree
        = (.ok (patch.apply e stamp.time), tree')
      ∧ g.Consistent p used tree' base ∧ (∀ c, (tree'.shelf g.root c).WithinLimit)
      ∧ (g.table tree).Follows stamp.time (.edit c (.ofString key) patch)
        (.ok (patch.apply e stamp.time)) (g.table tree') := by
  have happlied : (patch.apply e stamp.time).Shallow := hshallow.apply (htable key e he) stamp.time
  obtain ⟨tree', hexec⟩ := h.exec_edit_ok hrules hindex stamp he hcheck hwritable
  obtain ⟨hconsistent, hlimits', hfollows⟩ := h.succeeds hp hrules hlimits
    (.edit c (.ofString key) patch) (c := c) hexec
    ⟨htime, hproper, fun _ _ _ hsome => absurd hrules hsome⟩ (fun _ hgiven => by cases hgiven)
    (fun hanswers => by
      cases hanswers with
      | edited hedits =>
        exact ⟨h.withinLimit_of_edits hp (hlimits c) htable hrules hedits happlied,
          fun _ => hedits.other_class⟩)
  rw [Step.given, List.append_nil] at hconsistent
  exact ⟨tree', hexec, hconsistent, hlimits', hfollows⟩

/-- An entity that is there is removed, and the graph goes on from there. -/
theorem removed {e : Entity c} (he : g.table tree c key = some e) :
    ∃ tree', (g.remove c (.ofString key)).exec tree = (.ok (), tree')
      ∧ g.Consistent p used tree' base ∧ (∀ c, (tree'.shelf g.root c).WithinLimit)
      ∧ (g.table tree).Follows stamp.time (.remove c (.ofString key)) (.ok ()) (g.table tree') := by
  obtain ⟨tree', hexec⟩ : ∃ tree', (g.answer stamp (.remove c (.ofString key))).exec tree
      = (.ok (), tree') := h.exec_remove_ok hrules hindex he
  obtain ⟨hconsistent, hlimits', hfollows⟩ := h.succeeds hp hrules hlimits
    (.remove c (.ofString key)) (c := c) hexec trivial (fun _ hgiven => by cases hgiven)
    (fun hanswers => by
      cases hanswers with
      | removed hdeletes =>
        exact ⟨h.withinLimit_of_deletes hp (hlimits c) htable hdeletes,
          fun _ => hdeletes.other_class⟩)
  rw [Step.given, List.append_nil] at hconsistent
  exact ⟨tree', hexec, hconsistent, hlimits', hfollows⟩

end Engine.Consistent

/-- An empty root has no documents, and so none that nests too deep. -/
theorem FileTree.Bare.withinLimit (h : tree.Bare root base) (c : EntityClass) :
    (tree.shelf root c).WithinLimit :=
  fun type text htext => absurd ⟨text, htext⟩ (h.not_has type)

/-- Below an empty root the first entity is created if its type can have a document. -/
theorem Engine.created_of_bare (hbare : tree.Bare g.root base) (hp : Number.Stable p)
    (hrules : g.rules = []) (hindex : Writable g.root (indexStem c)) (stamp : Stamp) {body : Body c}
    (htime : TimeFits stamp.time) (hproper : body.Proper p) (hshallow : body.Shallow)
    (hcheck : checkType body.type = .ok ())
    (hwritable : Writable g.root (documentStem body.type c)) :
    ∃ tree', (g.create stamp body).exec tree = (.ok (g.created stamp body), tree')
      ∧ g.Consistent p [stamp.unique] tree' base
      ∧ (g.table tree).Follows stamp.time (.create c body) (.ok (g.created stamp body))
        (g.table tree') := by
  have hblank : ∀ key (e : Entity c), g.table tree c key = some e → e.Shallow := by
    intro key e he
    rw [table_of_bare hbare] at he
    cases he
  obtain ⟨tree', hexec, hconsistent, -, hfollows⟩ :=
    (consistent_of_bare hbare).created stamp hp hrules hbare.withinLimit hindex hblank htime hproper
      hshallow hcheck hwritable List.not_mem_nil
  exact ⟨tree', hexec, hconsistent, hfollows⟩

/-- An entity that nests deeper than a reader takes is found in the index, but not read. -/
theorem Engine.Sound.malformed_of_deep {stamp : Stamp} {body : Body c} {v : Entity c}
    (h : g.Sound Number.Whole used tree base) (hrules : g.rules = [])
    (hcreates : g.Creates Number.Whole tree base stamp body (.ok v) tree') (hdeep : ¬ v.Shallow) :
    ((g.get c v.id).exec tree').1 = .error .malformed := by
  cases hcreates with
  | done _ entities s hload hdocument hindex hkept hform hbecomes =>
    obtain rfl := hform.eq_of_rules hrules
    obtain ⟨⟨index, hindexed⟩, -⟩ := (h.ready c).readable hindex
    have hindexed' : ((tree.shelf g.root c).put body.type
        (entities ++ [g.created stamp body])).index = .ok index := hindexed
    have hread : ((tree.shelf g.root c).put body.type
        (entities ++ [g.created stamp body])).load body.type = .error .malformed := by
      rw [Shelf.load_put_self _ (Shelf.checkType_of_load hload)]
      cases hdecode : Document.decode (Tree.toList Entity.decode)
          (Document.entitiesText (entities ++ [g.created stamp body])) with
      | error f => rw [Document.malformed_of_decode hdecode]
      | ok read =>
        have hwithin := Document.withinLimit_of_decode_entitiesText Number.stable_whole
          (h.proper_append hload hkept.proper) hdecode (g.created stamp body) (by simp)
        exact absurd ((Entity.withinLimit_iff hkept.id).1 hwithin) hdeep
    have hget : (tree'.shelf g.root c).get (g.created stamp body).id = .error .malformed := by
      rw [hbecomes.here]
      exact Shelf.get_of_load_error rfl (Shelf.index_record hindexed' _ _)
        (Entries.get?_insert_self ..) hread
    rw [Engine.exec_get_of_rules hrules, hget]

end PropertyGraph
