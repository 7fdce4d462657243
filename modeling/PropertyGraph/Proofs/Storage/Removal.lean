/-
  PropertyGraph.Proofs.Storage.Removal

  Looking an identity up, locating it and removing it come upon the same, whatever the documents
  hold: an index that names entities which are not there, several entities of one identity,
  documents that cannot be read.  A removal whose writes are served takes the identity out of the
  index, and the first entity of that identity out of the document that the index names.
-/
import PropertyGraph.Proofs.Storage.FailureCauses
import PropertyGraph.Proofs.Storage.Rewriting

namespace PropertyGraph

open FileTask (exec_bind_of_ok exec_bind_of_error exec_ofOutcome exec_replace_of_served)

variable {c : EntityClass} {root : String} {id : Id} {tree tree' : FileTree}

namespace Catalog

/-! ## What a removal does -/

/-- What a removal gives and leaves when its writes are served, by what it comes upon. -/
inductive Withdraws (tree : FileTree) (root : String) (id : Id) :
    Outcome (Entity c) → FileTree → Prop
  | failed {failure : Failure} : (tree.shelf root c).get id = .error failure →
    Withdraws tree root id (.error failure) tree
  /-- the index does not know the identity -/
  | unlisted {key : String} {index : Entries String} :
    (tree.shelf root c).get id = .ok none → id.requireText = .ok key →
    (tree.shelf root c).index = .ok index → Entries.get? key index = none →
    Withdraws tree root id (.error (.notFound c id)) tree
  /-- the document that the index names lacks the entity -/
  | stale {key type : String} {index : Entries String} {entities : List (Entity c)}
    {tree' : FileTree} : (tree.shelf root c).get id = .ok none → id.requireText = .ok key →
    (tree.shelf root c).index = .ok index → Entries.get? key index = some type →
    (tree.shelf root c).load type = .ok entities → find id entities = none →
    tree.Rewrites tree' root (.index c) (Document.indexText (index.erase key)) →
    Withdraws tree root id (.error (.notFound c id)) tree'
  | found {key type : String} {index : Entries String} {entities : List (Entity c)}
    {e : Entity c} {between tree' : FileTree} :
    (tree.shelf root c).Located id key type index entities e →
    tree.Rewrites between root (.entities type c)
      (Document.entitiesText (removeFirst id entities)) →
    between.Rewrites tree' root (.index c) (Document.indexText (index.erase key)) →
    Withdraws tree root id (.ok e) tree'

theorem exec_store_of_served {type : String} (hcheck : Naming.checkType type = .ok ())
    {entities : List (Entity c)} (h : (store root type entities).ChangesServed tree) :
    ∃ tree', (store root type entities).exec tree = (.ok (), tree')
      ∧ tree.Rewrites tree' root (.entities type c) (Document.entitiesText entities) :=
  exec_replace_of_served (f := .entities type c) hcheck h

theorem exec_storeIndex_of_served {index : Entries String}
    (h : (storeIndex root c index).ChangesServed tree) :
    ∃ tree', (storeIndex root c index).exec tree = (.ok (), tree')
      ∧ tree.Rewrites tree' root (.index c) (Document.indexText index) :=
  exec_replace_of_served (f := .index c) trivial h

/-- The rest of a removal, once the index has named a type. -/
def removeListed (root : String) (c : EntityClass) (id : Id) (key type : String)
    (index : Entries String) : FileTask (Entity c) := do
  let entities ← load root c type
  match find id entities with
  | some e =>
    store root type (removeFirst id entities)
    storeIndex root c (index.erase key)
    return e
  | none =>
    storeIndex root c (index.erase key)
    throw (.notFound c id)

section Listed

variable {key type : String} {entries : Entries String} {entities : List (Entity c)}

theorem exec_requireText (hkey : id.requireText = .ok key) (tree : FileTree) :
    (FileTask.ofOutcome id.requireText).exec tree = (.ok key, tree) := by
  rw [exec_ofOutcome, hkey]

/-- Where the index names a type, a removal is that rest. -/
theorem exec_remove_of_listed (hkey : id.requireText = .ok key)
    (hindex : (tree.shelf root c).index = .ok entries)
    (htype : Entries.get? key entries = some type) :
    (remove root c id).exec tree = (removeListed root c id key type entries).exec tree
      ∧ ((remove root c id).ChangesServed tree →
        (removeListed root c id key type entries).ChangesServed tree) := by
  have hindexed : (index root c).exec tree = (.ok entries, tree) := by rw [exec_index, hindex]
  constructor
  · rw [remove, exec_bind_of_ok (exec_requireText hkey tree), exec_bind_of_ok hindexed]
    simp only [htype]
    rfl
  · intro h
    have hrest := (h.next (exec_requireText hkey tree)).next hindexed
    simp only [htype] at hrest
    exact hrest

/-- The rest of a removal whose document lacks the entity. -/
theorem exec_removeListed_of_none (hload : (tree.shelf root c).load type = .ok entities)
    (hfind : find id entities = none)
    (h : (removeListed root c id key type entries).ChangesServed tree) :
    ∃ tree', (removeListed root c id key type entries).exec tree
        = (.error (.notFound c id), tree')
      ∧ tree.Rewrites tree' root (.index c) (Document.indexText (entries.erase key)) := by
  have hloaded : (load root c type).exec tree = (.ok entities, tree) := by rw [exec_load, hload]
  have hrest := h.next hloaded
  simp only [hfind] at hrest
  obtain ⟨tree', hstored, hrewrites⟩ := exec_storeIndex_of_served hrest.first
  refine ⟨tree', ?_, hrewrites⟩
  rw [removeListed, exec_bind_of_ok hloaded]
  simp only [hfind]
  exact exec_bind_of_ok hstored

/-- The rest of a removal that finds an entity. -/
theorem exec_removeListed_of_some {e : Entity c}
    (hload : (tree.shelf root c).load type = .ok entities) (hfind : find id entities = some e)
    (h : (removeListed root c id key type entries).ChangesServed tree) :
    ∃ between tree', (removeListed root c id key type entries).exec tree = (.ok e, tree')
      ∧ tree.Rewrites between root (.entities type c)
        (Document.entitiesText (removeFirst id entities))
      ∧ between.Rewrites tree' root (.index c) (Document.indexText (entries.erase key)) := by
  have hloaded : (load root c type).exec tree = (.ok entities, tree) := by rw [exec_load, hload]
  have hrest := h.next hloaded
  simp only [hfind] at hrest
  obtain ⟨between, hstored, hdocument⟩ :=
    exec_store_of_served (Shelf.checkType_of_load hload) hrest.first
  obtain ⟨tree', hforgotten, hindex⟩ := exec_storeIndex_of_served (hrest.next hstored).first
  refine ⟨between, tree', ?_, hdocument, hindex⟩
  rw [removeListed, exec_bind_of_ok hloaded]
  simp only [hfind]
  rw [exec_bind_of_ok hstored, exec_bind_of_ok hforgotten]
  rfl

end Listed

/-- A removal whose writes are served, by what it comes upon. -/
theorem exec_remove_of_served (h : (remove root c id).ChangesServed tree) :
    ∃ outcome tree', (remove root c id).exec tree = (outcome, tree')
      ∧ Withdraws tree root id outcome tree' := by
  -- a removal reads what a lookup reads, so the lookup says how far it comes
  have hseeks := (tree.shelf root c).seeks id
  generalize hget : (tree.shelf root c).get id = got at hseeks
  cases hseeks with
  | @unnamed failure hkey =>
    refine ⟨_, tree, exec_bind_of_error ?_, .failed hget⟩
    rw [exec_ofOutcome, hkey]
  | @unindexed key failure hkey hindex =>
    refine ⟨_, tree, ?_, .failed hget⟩
    refine (exec_bind_of_ok (exec_requireText hkey tree)).trans (exec_bind_of_error ?_)
    rw [exec_index, hindex]
  | @unlisted key entries hkey hindex htype =>
    have hindexed : (index root c).exec tree = (.ok entries, tree) := by rw [exec_index, hindex]
    refine ⟨_, tree, ?_, .unlisted hget hkey hindex htype⟩
    rw [remove, exec_bind_of_ok (exec_requireText hkey tree), exec_bind_of_ok hindexed]
    simp only [htype]
    rfl
  | @unread key type entries failure hkey hindex htype hload =>
    obtain ⟨hexec, -⟩ := exec_remove_of_listed hkey hindex htype
    refine ⟨_, tree, hexec.trans (exec_bind_of_error ?_), .failed hget⟩
    rw [exec_load, hload]
  | @stale key type entries entities hkey hindex htype hload hfind =>
    obtain ⟨hexec, hrest⟩ := exec_remove_of_listed hkey hindex htype
    obtain ⟨tree', hlisted, hrewrites⟩ := exec_removeListed_of_none hload hfind (hrest h)
    exact ⟨_, tree', hexec.trans hlisted, .stale hget hkey hindex htype hload hfind hrewrites⟩
  | @located key type entries entities e hlocated =>
    obtain ⟨hexec, hrest⟩ := exec_remove_of_listed hlocated.named hlocated.indexed hlocated.typed
    obtain ⟨between, tree', hlisted, hdocument, hindex⟩ :=
      exec_removeListed_of_some hlocated.loaded hlocated.found (hrest h)
    exact ⟨_, tree', hexec.trans hlisted, .found hlocated hdocument hindex⟩

/-! ## The three lookups -/

/-- The type that the index of a tree names for an identity. -/
def Indexed (root : String) (c : EntityClass) (id : Id) (tree : FileTree) (type : String) : Prop :=
  ∃ key, id.requireText = .ok key ∧ (typeOf root c key).exec tree = (.ok (some type), tree)

theorem indexed_iff {type : String} :
    Indexed root c id tree type ↔ ∃ key index, id.requireText = .ok key
      ∧ (tree.shelf root c).index = .ok index ∧ Entries.get? key index = some type := by
  constructor
  · rintro ⟨key, hkey, htype⟩
    rw [exec_typeOf] at htype
    cases hindex : (tree.shelf root c).index with
    | error failure => rw [hindex] at htype; cases htype
    | ok index =>
      rw [hindex] at htype
      exact ⟨key, index, hkey, rfl, Except.ok.inj (Prod.mk.inj htype).1⟩
  · rintro ⟨key, index, hkey, hindex, htype⟩
    refine ⟨key, hkey, ?_⟩
    rw [exec_typeOf, hindex]
    exact congrArg (fun found => (Except.ok found, tree)) htype

/-- The answers of a lookup, of locating and of a removal that agree on an identity. -/
structure Concur (root : String) (c : EntityClass) (id : Id) (tree : FileTree)
    (got : Outcome (Option (Entity c))) (located : Outcome (String × Entity c))
    (removed : Outcome (Entity c)) : Prop where
  found_located : ∀ e, got = .ok (some e) ↔
    ∃ type, Indexed root c id tree type ∧ located = .ok (type, e)
  found_removed : ∀ e, got = .ok (some e) ↔ removed = .ok e
  missing_located : got = .ok none ↔ located = .error (.notFound c id)
  missing_removed : got = .ok none ↔ removed = .error (.notFound c id)
  failed_located : ∀ failure, got = .error failure ↔
    located = .error failure ∧ failure ≠ .notFound c id
  failed_removed : ∀ failure, got = .error failure ↔
    removed = .error failure ∧ failure ≠ .notFound c id

/-- Three lookups that find the same entity agree. -/
theorem concur_of_found {e : Entity c} {type : String} (htype : Indexed root c id tree type) :
    Concur root c id tree (.ok (some e)) (.ok (type, e)) (.ok e) where
  found_located x := by
    constructor
    · intro h
      obtain rfl : e = x := by simpa using h
      exact ⟨type, htype, rfl⟩
    · rintro ⟨other, -, h⟩
      obtain ⟨rfl, rfl⟩ : type = other ∧ e = x := by simpa using h
      rfl
  found_removed x := by simp
  missing_located := by simp
  missing_removed := by simp
  failed_located failure := by simp
  failed_removed failure := by simp

/-- Three lookups that find nothing agree. -/
theorem concur_of_missing :
    Concur root c id tree (.ok none) (.error (.notFound c id)) (.error (.notFound c id)) where
  found_located x := by simp
  found_removed x := by simp
  missing_located := by simp
  missing_removed := by simp
  failed_located failure := by simpa using fun h => Eq.symm h
  failed_removed failure := by simpa using fun h => Eq.symm h

/-- One failure in answers of two kinds, if it is not that an entity is missing. -/
theorem error_iff_of_ne {α β : Type} {failure : Failure} (h : failure ≠ .notFound c id)
    (other : Failure) : (.error failure : Outcome α) = .error other ↔
      (.error failure : Outcome β) = .error other ∧ other ≠ .notFound c id := by
  constructor
  · intro he
    obtain rfl := Except.error.inj he
    exact ⟨rfl, h⟩
  · rintro ⟨he, -⟩
    exact congrArg Except.error (Except.error.inj he)

/-- Three lookups that fail alike agree. -/
theorem concur_of_failed {failure : Failure} (h : failure ≠ .notFound c id) :
    Concur root c id tree (.error failure) (.error failure) (.error failure) where
  found_located x := by simp
  found_removed x := by simp
  missing_located := by simpa using h
  missing_removed := by simpa using h
  failed_located := error_iff_of_ne h
  failed_removed := error_iff_of_ne h

theorem Withdraws.concur {outcome : Outcome (Entity c)}
    (h : Withdraws tree root id outcome tree') :
    Concur root c id tree ((tree.shelf root c).get id) ((tree.shelf root c).locate id) outcome := by
  have hseeks := (tree.shelf root c).seeks id
  cases h with
  | failed hget =>
    rw [hget] at hseeks ⊢
    rw [hseeks.locate_of_error]
    exact concur_of_failed (hseeks.ofKeeping.ne_notFound c id)
  | unlisted hget hkey hindex htype =>
    rw [hget] at hseeks ⊢
    rw [hseeks.locate_of_none]
    exact concur_of_missing
  | stale hget hkey hindex htype hload hfind hrewrites =>
    rw [hget] at hseeks ⊢
    rw [hseeks.locate_of_none]
    exact concur_of_missing
  | found hlocated hdocument hindex =>
    rw [hlocated.get_eq, hlocated.locate_eq]
    exact concur_of_found (indexed_iff.2 ⟨_, _, hlocated.named, hlocated.indexed, hlocated.typed⟩)

/-! ## What a removal leaves -/

/-- What the documents hold after a removal that has found an entity or missed it.  The index
    has lost what it said of the identity and nothing else, and no other document is read in
    another way than before.  The document that the index named is as it was if it lacks the
    identity; else its first entity of the identity is gone, and the others stand in their order,
    each as printing and reading gives it back: as it was, if its numbers are read as printed. -/
structure Withdrawn (root : String) (c : EntityClass) (id : Id) (tree tree' : FileTree)
    (removed : Outcome (Entity c)) : Prop where
  index : ∃ key entries, id.requireText = .ok key
    ∧ (Catalog.index root c).exec tree = (.ok entries, tree)
    ∧ (Catalog.index root c).exec tree' = (.ok (entries.filter fun entry => entry.1 ≠ key), tree')
  others : ∀ f : StoredFile, f.Accepted → f ≠ .index c →
    (∀ type, Indexed root c id tree type → f ≠ .entities type c) →
    tree'.read (f.path root) = tree.read (f.path root)
  document : ∀ e, removed = .ok e → ∃ type entities, Indexed root c id tree type
    ∧ (load root c type).exec tree = (.ok entities, tree)
    ∧ entities.find? (fun x => x.id.same id) = some e
    ∧ (load root c type).exec tree'
      = (.ok ((entities.eraseP fun x => x.id.same id).map Entity.reread), tree')
    ∧ ∀ x ∈ entities, x.Proper (fun n => n.reread = n) → x.reread = x
  spared : removed = .error (.notFound c id) → ∀ type, Indexed root c id tree type →
    tree'.read (Naming.documentPath root type c) = tree.read (Naming.documentPath root type c)
  forgotten : (get root c id).exec tree' = (.ok none, tree')

section Leaves

variable {key type : String} {index : Entries String}

theorem entities_ne_index (type : String) (c c' : EntityClass) :
    StoredFile.entities type c ≠ .index c' := by
  intro h
  cases h

/-- The index after it was rewritten without an identity. -/
theorem index_of_rewrites (hkeys : (Entries.keys index).Nodup)
    (h : tree.Rewrites tree' root (.index c) (Document.indexText (index.erase key))) :
    (tree'.shelf root c).index = .ok (index.erase key) := by
  have htext : tree'.read (Naming.indexPath root c)
      = .ok (Document.indexText (index.erase key)) := h.here
  show Document.payload _ _ (tree'.read (Naming.indexPath root c)) = _
  rw [htext]
  exact Document.decode_indexText (Entries.nodup_keys_erase hkeys key)

/-- Nothing is found under an identity that the index has lost. -/
theorem get_of_erased (hkey : id.requireText = .ok key) (hkeys : (Entries.keys index).Nodup)
    (h : (tree'.shelf root c).index = .ok (index.erase key)) :
    (get root c id).exec tree' = (.ok none, tree') := by
  rw [exec_get, Shelf.get, hkey, h]
  simp only [bind, Except.bind, Entries.get?_erase_self hkeys]
  rfl

theorem Indexed.unique (hkey : id.requireText = .ok key)
    (hindex : (tree.shelf root c).index = .ok index) (htype : Entries.get? key index = some type)
    {other : String} (h : Indexed root c id tree other) : other = type := by
  obtain ⟨key', index', hkey', hindex', htype'⟩ := indexed_iff.1 h
  obtain rfl : key = key' := Except.ok.inj (hkey.symm.trans hkey')
  obtain rfl : index = index' := Except.ok.inj (hindex.symm.trans hindex')
  exact Option.some.inj (htype'.symm.trans htype)

/-- What a removal leaves that finds nothing where the index leads. -/
theorem withdrawn_of_stale {entities : List (Entity c)} (hkey : id.requireText = .ok key)
    (hindex : (tree.shelf root c).index = .ok index) (htype : Entries.get? key index = some type)
    (hload : (tree.shelf root c).load type = .ok entities)
    (h : tree.Rewrites tree' root (.index c) (Document.indexText (index.erase key))) :
    Withdrawn root c id tree tree' (.error (.notFound c id)) := by
  have hkeys := FileTree.nodup_keys_index hindex
  have hindex' := index_of_rewrites hkeys h
  refine ⟨⟨key, index, hkey, ?_, ?_⟩, ?_, ?_, ?_, get_of_erased hkey hkeys hindex'⟩
  · rw [exec_index, hindex]
  · rw [exec_index, hindex', Entries.erase_eq_filter hkeys]
  · intro f hf hne _
    exact h.elsewhere f hf hne
  · intro e he
    cases he
  · intro _ other hother
    obtain rfl := Indexed.unique hkey hindex htype hother
    exact h.elsewhere (.entities other c) (Shelf.checkType_of_load hload)
      (entities_ne_index other c c)

/-- What a removal leaves that finds an entity. -/
theorem withdrawn_of_found {entities : List (Entity c)} {e : Entity c} {between : FileTree}
    (hlocated : (tree.shelf root c).Located id key type index entities e)
    (hdocument : tree.Rewrites between root (.entities type c)
      (Document.entitiesText (removeFirst id entities)))
    (h : between.Rewrites tree' root (.index c) (Document.indexText (index.erase key))) :
    Withdrawn root c id tree tree' (.ok e) := by
  have hkeys := FileTree.nodup_keys_index hlocated.indexed
  have hindex' := index_of_rewrites hkeys h
  have hcheck := Shelf.checkType_of_load hlocated.loaded
  have hindexed : Indexed root c id tree type :=
    indexed_iff.2 ⟨key, index, hlocated.named, hlocated.indexed, hlocated.typed⟩
  refine ⟨⟨key, index, hlocated.named, ?_, ?_⟩, ?_, ?_, ?_,
    get_of_erased hlocated.named hkeys hindex'⟩
  · rw [exec_index, hlocated.indexed]
  · rw [exec_index, hindex', Entries.erase_eq_filter hkeys]
  · -- each of the two writes leaves all files but its own
    intro f hf hne hother
    rw [h.elsewhere f hf hne, hdocument.elsewhere f hf (hother type hindexed)]
  · intro x hx
    obtain rfl := Except.ok.inj hx
    refine ⟨type, entities, hindexed, ?_, hlocated.found, ?_,
      fun x _ hx => hx.reread_of_same fun _ hn => hn⟩
    · rw [exec_load, hlocated.loaded]
    · -- the document is read from the text that the first of the two writes has left
      have htext : (tree'.shelf root c).text type
          = .ok (Document.entitiesText (removeFirst id entities)) := by
        simp only [FileTree.shelf, hcheck]
        exact (h.elsewhere (.entities type c) hcheck (entities_ne_index type c c)).trans
          hdocument.here
      have hkept : ∀ x ∈ removeFirst id entities, x ∈ entities :=
        fun x hx => (removeFirst_sublist id entities).subset hx
      have hread := Document.decode_entitiesText_of_load hlocated.loaded hkept
      rw [exec_load, Shelf.load, hcheck, htext, ← removeFirst_eq_eraseP]
      simp only [Document.payload, hread]
  · intro he
    cases he

end Leaves

theorem Withdraws.withdrawn {outcome : Outcome (Entity c)}
    (h : Withdraws tree root id outcome tree')
    (hanswered : (∃ e, outcome = .ok e) ∨ outcome = .error (.notFound c id)) :
    Withdrawn root c id tree tree' outcome := by
  cases h with
  | @failed failure hget =>
    have hseeks := (tree.shelf root c).seeks id
    rw [hget] at hseeks
    -- a lookup never fails for want of the entity, so here the removal has not answered
    have hother := hseeks.ofKeeping.ne_notFound c id
    rcases hanswered with ⟨e, he⟩ | he
    · cases he
    · exact absurd (Except.error.inj he) hother
  | @unlisted key index hget hkey hindex htype =>
    have hlacks : ∀ entry ∈ index, decide (entry.1 ≠ key) = true := by
      intro entry hentry
      have hkeys := Entries.get?_eq_none_iff.1 htype
      simpa using fun he : entry.1 = key => hkeys (he ▸ List.mem_map_of_mem hentry)
    have hindexed : (Catalog.index root c).exec tree = (.ok index, tree) := by
      rw [exec_index, hindex]
    refine ⟨⟨key, index, hkey, hindexed, ?_⟩, fun f _ _ _ => rfl, nofun, fun _ _ _ => rfl, ?_⟩
    · rw [hindexed, List.filter_eq_self.2 hlacks]
    · rw [exec_get, hget]
  | stale hget hkey hindex htype hload hfind hrewrites =>
    exact withdrawn_of_stale hkey hindex htype hload hrewrites
  | found hlocated hdocument hindex => exact withdrawn_of_found hlocated hdocument hindex

/-! ## Lookups and removals -/

/-- On every tree, whatever its documents hold, looking an identity up, locating it and removing
    it give the same entity, miss it or fail alike, as long as the writes of the removal are
    served; looking changes nothing; and a removal that finds the entity or misses it takes the
    identity out of the index and its first entity out of the document, if it is there. -/
theorem lookups_concur (h : (remove root c id).ChangesServed tree) :
    ((get root c id).exec tree).2 = tree ∧ ((locate root c id).exec tree).2 = tree
      ∧ Concur root c id tree ((get root c id).exec tree).1 ((locate root c id).exec tree).1
        ((remove root c id).exec tree).1
      ∧ ((∃ e, ((remove root c id).exec tree).1 = .ok e)
          ∨ ((remove root c id).exec tree).1 = .error (.notFound c id) →
        Withdrawn root c id tree ((remove root c id).exec tree).2
          ((remove root c id).exec tree).1) := by
  obtain ⟨outcome, tree', hexec, hwithdraws⟩ := exec_remove_of_served h
  rw [exec_get, exec_locate, hexec]
  exact ⟨rfl, rfl, hwithdraws.concur, hwithdraws.withdrawn⟩

/-- A tree whose index names one document that holds its entity twice, once in each form, and
    another one that does not exist. -/
def muddledTree : FileTree :=
  ⟨[(["g"], .directory),
    (["g", "node.id2type.json"],
      .file "\x7b\"data\":\x7b\"n1\":\"A\",\"n2\":\"B\"\x7d\x7d"),
    (["g", "A.node.json"],
      .file "\x7b\"data\":[\x7b\"id\":\"n1\",\"type\":\"A\"\x7d,[\"n1\",\"C\",\x7b\x7d]]\x7d")],
    []⟩

theorem lookups_concur_muddled :
    (∃ e, ((remove "/g" .node (.ofString "n1")).exec muddledTree).1 = .ok e
        ∧ ((get "/g" .node (.ofString "n1")).exec muddledTree).1 = .ok (some e)
        ∧ Withdrawn "/g" .node (.ofString "n1") muddledTree
          ((remove "/g" .node (.ofString "n1")).exec muddledTree).2 (.ok e))
      ∧ ((remove "/g" .node (.ofString "n2")).exec muddledTree).1
        = .error (.notFound .node (.ofString "n2"))
      ∧ Withdrawn "/g" .node (.ofString "n2") muddledTree
          ((remove "/g" .node (.ofString "n2")).exec muddledTree).2
          (.error (.notFound .node (.ofString "n2"))) := by
  obtain ⟨-, -, hconcur, hwithdrawn⟩ := lookups_concur
    (show (remove "/g" .node (.ofString "n1")).ChangesServed muddledTree by decide +kernel)
  obtain ⟨-, -, hconcur', hwithdrawn'⟩ := lookups_concur
    (show (remove "/g" .node (.ofString "n2")).ChangesServed muddledTree by decide +kernel)
  have hfound : ((remove "/g" .node (.ofString "n1")).exec muddledTree).1.isOk = true := by
    decide +kernel
  have hnone : ((get "/g" .node (.ofString "n2")).exec muddledTree).1 = .ok none := by
    have hblank : ((get "/g" .node (.ofString "n2")).exec muddledTree).1.toOption.map Option.isNone
        = some true := by
      decide +kernel
    cases hget : ((get "/g" .node (.ofString "n2")).exec muddledTree).1 with
    | error failure => rw [hget] at hblank; cases hblank
    | ok found =>
      rw [hget] at hblank
      cases found with
      | none => rfl
      | some e => cases hblank
  have hmissing := hconcur'.missing_removed.1 hnone
  rw [hmissing] at hwithdrawn'
  cases hremoved : ((remove "/g" .node (.ofString "n1")).exec muddledTree).1 with
  | error failure => rw [hremoved] at hfound; cases hfound
  | ok e =>
    rw [hremoved] at hconcur hwithdrawn
    exact ⟨⟨e, rfl, (hconcur.found_removed e).2 rfl, hwithdrawn (.inl ⟨e, rfl⟩)⟩, hmissing,
      hwithdrawn' (.inr rfl)⟩

/-! ## What printing and reading does -/

/-- The texts of entities that were read. -/
def textsOf : Outcome (List (Entity c)) → List String
  | .ok entities => entities.map fun e => e.toJson.text
  | .error _ => []

/-- A tree with an entity of which a number is not read as it is printed. -/
def driftingTree : FileTree :=
  ⟨[(["g"], .directory),
    (["g", "node.id2type.json"], .file "\x7b\"data\":\x7b\"n1\":\"A\",\"n2\":\"A\"\x7d\x7d"),
    (["g", "A.node.json"],
      .file ("\x7b\"data\":[\x7b\"id\":\"n1\",\"type\":\"A\",\"properties\":\x7b\x7d\x7d,"
        ++ "\x7b\"id\":\"n2\",\"type\":\"A\",\"properties\":\x7b\"x\":1e-24\x7d\x7d]\x7d"))],
    []⟩

/-- Removing an entity can change a double of another one in the same document. -/
theorem neighbour_drifts :
    (remove "/g" .node (.ofString "n1")).ChangesServed driftingTree
      ∧ ((remove "/g" .node (.ofString "n1")).exec driftingTree).1.isOk = true
      ∧ ((load "/g" .node "A").exec ((remove "/g" .node (.ofString "n1")).exec driftingTree).2).1
        ≠ ((load "/g" .node "A").exec driftingTree).1.map fun entities =>
            entities.eraseP fun x => x.id.same (.ofString "n1") := by
  refine ⟨by decide +kernel, by decide +kernel, fun h => ?_⟩
  have htexts := congrArg textsOf h
  revert htexts
  decide +kernel

end Catalog

end PropertyGraph
