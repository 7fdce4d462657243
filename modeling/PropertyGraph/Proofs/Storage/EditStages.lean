/-
  PropertyGraph.Proofs.Storage.EditStages

  The stages that an edit takes the shelf of its class through.  An entity that stays in its
  document, or that is not placed anew, takes one write.  An entity that moves leaves its document
  first, and then comes into the other one, into the index and into the list of types, one write
  each: in between, a shelf has lost the entity, or has it where no index leads.
-/
import PropertyGraph.Proofs.Storage.Contents
import PropertyGraph.Proofs.Storage.Interleaving

namespace PropertyGraph

open FileProgram (Passes Looks Sees)
open FileTree (Hosts Writable)
open Naming (checkType documentStem indexStem typeListStem)

variable {c : EntityClass} {g : Engine} {p : Number → Prop} {root : String} {base : Place}
  {tree tree' : FileTree} {used : List String}

/-! ## The stages of an edit -/

/-- After an update of one class only its shelf is another one. -/
theorem FileTree.Updates.shelves {s : Shelf c} (h : tree.Updates tree' root base s) :
    tree'.shelf root = Function.update (tree.shelf root) c s := by
  funext c'
  by_cases hclass : c' = c
  · subst hclass
    rw [Function.update_self]
    exact h.here
  · rw [Function.update_of_ne hclass]
    exact h.other c' hclass

namespace Shelf

variable {s : Shelf c}

/-- The shelves of a class while the type of an identity is recorded: first in the index, then in
    the list of types, if that lacks it. -/
def recordings (s : Shelf c) (index : Entries String) (types : List String) (key type : String) :
    List (Shelf c) :=
  s :: s.setIndex (index.insert key type) :: (Catalog.addType types type).toList.map fun types =>
    (s.setIndex (index.insert key type)).setTypes types

/-- The shelves of a class while an entity is changed, up to the last one: nothing has changed, or
    one document has, or the entity has left its document, stands in another one, and is recorded
    there. -/
inductive Changes (s : Shelf c) (id : Id) (change : Entity c → Entity c) :
    List (Shelf c) → Shelf c → Prop where
  | still : Changes s id change [s] s
  | put (type : String) (entities : List (Entity c)) :
    Changes s id change [s, s.put type entities] (s.put type entities)
  | moved {key old : String} {index : Entries String} {entities entities' : List (Entity c)}
    {kept e : Entity c} {types : List String} {left placed : Shelf c} :
    s.Located id key old index entities kept → change kept = e → e.id = id → e.type ≠ old →
    s.load e.type = .ok entities' → s.types = .ok types →
    left = s.put old (entities.filter fun e => !e.id.same id) →
    placed = left.put e.type (entities' ++ [e]) →
    Changes s id change (s :: left :: placed.recordings index types key e.type)
      (placed.record key e.type)

end Shelf

namespace Catalog

theorem passes_store (h : tree.Hosts root base) {type : String} (hcheck : checkType type = .ok ())
    (hwritable : Writable root (documentStem type c)) (entities : List (Entity c)) :
    ∃ tree', (store root type entities).exec tree = (.ok (), tree')
      ∧ tree.Updates tree' root base ((tree.shelf root c).put type entities)
      ∧ (store root type entities).outcome.Passes root tree
        [tree.shelf root, tree'.shelf root] := by
  obtain ⟨tree', hexec, hput⟩ := exec_store h hcheck hwritable entities
  refine ⟨tree', hexec, hput, ?_⟩
  rw [store, Naming.documentPath_eq] at hexec ⊢
  exact FileTask.passes_replace h.rooted (Naming.plainStem_document c hcheck) hexec

theorem passes_storeIndex (h : tree.Hosts root base) (hwritable : Writable root (indexStem c))
    {entries : Entries String} (hkeys : (Entries.keys entries).Nodup) :
    ∃ tree', (storeIndex root c entries).exec tree = (.ok (), tree')
      ∧ tree.Updates tree' root base ((tree.shelf root c).setIndex entries)
      ∧ (storeIndex root c entries).outcome.Passes root tree
        [tree.shelf root, tree'.shelf root] := by
  obtain ⟨tree', hexec, hset⟩ := exec_storeIndex h hwritable hkeys
  refine ⟨tree', hexec, hset, ?_⟩
  rw [storeIndex, Naming.indexPath_eq] at hexec ⊢
  exact FileTask.passes_replace h.rooted (Naming.plainStem_index c) hexec

/-- The stages of recording a type. -/
theorem passes_record (h : tree.Hosts root base) (hwritable : Writable root (indexStem c))
    {entries : Entries String} (hindex : (tree.shelf root c).index = .ok entries)
    (hkeys : (Entries.keys entries).Nodup) {list : List String}
    (htypes : (tree.shelf root c).types = .ok list) (key type : String) :
    (record root c key type).outcome.Passes root tree
      (((tree.shelf root c).recordings entries list key type).map
        (Function.update (tree.shelf root) c)) := by
  have hread : (Catalog.index root c).exec tree = (.ok entries, tree) := by rw [exec_index, hindex]
  obtain ⟨tree₁, hstore, hset, hstored⟩ :=
    passes_storeIndex h hwritable (Entries.nodup_keys_insert hkeys key type)
  have hlisted : (Catalog.types root c).exec tree₁ = (.ok list, tree₁) := by
    rw [exec_types, hset.here]
    exact congrArg (·, tree₁) htypes
  have hfirst : Function.update (tree.shelf root) c (tree.shelf root c) = tree.shelf root :=
    Function.update_eq_self c _
  rw [record]
  refine FileTask.passes_bind_of_look (looks_index root c) hread ?_
  rw [Shelf.recordings, List.map_cons, List.map_cons, hfirst, ← hset.shelves]
  refine FileTask.passes_bind_of_change hstored hstore ?_
  refine FileTask.passes_bind_of_look (looks_types root c) hlisted ?_
  -- The second document is written only if the type is new; otherwise there are two stages.
  cases hadd : addType list type with
  | none => exact .done _ tree₁
  | some list' =>
    obtain ⟨tree₂, hexec, hreplaces⟩ := FileTask.exec_replace hset.hosts
      (Naming.plainStem_typeList c) (writable_typeList hwritable) (Document.typeListText list')
    have hend := (hreplaces.updates_setTypes hset.hosts.rooted).shelves
    rw [hset.here, hset.shelves, Function.update_idem] at hend
    simp only [Naming.typeListPath_eq, Option.toList_some, List.map_cons, List.map_nil, ← hend]
    exact FileTask.passes_replace hset.hosts.rooted (Naming.plainStem_typeList c) hexec

/-- The stages of inserting an entity: nothing changes, or it is placed and recorded. -/
theorem passes_insert (h : tree.Hosts root base) (hready : (tree.shelf root c).Ready root)
    (hwritable : Writable root (indexStem c)) {e : Entity c} {key : String}
    (hid : e.id.requireText = .ok key) :
    (insert root e).outcome.Passes root tree [tree.shelf root]
      ∨ ∃ entities index types, (tree.shelf root c).load e.type = .ok entities
        ∧ (tree.shelf root c).index = .ok index ∧ (tree.shelf root c).types = .ok types
        ∧ (insert root e).outcome.Passes root tree
          ((tree.shelf root c :: ((tree.shelf root c).put e.type
            (entities ++ [e])).recordings index types key e.type).map
              (Function.update (tree.shelf root) c)) := by
  have hload : (load root c e.type).exec tree = ((tree.shelf root c).load e.type, tree) :=
    exec_load ..
  cases hcheck : checkType e.type with
  | error f =>
    rw [insert, hcheck]
    exact .inl (FileTask.passes_bind_of_error (.done _ tree) rfl)
  | ok u =>
    rw [insert, hcheck, hid]
    cases hentities : (tree.shelf root c).load e.type with
    | error f =>
      rw [hentities] at hload
      refine .inl (FileTask.passes_bind_of_look trivial rfl ?_)
      refine FileTask.passes_bind_of_look trivial rfl ?_
      exact FileTask.passes_bind_of_error ((looks_load root c e.type).passes tree).1 hload
    | ok entities =>
      rw [hentities] at hload
      -- the document has been read, and is written next
      have hread : ∀ stages,
          (store root e.type (entities ++ [e]) >>= fun _ =>
            record root c key e.type).outcome.Passes root tree stages →
          (FileTask.ofOutcome (.ok u) >>= fun _ => FileTask.ofOutcome (.ok key) >>= fun key =>
            load root c e.type >>= fun entities => store root e.type (entities ++ [e]) >>= fun _ =>
              record root c key e.type).outcome.Passes root tree stages := fun stages hpasses =>
        FileTask.passes_bind_of_look trivial rfl (FileTask.passes_bind_of_look trivial rfl
          (FileTask.passes_bind_of_look (looks_load root c e.type) hload hpasses))
      by_cases hdocument : Writable root (documentStem e.type c)
      · obtain ⟨tree₁, hstore, hput, hstored⟩ :=
          passes_store h hcheck hdocument (entities ++ [e])
        have hready₁ : (tree₁.shelf root c).Ready root := hput.here ▸ hready.put hdocument _
        obtain ⟨⟨index, hindex⟩, types, htypes⟩ := hready₁.readable hwritable
        have hrecord := passes_record hput.hosts hwritable hindex (hready₁.keys index hindex) htypes
          key e.type
        have hupdate : Function.update (tree₁.shelf root) c
            = Function.update (tree.shelf root) c := by
          funext s
          rw [hput.shelves, Function.update_idem]
        rw [hput.here] at hindex htypes hrecord
        rw [hupdate] at hrecord
        refine .inr ⟨entities, index, types, rfl, hindex, htypes, hread _ ?_⟩
        rw [List.map_cons, Function.update_eq_self]
        exact FileTask.passes_bind_of_change hstored hstore hrecord
      · refine .inl (hread _ (FileTask.passes_bind_of_error ?_
          (exec_store_refused h hcheck hdocument _)))
        rw [store, Naming.documentPath_eq]
        exact FileTask.passes_replace_refused h.rooted (Naming.plainStem_document c hcheck)
          hdocument

/-- The stages of writing a changed entity. -/
theorem passes_put (change : Entity c → Entity c) (h : tree.Hosts root base)
    (hready : (tree.shelf root c).Ready root) {id : Id}
    {key old : String} {index : Entries String} {entities : List (Entity c)} {kept : Entity c}
    (hlocated : (tree.shelf root c).Located id key old index entities kept)
    (hid : (change kept).id = id)
    (hcheck : checkType (change kept).type = .ok ()) :
    ∃ shelves s', (tree.shelf root c).Changes id change shelves s'
      ∧ (put root old (change kept)).outcome.Passes root tree
        (shelves.map (Function.update (tree.shelf root) c)) := by
  have hold := Shelf.checkType_of_load hlocated.loaded
  have hwritable := hready.documents old hlocated.has
  have hload : (load root c old).exec tree = (.ok entities, tree) := by
    rw [exec_load, hlocated.loaded]
  rw [put, hcheck]
  by_cases hsame : (change kept).type = old
  · obtain ⟨tree₁, hstore, hput, hstored⟩ :=
      passes_store h hold hwritable (replaceFirst (change kept) entities)
    refine ⟨_, _, .put old (replaceFirst (change kept) entities), ?_⟩
    refine FileTask.passes_bind_of_look trivial rfl ?_
    refine FileTask.passes_bind_of_look (looks_load root c old) hload ?_
    rw [if_pos hsame, List.map_cons, List.map_cons, Function.update_eq_self, ← hput.shelves]
    exact hstored
  · obtain ⟨tree₁, hstore, hput, hstored⟩ :=
      passes_store h hold hwritable (entities.filter fun e => !e.id.same id)
    have hready₁ : (tree₁.shelf root c).Ready root := hput.here ▸ hready.put hwritable _
    have hupdate : Function.update (tree₁.shelf root) c = Function.update (tree.shelf root) c := by
      funext s
      rw [hput.shelves, Function.update_idem]
    -- an entity that moves has left its document when the insertion begins
    have hmove : ∀ stages, (insert root (change kept)).outcome.Passes root tree₁ stages →
        (FileTask.ofOutcome (.ok ()) >>= fun _ => load root c old >>= fun entities =>
          if (change kept).type = old then store root old (replaceFirst (change kept) entities)
          else store root old (entities.filter fun e => !e.id.same (change kept).id) >>= fun _ =>
            insert root (change kept)).outcome.Passes root tree (tree.shelf root :: stages) := by
      intro stages hpasses
      refine FileTask.passes_bind_of_look trivial rfl ?_
      refine FileTask.passes_bind_of_look (looks_load root c old) hload ?_
      rw [if_neg hsame, hid]
      exact FileTask.passes_bind_of_change hstored hstore hpasses
    rcases passes_insert hput.hosts hready₁ (hready.writable_index hlocated.indexed hlocated.typed)
        (hid ▸ hlocated.named)
      with hstill | ⟨entities', index', types, hload', hindex, htypes, hmoved⟩
    · -- the insertion is refused: what is left is the document without the entity
      refine ⟨_, _, .put old (entities.filter fun e => !e.id.same id), ?_⟩
      rw [List.map_cons, List.map_cons, Function.update_eq_self, ← hput.shelves]
      exact hmove _ hstill
    · rw [hput.here] at hload' hindex htypes hmoved
      rw [hupdate] at hmoved
      rw [Shelf.load_put_of_ne _ hsame] at hload'
      obtain rfl := Except.ok.inj (hlocated.indexed.symm.trans hindex)
      refine ⟨_, _, .moved hlocated rfl hid hsame hload' htypes rfl rfl, ?_⟩
      rw [List.map_cons, Function.update_eq_self]
      exact hmove _ hmoved

end Catalog

/-! ## Edits -/

namespace Engine

/-- The stages of an edit. -/
theorem Sound.passes_edit (h : g.Sound p used tree base) (hrules : g.rules = []) (stamp : Stamp)
    (id : Id) (patch : Patch c) :
    ∃ shelves s', (tree.shelf g.root c).Changes id (patch.apply · stamp.time) shelves s'
      ∧ (g.edit stamp id patch).outcome.Passes g.root tree
        (shelves.map (Function.update (tree.shelf g.root) c)) := by
  have hfind : (Catalog.locate g.root c id).exec tree
      = ((tree.shelf g.root c).locate id, tree) := Catalog.exec_locate ..
  have hstill : ([tree.shelf g.root c].map (Function.update (tree.shelf g.root) c))
      = [tree.shelf g.root] := by
    rw [List.map_singleton, Function.update_eq_self]
  cases hlocate : (tree.shelf g.root c).locate id with
  | error f =>
    rw [hlocate] at hfind
    refine ⟨_, _, .still, ?_⟩
    rw [hstill]
    exact FileTask.passes_bind_of_error ((Catalog.looks_locate g.root c id).passes tree).1 hfind
  | ok found =>
    obtain ⟨old, kept⟩ := found
    rw [hlocate] at hfind
    obtain ⟨key, index, entities, hlocated⟩ := Shelf.located_of_locate hlocate
    have hid : (patch.apply kept stamp.time).id = id :=
      (h.finds c _ _ _ _ _ _ hlocated).id.trans hlocated.id_eq.symm
    -- without rules all that is left are the check of the type and the documents
    have hrest : ∀ stages, (FileTask.ofOutcome (checkType (patch.apply kept stamp.time).type) >>=
          fun _ => Catalog.put g.root old (patch.apply kept stamp.time) >>= fun _ =>
            (pure (patch.apply kept stamp.time) : FileTask (Entity c))).outcome.Passes
          g.root tree stages →
        (g.edit stamp id patch).outcome.Passes g.root tree stages := by
      intro stages hpasses
      refine FileTask.passes_bind_of_look (Catalog.looks_locate g.root c id) hfind ?_
      show (g.view kept >>= fun seen => _).outcome.Passes g.root tree stages
      rw [view_eq_pure hrules]
      simp only [discard_eq_pure hrules, stored_eq_pure hrules]
      exact hpasses
    cases hcheck : checkType (patch.apply kept stamp.time).type with
    | error f =>
      refine ⟨_, _, .still, hrest _ ?_⟩
      rw [hstill, hcheck]
      exact FileTask.passes_bind_of_error (.done _ tree) rfl
    | ok u =>
      obtain ⟨shelves, s', hchanges, hpasses⟩ := Catalog.passes_put (patch.apply · stamp.time)
        h.hosts (h.ready c) hlocated hid hcheck
      refine ⟨shelves, s', hchanges, hrest _ ?_⟩
      rw [hcheck]
      exact FileTask.passes_bind_of_look trivial rfl (FileTask.passes_bind_pure hpasses _)

end Engine

end PropertyGraph
