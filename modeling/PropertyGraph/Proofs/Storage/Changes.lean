/-
  PropertyGraph.Proofs.Storage.Changes

  All results of creating, editing and removing an entity.  A call that fails may have
  failed before it changed anything that can be seen, and an edit that takes its entity to
  another type may have failed in between, when the entity has left its old document and
  has not reached the new one.
-/
import PropertyGraph.Proofs.Storage.Engine

namespace PropertyGraph

open FileTree (Hosts Writable ChangesOnly DocumentName)
open Naming (checkType documentStem indexStem rawLast)

variable {c : EntityClass} {g : Engine} {p : Number → Prop} {tree tree' : FileTree}
  {base : Place} {key type : String}

/-! ## What owners give -/

/-- All values of a body are proper. -/
structure Body.Proper (p : Number → Prop) (body : Body c) : Prop where
  properties : (Json.object body.properties).Proper p
  ends : c.ProperEnds p body.ends

/-- All new endpoints are proper values. -/
def EntityClass.ProperEndsPatch (p : Number → Prop) : (c : EntityClass) → c.EndsPatch → Prop
  | .node, _ => True
  | .relationship, (patch : EndpointsPatch) =>
    (∀ id, patch.startId = some id → id.value.Proper p)
      ∧ ∀ id, patch.endId = some id → id.value.Proper p

/-- All values of a patch are proper. -/
structure Patch.Proper (p : Number → Prop) (patch : Patch c) : Prop where
  properties : ∀ bag, patch.properties = some bag → (Json.object bag).Proper p
  ends : c.ProperEndsPatch p patch.ends

theorem EntityClass.proper_applyEnds {patch : c.EndsPatch} {ends : c.Ends}
    (hpatch : c.ProperEndsPatch p patch) (hends : c.ProperEnds p ends) :
    c.ProperEnds p (c.applyEnds patch ends) := by
  cases c with
  | node => trivial
  | relationship =>
    have hend : ∀ (new : Option Id) (old : Id), (∀ id, new = some id → id.value.Proper p) →
        old.value.Proper p → (new.getD old).value.Proper p := by
      intro new old hnew hold
      cases new with
      | none => exact hold
      | some id => exact hnew id rfl
    exact ⟨hend _ _ hpatch.1 hends.1, hend _ _ hpatch.2 hends.2⟩

theorem Body.Proper.create {body : Body c} (h : body.Proper p) (key : String) {time : Int}
    (htime : TimeFits time) : (body.create (.ofString key) (some time)).Proper p where
  id := trivial
  properties := h.properties
  ends := h.ends
  time t ht := by
    obtain rfl : time = t := Option.some.inj ht
    exact htime

theorem Patch.Proper.apply {patch : Patch c} (h : patch.Proper p) {e : Entity c} (he : e.Proper p)
    {time : Int} (htime : TimeFits time) : (patch.apply e time).Proper p where
  id := he.id
  properties := by
    rw [Patch.apply]
    cases hbag : patch.properties with
    | none => exact he.properties
    | some bag => exact h.properties bag hbag
  ends := EntityClass.proper_applyEnds h.ends he.ends
  time t ht := by
    obtain rfl : time = t := Option.some.inj ht
    exact htime

namespace Engine

/-- An entity stands as it should in the document of a type. -/
structure Kept (g : Engine) (p : Number → Prop) (tree : FileTree) (base : Place)
    (key type : String) (e : Entity c) : Prop where
  type : e.type = type
  id : e.id = .ofString key
  proper : e.Proper p
  keeps : g.Keeps tree base key e

theorem Kept.of_changesOnly {e : Entity c} {touched : String → Prop}
    (h : g.Kept p tree base key type e) (hchange : tree.ChangesOnly tree' touched)
    (hname : c = .node → ¬ touched (rawLast key)) : g.Kept p tree' base key type e :=
  ⟨h.type, h.id, h.proper, h.keeps.of_changesOnly hchange hname⟩

theorem Kept.requireText {e : Entity c} (h : g.Kept p tree base key type e) :
    e.id.requireText = .ok key := by
  rw [h.id]
  rfl

/-- The stored form of a proper entity is kept. -/
theorem StoredAs.kept {e s : Entity c} (h : g.StoredAs p tree base key e s)
    (hid : e.id = .ofString key) (hproper : e.Proper p) : g.Kept p tree base key e.type s :=
  ⟨h.rebagged.type, h.rebagged.id.trans hid, h.rebagged.proper hproper, h.keeps⟩

/-! ## Creating -/

/-- The entity that a body makes. -/
def created (g : Engine) (stamp : Stamp) (body : Body c) : Entity c :=
  body.create (.fresh g.idPrefix stamp.unique) (some stamp.time)

theorem proper_created {stamp : Stamp} {body : Body c} (h : body.Proper p)
    (htime : TimeFits stamp.time) : (g.created stamp body).Proper p :=
  h.create _ htime

/-- The results of creating an entity. -/
inductive Creates (g : Engine) (p : Number → Prop) (tree : FileTree) (base : Place)
    (stamp : Stamp) (body : Body c) : Outcome (Entity c) → FileTree → Prop where
  /-- no document has changed -/
  | refused (f : Failure) (tree' : FileTree) :
    tree.Becomes tree' g.root base (g.keyOf stamp.unique) (tree.shelf g.root c) →
    f.OfFiles ∨ tree' = tree →
    Creates g p tree base stamp body (.error f) tree'
  /-- the entity stands in its document, below a root where there is no index -/
  | unindexed (f : Failure) (tree' : FileTree) (entities : List (Entity c)) (s : Entity c) :
    f.OfFiles →
    (tree.shelf g.root c).load body.type = .ok entities →
    Writable g.root (documentStem body.type c) → ¬ Writable g.root (indexStem c) →
    g.Kept p tree' base (g.keyOf stamp.unique) body.type s →
    tree.Becomes tree' g.root base (g.keyOf stamp.unique)
      ((tree.shelf g.root c).put body.type (entities ++ [s])) →
    Creates g p tree base stamp body (.error f) tree'
  | done (tree' : FileTree) (entities : List (Entity c)) (s : Entity c) :
    (tree.shelf g.root c).load body.type = .ok entities →
    Writable g.root (documentStem body.type c) → Writable g.root (indexStem c) →
    g.Kept p tree' base (g.keyOf stamp.unique) body.type s →
    g.StoredAs p tree' base (g.keyOf stamp.unique) (g.created stamp body) s →
    tree.Becomes tree' g.root base (g.keyOf stamp.unique)
      (((tree.shelf g.root c).put body.type (entities ++ [s])).record
        (g.keyOf stamp.unique) body.type) →
    Creates g p tree base stamp body (.ok (g.created stamp body)) tree'

theorem exec_create (h : tree.Hosts g.root base) (hready : (tree.shelf g.root c).Ready g.root)
    (huniform : g.Uniform) {stamp : Stamp} (htime : TimeFits stamp.time) {body : Body c}
    (hproper : body.Proper p) (hplain : g.PlainBag c body.properties) :
    ∃ outcome tree', (g.create stamp body).exec tree = (outcome, tree')
      ∧ Creates g p tree base stamp body outcome tree' := by
  rw [create, FileTask.exec_bind, FileTask.exec_ofOutcome]
  cases hcheck : checkType body.type with
  | error f => exact ⟨_, _, rfl, .refused f tree (h.becomes_self _) (.inr rfl)⟩
  | ok u =>
    have hid : (g.created stamp body).id.requireText = .ok (g.keyOf stamp.unique) := rfl
    obtain ⟨first, tree₁, hstored, hstores⟩ := exec_stored h huniform hid hproper.properties hplain
    have hraw := h.becomes_raw hstores.change
    simp only
    cases first with
    | error f =>
      exact ⟨_, _, FileTask.exec_bind_of_error hstored,
        .refused f tree₁ hraw (.inl (hstores.fails f rfl))⟩
    | ok s =>
      have hform := hstores.stored s rfl
      -- writing documents does not touch the raw text of the new entity
      have hform' : ∀ tree₂, tree₁.ChangesOnly tree₂ DocumentName →
          g.StoredAs p tree₂ base (g.keyOf stamp.unique) (g.created stamp body) s :=
        fun tree₂ hchange => hform.of_changesOnly hchange fun _ => not_documentName_rawLast _
      have hkept' : ∀ tree₂, tree₁.ChangesOnly tree₂ DocumentName →
          g.Kept p tree₂ base (g.keyOf stamp.unique) body.type s := fun tree₂ hchange =>
        (hform' tree₂ hchange).kept rfl (proper_created hproper htime)
      have hkept := hkept' tree₁ (.refl _ _)
      have hready₁ : (tree₁.shelf g.root c).Ready g.root := hraw.here.symm ▸ hready
      obtain ⟨outcome, tree₂, hinsert, hresult⟩ := Catalog.exec_insert hraw.hosts hready₁
        hkept.requireText
      rw [show (g.stored (body.create (.fresh g.idPrefix stamp.unique) (some stamp.time)))
        = g.stored (g.created stamp body) from rfl, FileTask.exec_bind_of_ok hstored]
      cases hresult with
      | refused f hfiles =>
        rw [hkept.type] at hfiles
        exact ⟨_, _, FileTask.exec_bind_of_error hinsert,
          .refused f tree₁ hraw (.inl (hfiles hcheck))⟩
      | unindexed f _ entities hfiles hload hdocument hindex hput =>
        rw [hraw.here] at hload hput
        rw [hkept.type] at hload hput hdocument
        exact ⟨_, _, FileTask.exec_bind_of_error hinsert, .unindexed f tree₂ entities s
          hfiles hload hdocument hindex (hkept' tree₂ hput.change) (hraw.updates hput)⟩
      | done _ entities hload hdocument hindex hput =>
        rw [hraw.here] at hload hput
        rw [hkept.type] at hload hput hdocument
        refine ⟨_, _, FileTask.exec_bind_of_ok hinsert, .done tree₂ entities s hload
          hdocument hindex (hkept' tree₂ hput.change) (hform' tree₂ hput.change)
          (hraw.updates hput)⟩

/-! ## Editing -/

/-- An edit has found its entity and is about to take it to the document of another type: the
    new type is accepted, and the raw text has been written. -/
def MovesOut (g : Engine) (tree : FileTree) (stamp : Stamp) (id : Id) (patch : Patch c) : Prop :=
  ∃ old kept seen, ((Catalog.locate g.root c id).exec tree).1 = .ok (old, kept)
    ∧ ((g.view kept).exec tree).1 = .ok seen
    ∧ (patch.apply seen stamp.time).type ≠ old
    ∧ checkType (patch.apply seen stamp.time).type = .ok ()
    ∧ ∃ s, ((g.rewrite old kept (patch.apply seen stamp.time)).exec tree).1 = .ok s

/-- The results of editing an entity. -/
inductive Edits (g : Engine) (p : Number → Prop) (tree : FileTree) (base : Place) (stamp : Stamp)
    (id : Id) (patch : Patch c) : Outcome (Entity c) → FileTree → Prop where
  /-- nothing has changed -/
  | refused (f : Failure) : ¬ g.MovesOut tree stamp id patch →
    Edits g p tree base stamp id patch (.error f) tree
  /-- the raw text could not be written, the entity having none so far; no document has
  changed -/
  | unwritten (f : Failure) (tree' : FileTree) (key type : String) (index : Entries String)
    (entities : List (Entity c)) (kept : Entity c) :
    (tree.shelf g.root c).Located id key type index entities kept →
    ¬ g.MovesOut tree stamp id patch →
    tree.Becomes tree' g.root base key (tree.shelf g.root c) →
    (∀ tree'', g.Keeps tree'' base key kept) → f.OfFiles →
    Edits g p tree base stamp id patch (.error f) tree'
  /-- the entity has left its document and has not reached another one -/
  | lost (f : Failure) (tree' : FileTree) (key type : String) (index : Entries String)
    (entities : List (Entity c)) (kept seen : Entity c) : f.OfFiles →
    (tree.shelf g.root c).Located id key type index entities kept →
    (g.view kept).exec tree = (.ok seen, tree) →
    g.MovesOut tree stamp id patch →
    tree.Becomes tree' g.root base key
      ((tree.shelf g.root c).put type (entities.filter fun e => !e.id.same id)) →
    Edits g p tree base stamp id patch (.error f) tree'
  /-- the entity has changed in its document -/
  | changed (tree' : FileTree) (key type : String) (index : Entries String)
    (entities : List (Entity c)) (kept seen s : Entity c) :
    (tree.shelf g.root c).Located id key type index entities kept →
    Entity.Rebagged p kept seen →
    g.Kept p tree' base key type s →
    g.StoredAs p tree' base key (patch.apply seen stamp.time) s →
    tree.Becomes tree' g.root base key
      ((tree.shelf g.root c).put type (Catalog.replaceFirst s entities)) →
    Edits g p tree base stamp id patch (.ok (patch.apply seen stamp.time)) tree'
  /-- the entity has moved to the document of another type -/
  | moved (tree' : FileTree) (key type type' : String) (index : Entries String)
    (entities entities' : List (Entity c)) (kept seen s : Entity c) :
    (tree.shelf g.root c).Located id key type index entities kept →
    type' ≠ type → (tree.shelf g.root c).load type' = .ok entities' →
    Writable g.root (documentStem type' c) →
    Entity.Rebagged p kept seen →
    g.Kept p tree' base key type' s →
    g.StoredAs p tree' base key (patch.apply seen stamp.time) s →
    tree.Becomes tree' g.root base key
      ((((tree.shelf g.root c).put type (entities.filter fun e => !e.id.same id)).put type'
        (entities' ++ [s])).record key type') →
    Edits g p tree base stamp id patch (.ok (patch.apply seen stamp.time)) tree'

/-- What an edit relies on: the entities that it may find are kept as they should be. -/
def FindsKept (g : Engine) (p : Number → Prop) (tree : FileTree) (base : Place) (c : EntityClass) :
    Prop :=
  ∀ id key type index entities kept,
    (tree.shelf g.root c).Located id key type index entities kept →
    g.Kept p tree base key type kept

theorem plainBag_apply {patch : Patch c} {seen : Entity c} {time : Int}
    (hseen : g.PlainBag c seen.properties)
    (hpatch : ∀ bag, patch.properties = some bag → g.PlainBag c bag) :
    g.PlainBag c (patch.apply seen time).properties := by
  rw [Patch.apply]
  cases hbag : patch.properties with
  | none => exact hseen
  | some bag => exact hpatch bag hbag

/-- Whether an edit that has found its entity is about to move it. -/
theorem movesOut_iff {stamp : Stamp} {id : Id} {patch : Patch c} {kept seen : Entity c}
    (hlocate : (tree.shelf g.root c).locate id = .ok (type, kept))
    (hview : (g.view kept).exec tree = (.ok seen, tree)) :
    g.MovesOut tree stamp id patch ↔ (patch.apply seen stamp.time).type ≠ type
      ∧ checkType (patch.apply seen stamp.time).type = .ok ()
      ∧ ∃ s, ((g.rewrite type kept (patch.apply seen stamp.time)).exec tree).1 = .ok s := by
  constructor
  · rintro ⟨old, kept', seen', hfound, hview', hmoves⟩
    rw [Catalog.exec_locate, hlocate] at hfound
    obtain ⟨rfl, rfl⟩ := Prod.mk.inj (Except.ok.inj hfound)
    rw [hview] at hview'
    obtain rfl := Except.ok.inj hview'
    exact hmoves
  · intro hmoves
    exact ⟨type, kept, seen, by rw [Catalog.exec_locate, hlocate], by rw [hview], hmoves⟩

/-- An edit has found its entity and brought the changed one into its stored form; what is left
    are the documents. -/
structure Rewritten (g : Engine) (p : Number → Prop) (tree : FileTree) (base : Place)
    (stamp : Stamp) (id : Id) (patch : Patch c) (key type : String) (index : Entries String)
    (entities : List (Entity c)) (kept seen s : Entity c) (tree₁ : FileTree) : Prop where
  located : (tree.shelf g.root c).Located id key type index entities kept
  locate : (tree.shelf g.root c).locate id = .ok (type, kept)
  viewed : (g.view kept).exec tree = (.ok seen, tree)
  rebagged : Entity.Rebagged p kept seen
  accepted : checkType (patch.apply seen stamp.time).type = .ok ()
  id : (patch.apply seen stamp.time).id = .ofString key
  proper : (patch.apply seen stamp.time).Proper p
  rewritten : (g.rewrite type kept (patch.apply seen stamp.time)).exec tree = (.ok s, tree₁)
  stored : g.StoredAs p tree₁ base key (patch.apply seen stamp.time) s
  raw : tree.Becomes tree₁ g.root base key (tree.shelf g.root c)

namespace Rewritten

variable {stamp : Stamp} {id : Id} {patch : Patch c} {index : Entries String}
  {entities : List (Entity c)} {kept seen s : Entity c} {tree₁ tree₂ : FileTree}

/-- The stored form stays one while only documents change. -/
theorem storedAs
    (h : g.Rewritten p tree base stamp id patch key type index entities kept seen s tree₁)
    (hdocuments : tree₁.ChangesOnly tree₂ DocumentName) :
    g.StoredAs p tree₂ base key (patch.apply seen stamp.time) s :=
  h.stored.of_changesOnly hdocuments fun _ => not_documentName_rawLast _

theorem kept_of_type
    (h : g.Rewritten p tree base stamp id patch key type index entities kept seen s tree₁)
    (hdocuments : tree₁.ChangesOnly tree₂ DocumentName) : g.Kept p tree₂ base key s.type s := by
  have hkept := (h.storedAs hdocuments).kept h.id h.proper
  rw [hkept.type]
  exact hkept

theorem type_eq
    (h : g.Rewritten p tree base stamp id patch key type index entities kept seen s tree₁) :
    s.type = (patch.apply seen stamp.time).type :=
  (h.stored.kept h.id h.proper).type

theorem load_old
    (h : g.Rewritten p tree base stamp id patch key type index entities kept seen s tree₁) :
    (tree₁.shelf g.root c).load type = .ok entities := by
  rw [h.raw.here]
  exact h.located.loaded

/-- The type is as before, and the entity changes in its place. -/
theorem exec_put_same
    (h : g.Rewritten p tree base stamp id patch key type index entities kept seen s tree₁)
    (hready : (tree.shelf g.root c).Ready g.root) (hsame : s.type = type) :
    ∃ tree₂, (Catalog.put g.root type s).exec tree₁ = (.ok (), tree₂)
      ∧ g.Edits p tree base stamp id patch (.ok (patch.apply seen stamp.time)) tree₂ := by
  have hcheck : checkType s.type = .ok () := by
    rw [h.type_eq]
    exact h.accepted
  obtain ⟨tree₂, hput, hupdates⟩ := Catalog.exec_put_same h.raw.hosts hcheck
    (hsame ▸ h.load_old) (hsame ▸ hready.documents type h.located.has)
  rw [hsame] at hput
  rw [hsame, h.raw.here] at hupdates
  have hkept := h.kept_of_type hupdates.change
  rw [hsame] at hkept
  exact ⟨tree₂, hput, .changed tree₂ key type index entities kept seen s h.located h.rebagged hkept
    (h.storedAs hupdates.change) (h.raw.updates hupdates)⟩

/-- The type is another one: the entity leaves its document, and then it may fail to reach the
    other one. -/
theorem exec_put_moved
    (h : g.Rewritten p tree base stamp id patch key type index entities kept seen s tree₁)
    (hready : (tree.shelf g.root c).Ready g.root) (hne : s.type ≠ type) :
    ∃ outcome tree₂, (Catalog.put g.root type s).exec tree₁ = (outcome, tree₂)
      ∧ g.Edits p tree base stamp id patch (outcome.map fun _ => patch.apply seen stamp.time)
          tree₂ := by
  have hcheck : checkType s.type = .ok () := by
    rw [h.type_eq]
    exact h.accepted
  have hwritable := hready.documents type h.located.has
  have hindex := hready.writable_index h.located.indexed h.located.typed
  have hmoves : g.MovesOut tree stamp id patch :=
    (movesOut_iff h.locate h.viewed).2
      ⟨h.type_eq ▸ hne, h.accepted, s, congrArg Prod.fst h.rewritten⟩
  have hkept := h.kept_of_type (.refl _ _)
  -- the old document is written without the entity, whatever comes next
  obtain ⟨tree₂, hput, hupdates⟩ :=
    Catalog.exec_put_moved h.raw.hosts hne hcheck h.load_old hwritable
  have hgone : (entities.filter fun e => !e.id.same s.id)
      = entities.filter fun e => !e.id.same id := by
    rw [hkept.id, h.located.id_eq]
  rw [hgone, h.raw.here] at hupdates
  -- then the entity is inserted as a new one is
  have hready₂ : (tree₂.shelf g.root c).Ready g.root :=
    hupdates.here.symm ▸ hready.put hwritable _
  obtain ⟨outcome, tree₃, hinsert, hresult⟩ :=
    Catalog.exec_insert hupdates.hosts hready₂ hkept.requireText
  refine ⟨outcome, tree₃, hput.trans hinsert, ?_⟩
  have hleft := h.raw.updates hupdates
  cases hresult with
  | refused f hfiles =>
    exact .lost f tree₂ key type index entities kept seen (hfiles hcheck) h.located h.viewed hmoves
      hleft
  | unindexed f _ entities' _ _ _ hnot _ => exact absurd hindex hnot
  | done _ entities' hload hdocument _ hrecord =>
    rw [hupdates.here, Shelf.load_put_of_ne _ hne] at hload
    rw [hupdates.here] at hrecord
    have hdocuments : tree₁.ChangesOnly tree₃ DocumentName := hupdates.change.trans hrecord.change
    exact .moved tree₃ key type s.type index entities entities' kept seen s h.located hne hload
      hdocument h.rebagged (h.kept_of_type hdocuments) (h.storedAs hdocuments)
      (hleft.updates hrecord)

end Rewritten

theorem exec_edit (h : tree.Hosts g.root base) (hready : (tree.shelf g.root c).Ready g.root)
    (huniform : g.Uniform) (hfinds : g.FindsKept p tree base c) {stamp : Stamp}
    (htime : TimeFits stamp.time) (id : Id) {patch : Patch c} (hproper : patch.Proper p)
    (hplain : ∀ bag, patch.properties = some bag → g.PlainBag c bag) :
    ∃ outcome tree', (g.edit stamp id patch).exec tree = (outcome, tree')
      ∧ Edits g p tree base stamp id patch outcome tree' := by
  rw [edit, FileTask.exec_bind, Catalog.exec_locate]
  cases hlocate : (tree.shelf g.root c).locate id with
  | error f =>
    refine ⟨_, _, rfl, .refused f ?_⟩
    rintro ⟨old, kept, seen, hfound, -⟩
    rw [Catalog.exec_locate, hlocate] at hfound
    cases hfound
  | ok found =>
    obtain ⟨type, kept⟩ := found
    obtain ⟨key, index, entities, hlocated⟩ := Shelf.located_of_locate hlocate
    have hkept := hfinds _ _ _ _ _ _ hlocated
    obtain ⟨seen, hview, hrebagged, hseen⟩ := exec_view (p := p) hkept.keeps
    have hproper' := hproper.apply (hrebagged.proper hkept.proper) htime
    have hid : (patch.apply seen stamp.time).id = .ofString key := hrebagged.id.trans hkept.id
    simp only
    rw [FileTask.exec_bind_of_ok hview, FileTask.exec_bind, FileTask.exec_ofOutcome]
    cases hcheck : checkType (patch.apply seen stamp.time).type with
    | error f =>
      refine ⟨_, _, rfl, .refused f fun hmoves => ?_⟩
      obtain ⟨-, haccepted, -⟩ := (movesOut_iff hlocate hview).1 hmoves
      rw [haccepted] at hcheck
      cases hcheck
    | ok u =>
      obtain ⟨first, tree₁, hrewrite, hchange, hstored, hstill⟩ := exec_rewrite h huniform
        hkept.keeps (e := patch.apply seen stamp.time) (by rw [hid]; rfl) hproper'.properties
        (plainBag_apply hseen hplain)
      rw [hkept.type] at hrewrite
      have hraw := h.becomes_raw hchange
      -- so far only raw texts have changed
      simp only
      rw [exec_discard_stored]
      cases first with
      | error f =>
        refine ⟨_, _, FileTask.exec_bind_of_error hrewrite, .unwritten f tree₁ key type index
          entities kept hlocated (fun hmoves => ?_) hraw (hstill f rfl).2 (hstill f rfl).1⟩
        obtain ⟨-, -, s, hs⟩ := (movesOut_iff hlocate hview).1 hmoves
        rw [hrewrite] at hs
        cases hs
      | ok s =>
        have hrewritten : g.Rewritten p tree base stamp id patch key type index entities kept seen
            s tree₁ :=
          ⟨hlocated, hlocate, hview, hrebagged, hcheck, hid, hproper', hrewrite, hstored s rfl,
            hraw⟩
        rw [FileTask.exec_bind_of_ok hrewrite]
        by_cases hsame : s.type = type
        · obtain ⟨tree₂, hput, hedits⟩ := hrewritten.exec_put_same hready hsame
          exact ⟨_, _, FileTask.exec_bind_of_ok hput, hedits⟩
        · obtain ⟨outcome, tree₂, hput, hedits⟩ := hrewritten.exec_put_moved hready hsame
          cases outcome with
          | error f => exact ⟨_, _, FileTask.exec_bind_of_error hput, hedits⟩
          | ok u => exact ⟨_, _, FileTask.exec_bind_of_ok hput, hedits⟩

/-! ## Removing -/

/-- The results of removing an entity. -/
inductive Deletes (g : Engine) (tree : FileTree) (base : Place) (c : EntityClass) (id : Id) :
    Outcome Unit → FileTree → Prop where
  /-- nothing has changed -/
  | refused (f : Failure) : Deletes g tree base c id (.error f) tree
  /-- the index named a type whose document lacks the entity; it names it no longer -/
  | stale (f : Failure) (tree' : FileTree) (key type : String) (index : Entries String)
    (entities : List (Entity c)) :
    id.requireText = .ok key → (tree.shelf g.root c).index = .ok index →
    Entries.get? key index = some type → (tree.shelf g.root c).load type = .ok entities →
    Catalog.find id entities = none →
    tree.Updates tree' g.root base ((tree.shelf g.root c).setIndex (index.erase key)) →
    Deletes g tree base c id (.error f) tree'
  | done (tree' : FileTree) (key type : String) (index : Entries String)
    (entities : List (Entity c)) (kept : Entity c) :
    (tree.shelf g.root c).Located id key type index entities kept →
    tree.Becomes tree' g.root base key
      (((tree.shelf g.root c).put type (Catalog.removeFirst id entities)).setIndex
        (index.erase key)) →
    Deletes g tree base c id (.ok ()) tree'

theorem exec_delete (h : tree.Hosts g.root base) (hready : (tree.shelf g.root c).Ready g.root)
    (hfinds : g.FindsKept p tree base c) (id : Id) :
    ∃ outcome tree', (g.remove c id).exec tree = (outcome, tree')
      ∧ Deletes g tree base c id outcome tree' := by
  obtain ⟨first, tree₁, hremove, hresult⟩ := Catalog.exec_remove (c := c) h hready id
  rw [remove]
  cases hresult with
  | refused f => exact ⟨_, _, FileTask.exec_bind_of_error hremove, .refused f⟩
  | stale f _ key type index entities hkey hindex htype hload hfind hupdates =>
    exact ⟨_, _, FileTask.exec_bind_of_error hremove, .stale f tree₁ key type index entities hkey
      hindex htype hload hfind hupdates⟩
  | done _ key type index entities kept hlocated hupdates =>
    have hkept := (hfinds _ _ _ _ _ _ hlocated).of_changesOnly hupdates.change fun _ =>
      not_documentName_rawLast _
    obtain ⟨tree₂, hdiscard, hchange, -⟩ := exec_discard hkept.keeps
    rw [FileTask.exec_bind_of_ok hremove]
    exact ⟨_, _, hdiscard, .done tree₂ key type index entities kept hlocated
      (((h.becomes_self key).updates hupdates).raw hchange)⟩

end Engine

end PropertyGraph
