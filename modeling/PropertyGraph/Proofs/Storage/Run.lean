/-
  PropertyGraph.Proofs.Storage.Run

  Runs of calls.  The invariant holds below an empty root, and a call keeps it whatever it
  returns: the cases are the results of creating, editing and removing.  So it holds after
  every run, with as many failed calls as there may be.
-/
import PropertyGraph.Proofs.Storage.Reading
import PropertyGraph.Proofs.Storage.Sound
import Mathlib.Data.List.Induction

namespace PropertyGraph

open FileTree (Hosts Writable Rooted)
open Naming (indexStem PlainStem jsonPath)
open Catalog (Named)

variable {c : EntityClass} {g : Engine} {p : Number → Prop} {tree tree' : FileTree}
  {base : Place} {used : List String}

/-! ## Empty roots -/

namespace FileTree

/-- The root path leads to a directory in which there is nothing. -/
structure Bare (tree : FileTree) (root : String) (base : Place) : Prop where
  rooted : tree.Rooted root base
  empty : ∀ name, tree.occupant (base ++ [name]) = none

variable {root : String}

theorem Bare.hosts (h : tree.Bare root base) : tree.Hosts root base where
  rooted := h.rooted
  free stem name _ := by
    rw [h.empty]
    nofun

/-- No document is read from an empty root. -/
theorem Bare.read_json (h : tree.Bare root base) {stem : String} (hstem : PlainStem stem) :
    ∃ trouble, tree.read (jsonPath root stem) = .error trouble := by
  rw [FileTree.read, jsonPath]
  by_cases hfits : Fits root (stem ++ ".json")
  · rw [h.rooted.resolve_join hstem.json hfits]
    exact ⟨.missing, by simp [h.empty]⟩
  · rw [h.rooted.resolve_join_refused hstem.json hfits]
    exact ⟨.refused, rfl⟩

theorem Bare.read_json_missing (h : tree.Bare root base) {stem : String} (hstem : PlainStem stem)
    (hwritable : Writable root stem) : tree.read (jsonPath root stem) = .error .missing := by
  rw [h.hosts.read_json hstem hwritable, h.empty]

theorem Bare.not_has (h : tree.Bare root base) (type : String) :
    ¬ (tree.shelf root c).Has type := by
  rintro ⟨text, htext⟩
  simp only [shelf, Naming.documentPath_eq] at htext
  cases hcheck : Naming.checkType type with
  | error f => rw [hcheck] at htext; cases htext
  | ok u =>
    rw [hcheck] at htext
    obtain ⟨trouble, hread⟩ := h.read_json (Naming.plainStem_document c hcheck)
    simp only [hread] at htext
    cases htext

/-- What is read of a payload where there is no document is the empty one. -/
theorem eq_of_payload_error {α : Type} {decode : Json.Tree → Json.Decoded α} {absent x : α}
    {trouble : PathTrouble} (h : Document.payload decode absent (.error trouble) = .ok x) :
    x = absent := by
  cases trouble with
  | missing => exact (Except.ok.inj h).symm
  | refused => cases h

theorem Bare.index (h : tree.Bare root base) {index : Entries String}
    (hindex : (tree.shelf root c).index = .ok index) : index = [] := by
  obtain ⟨trouble, hread⟩ := h.read_json (Naming.plainStem_index c)
  simp only [shelf, Naming.indexPath_eq, hread] at hindex
  exact eq_of_payload_error hindex

theorem Bare.types (h : tree.Bare root base) {types : List String}
    (htypes : (tree.shelf root c).types = .ok types) : types = [] := by
  obtain ⟨trouble, hread⟩ := h.read_json (Naming.plainStem_typeList c)
  simp only [shelf, Naming.typeListPath_eq, hread] at htypes
  exact eq_of_payload_error htypes

theorem Bare.load (h : tree.Bare root base) {type : String} {entities : List (Entity c)}
    (hload : (tree.shelf root c).load type = .ok entities) : entities = [] := by
  by_contra hne
  exact h.not_has type (Shelf.has_of_load hload hne)

theorem Bare.ready (h : tree.Bare root base) (c : EntityClass) :
    (tree.shelf root c).Ready root where
  keys index hindex := by
    rw [h.index hindex]
    exact List.nodup_nil
  readable hwritable := by
    constructor
    · refine ⟨[], ?_⟩
      simp only [shelf, Naming.indexPath_eq,
        h.read_json_missing (Naming.plainStem_index c) hwritable]
      rfl
    · refine ⟨[], ?_⟩
      simp only [shelf, Naming.typeListPath_eq, h.read_json_missing (Naming.plainStem_typeList c)
        (Catalog.writable_typeList hwritable)]
      rfl
  blank _ := ⟨fun _ => h.index, fun _ => h.types⟩
  documents type hhas := absurd hhas (h.not_has type)

end FileTree

/-- A tree with the directory `/g` and nothing else. -/
def FileTree.sample : FileTree := ⟨[(["g"], .directory)], []⟩

/-- A graph below `/g`. -/
def Engine.sample (rules : List RawText) : Engine := ⟨"/g", none, rules, .builtin⟩

theorem Engine.writable_index_sample (c : EntityClass) :
    FileTree.Writable "/g" (Naming.indexStem c) := by
  cases c <;> constructor <;> decide +kernel

theorem FileTree.bare_sample : FileTree.sample.Bare "/g" ["g"] where
  rooted := ⟨by decide +kernel, by decide⟩
  empty name := by
    show lookup ["g", name] [(["g"], .directory)] = none
    simp [lookup]

namespace Engine

/-- The invariant holds below an empty root. -/
theorem sound_of_bare (h : tree.Bare g.root base) : g.Sound p [] tree base where
  hosts := h.hosts
  ready := h.ready
  good c := by
    refine ⟨fun type entities hload e he => ?_, fun type entities hload => ?_,
      fun type type' entities entities' hload hload' _ e he => ?_⟩
    · rw [h.load hload] at he
      cases he
    · rw [h.load hload]
      exact ⟨fun e he => absurd he List.not_mem_nil, List.nodup_nil⟩
    · rw [h.load hload] at he
      cases he
  slashless _ unique hmem := absurd hmem List.not_mem_nil

/-! ## One call -/

namespace Sound

/-- An identity made from an unused text belongs to no entity. -/
theorem id_ne (h : g.Sound p used tree base) {unique type : String} (hfresh : unique ∉ used)
    {entities : List (Entity c)} (hload : (tree.shelf g.root c).load type = .ok entities)
    {e : Entity c} (he : e ∈ entities) : e.id ≠ .ofString (g.keyOf unique) := by
  obtain ⟨other, hother, hkept⟩ := (h.good c).all type entities hload e he
  rw [hkept.id]
  intro hid
  exact hfresh (keyOf_inj (Catalog.ofString_inj hid) ▸ hother)

/-- An entity of an identity that was found elsewhere has another identity. -/
theorem id_ne_of_located (h : g.Sound p used tree base) {id : Id} {key type : String}
    {index : Entries String} {entities : List (Entity c)} {kept : Entity c}
    (hlocated : (tree.shelf g.root c).Located id key type index entities kept)
    {type' : String} (hne : type' ≠ type) {entities' : List (Entity c)}
    (hload : (tree.shelf g.root c).load type' = .ok entities') {e : Entity c} (he : e ∈ entities') :
    e.id ≠ .ofString key := by
  rw [← (h.finds c _ _ _ _ _ _ hlocated).id]
  exact (h.good c).apart type' type entities' entities hload hlocated.loaded hne e he kept
    hlocated.mem

/-- An entity of an identity that was found is the one that was found. -/
theorem eq_of_located (h : g.Sound p used tree base) {id : Id} {key type : String}
    {index : Entries String} {entities : List (Entity c)} {kept : Entity c}
    (hlocated : (tree.shelf g.root c).Located id key type index entities kept)
    {type' : String} {entities' : List (Entity c)}
    (hload : (tree.shelf g.root c).load type' = .ok entities') {e : Entity c} (he : e ∈ entities')
    (hid : e.id = .ofString key) : type' = type ∧ e = kept := by
  have htype : type' = type := by
    by_contra hne
    exact h.id_ne_of_located hlocated hne hload he hid
  subst htype
  obtain rfl : entities' = entities := Except.ok.inj (hload.symm.trans hlocated.loaded)
  have hnamed := (h.good c).named _ _ hload
  exact ⟨rfl, hnamed.eq_of_id hlocated.mem he (hid.trans (hlocated.id_of_named hnamed).symm)⟩

/-- The entities of a class stand as before, if a call about an identity was about none of
    them. -/
theorem holds_of_fresh (h : g.Sound p used tree base) {unique : String} (hfresh : unique ∉ used)
    (hchange : tree.ChangesOnly tree' (Touched c (g.keyOf unique)))
    (hslash : g.rules ≠ [] → '/' ∉ unique.toList) {type : String} {entities : List (Entity c)}
    (hload : (tree.shelf g.root c).load type = .ok entities) {e : Entity c} (he : e ∈ entities) :
    g.Holds p (used ++ [unique]) tree' base type e := by
  have hall := (h.good c).all type entities hload e he
  refine hall.of_touched (h.id_ne hfresh hload he) hchange
    (fun other hother => List.mem_append_left _ hother) (by simp) fun hrules other hother => ?_
  rcases List.mem_append.1 hother with hold | hnew
  · exact h.slashless hrules other hold
  · rw [List.mem_singleton.1 hnew]
    exact hslash hrules

theorem slashless_append (h : g.Sound p used tree base) {unique : String}
    (hslash : g.rules ≠ [] → '/' ∉ unique.toList) :
    g.rules ≠ [] → ∀ other ∈ used ++ [unique], '/' ∉ other.toList := by
  intro hrules other hother
  rcases List.mem_append.1 hother with hold | hnew
  · exact h.slashless hrules other hold
  · rw [List.mem_singleton.1 hnew]
    exact hslash hrules

/-- Creating an entity keeps the invariant. -/
theorem of_creates (h : g.Sound p used tree base) (hp : Number.Stable p) {stamp : Stamp}
    (hfresh : stamp.unique ∉ used) (hslash : g.rules ≠ [] → '/' ∉ stamp.unique.toList)
    {body : Body c} {outcome : Outcome (Entity c)}
    (hcreates : g.Creates p tree base stamp body outcome tree') :
    g.Sound p (used ++ [stamp.unique]) tree' base := by
  have hsub : ∀ other ∈ used, other ∈ used ++ [stamp.unique] :=
    fun other hother => List.mem_append_left _ hother
  have hslashes := h.slashless_append hslash
  -- where the new entity is put, all that matters is that its identity is fresh
  have happend : ∀ entities s,
      (tree.shelf g.root c).load body.type = .ok entities →
      g.Kept p tree' base (g.keyOf stamp.unique) body.type s →
      tree.ChangesOnly tree' (Touched c (g.keyOf stamp.unique)) →
      ((tree.shelf g.root c).put body.type (entities ++ [s])).Good
        (g.Holds p (used ++ [stamp.unique]) tree' base) := by
    intro entities s hload hkept hchange
    refine (h.good c).append hp hload hkept.id
      (fun type' entities' hload' x hx => h.id_ne hfresh hload' hx)
      (fun type' entities' hload' x hx hold => ?_)
      ⟨hkept.proper, stamp.unique, by simp, hkept.reread hp⟩
    have hholds := h.holds_of_fresh hfresh hchange hslash hload' hx
    exact ⟨hholds, hholds.reread hp⟩
  cases hcreates with
  | refused f _ hbecomes =>
    refine h.becomes hbecomes hsub hslashes (h.ready c) ?_
    exact (h.good c).mono fun type entities hload e he _ =>
      h.holds_of_fresh hfresh hbecomes.change hslash hload he
  | unindexed f _ entities s _ hload hwritable _ hkept hbecomes =>
    exact h.becomes hbecomes hsub hslashes ((h.ready c).put hwritable _)
      (happend entities s hload hkept hbecomes.change)
  | done _ entities s hload hwritable hindex hkept _ hbecomes =>
    exact h.becomes hbecomes hsub hslashes (((h.ready c).put hwritable _).record hindex _ _)
      ((happend entities s hload hkept hbecomes.change).record _ _)

/-- The entities under other identities stand as before, when a call is about an identity that
    was found. -/
theorem holds_of_located (h : g.Sound p used tree base) {id : Id} {key type : String}
    {index : Entries String} {entities : List (Entity c)} {kept : Entity c}
    (hlocated : (tree.shelf g.root c).Located id key type index entities kept)
    (hchange : tree.ChangesOnly tree' (Touched c key)) {type' : String} {e : Entity c}
    (hall : g.Holds p used tree base type' e) (hne : e.id ≠ .ofString key) :
    g.Holds p used tree' base type' e := by
  obtain ⟨unique, hmem, rfl⟩ := h.key_of_located hlocated
  exact hall.of_touched hne hchange (fun _ hother => hother) hmem h.slashless

/-- Taking an entity out of its document leaves none of its identity, and the others stand as
    before. -/
theorem good_without (h : g.Sound p used tree base) (hp : Number.Stable p) {id : Id}
    {key type : String} {index : Entries String} {entities rest : List (Entity c)}
    {kept : Entity c} (hlocated : (tree.shelf g.root c).Located id key type index entities kept)
    (hchange : tree.ChangesOnly tree' (Touched c key)) (hsub : List.Sublist rest entities)
    (hrest : ∀ e ∈ rest, e.id ≠ .ofString key) :
    ((tree.shelf g.root c).put type rest).Good
      fun type e => g.Holds p used tree' base type e ∧ e.id ≠ .ofString key := by
  have hgood := h.good c
  have hnamed := hgood.named type entities hlocated.loaded
  refine hgood.put hp (fun type' entities' hne hload e he hall => ?_) (fun e he => ?_)
    (hnamed.sublist hsub) fun type' entities' hne hload e he e' he' => ?_
  · have hother := h.id_ne_of_located hlocated hne hload he
    exact ⟨h.holds_of_located hlocated hchange hall hother, hother⟩
  · obtain ⟨unique, hmem, hkept⟩ := h.holds_of_located hlocated hchange
      (hgood.all type entities hlocated.loaded e (hsub.subset he)) (hrest e he)
    refine ⟨hkept.proper, ⟨unique, hmem, hkept.reread hp⟩, ?_⟩
    -- reading an entity back keeps an identity that is a text
    rw [(hkept.reread hp).id, ← hkept.id]
    exact hrest e he
  · exact hgood.apart type type' entities entities' hlocated.loaded hload hne.symm e
      (hsub.subset he) e' he'

theorem good_others (h : g.Sound p used tree base) (hp : Number.Stable p) {id : Id}
    {key type : String} {index : Entries String} {entities : List (Entity c)}
    {kept : Entity c} (hlocated : (tree.shelf g.root c).Located id key type index entities kept)
    (hchange : tree.ChangesOnly tree' (Touched c key)) :
    ((tree.shelf g.root c).put type (entities.filter fun e => !e.id.same id)).Good
      fun type e => g.Holds p used tree' base type e ∧ e.id ≠ .ofString key := by
  have hnamed := (h.good c).named type entities hlocated.loaded
  exact h.good_without hp hlocated hchange List.filter_sublist fun e he =>
    ((hlocated.mem_others_iff hnamed).1 he).2

/-- Putting an entity in the place of the one that was found leaves the others as before. -/
theorem good_replaceFirst (h : g.Sound p used tree base) (hp : Number.Stable p) {id : Id}
    {unique type : String} {index : Entries String} {entities : List (Entity c)}
    {kept s : Entity c}
    (hlocated : (tree.shelf g.root c).Located id (g.keyOf unique) type index entities kept)
    (hmem : unique ∈ used) (hchange : tree.ChangesOnly tree' (Touched c (g.keyOf unique)))
    (hkept : g.Kept p tree' base (g.keyOf unique) type s) :
    ((tree.shelf g.root c).put type (Catalog.replaceFirst s entities)).Good
      (g.Holds p used tree' base) := by
  have hgood := h.good c
  have hnamed := hgood.named type entities hlocated.loaded
  have hthere : ∃ e ∈ entities, e.id = .ofString (g.keyOf unique) :=
    ⟨kept, hlocated.mem, hlocated.id_of_named hnamed⟩
  have hnew : g.Holds p used tree' base type s := ⟨unique, hmem, hkept⟩
  refine hgood.put hp (fun type' entities' hne hload e he hall => ?_) (fun e he => ?_)
    (hnamed.replaceFirst hkept.id hthere) fun type' entities' hne hload e he e' he' => ?_
  · exact h.holds_of_located hlocated hchange hall (h.id_ne_of_located hlocated hne hload he)
  · rcases (Catalog.mem_replaceFirst_iff hnamed hkept.id hthere).1 he with rfl | ⟨hold, hid⟩
    · exact hnew.reread hp
    · exact (h.holds_of_located hlocated hchange
        (hgood.all type entities hlocated.loaded e hold) hid).reread hp
  · rcases (Catalog.mem_replaceFirst_iff hnamed hkept.id hthere).1 he with rfl | ⟨hold, -⟩
    · rw [hkept.id]
      exact (h.id_ne_of_located hlocated hne hload he').symm
    · exact hgood.apart type type' entities entities' hlocated.loaded hload hne.symm e hold e' he'

/-- Removing an entity keeps the invariant. -/
theorem of_deletes (h : g.Sound p used tree base) (hp : Number.Stable p) {id : Id}
    {outcome : Outcome Unit} (hdeletes : g.Deletes tree base c id outcome tree') :
    g.Sound p used tree' base := by
  cases hdeletes with
  | refused f => exact h
  | stale f _ key type index entities _ hindex htype _ _ hupdates =>
    have hwritable := (h.ready c).writable_index hindex htype
    refine h.becomes ((h.hosts.becomes_self key).updates hupdates) (fun _ hmem => hmem)
      h.slashless ((h.ready c).erase hwritable hindex key) (.setIndex ?_ _)
    -- only documents have changed, and no raw text at all
    refine (h.good c).mono fun type' entities' _ e _ hall => ?_
    obtain ⟨unique, hmem, hkept⟩ := hall
    exact ⟨unique, hmem, hkept.of_changesOnly hupdates.change fun _ =>
      not_documentName_rawLast _⟩
  | done _ key type index entities kept hlocated hbecomes =>
    have hnamed := (h.good c).named type entities hlocated.loaded
    have hwritable := (h.ready c).writable_index hlocated.indexed hlocated.typed
    have hput := (h.ready c).put ((h.ready c).documents type hlocated.has)
      (Catalog.removeFirst id entities)
    refine h.becomes hbecomes (fun _ hmem => hmem) h.slashless
      (hput.erase hwritable hlocated.indexed key) (.setIndex ?_ _)
    exact (h.good_without hp hlocated hbecomes.change (Catalog.removeFirst_sublist id entities)
      fun e he => ((hlocated.mem_removeFirst_iff hnamed).1 he).2).mono fun _ _ _ _ _ hall => hall.1

/-- Editing an entity keeps the invariant. -/
theorem of_edits (h : g.Sound p used tree base) (hp : Number.Stable p) {stamp : Stamp} {id : Id}
    {patch : Patch c} {outcome : Outcome (Entity c)}
    (hedits : g.Edits p tree base stamp id patch outcome tree') :
    g.Sound p used tree' base := by
  have hready := h.ready c
  cases hedits with
  | refused f _ => exact h
  | unwritten f _ key type index entities kept hlocated _ hbecomes hkeeps =>
    refine h.becomes hbecomes (fun _ hmem => hmem) h.slashless hready ?_
    refine (h.good c).mono fun type' entities' hload e he hall => ?_
    by_cases hid : e.id = .ofString key
    · -- it is the entity of the call, which is kept still
      obtain ⟨rfl, rfl⟩ := h.eq_of_located hlocated hload he hid
      have hkept := h.finds c _ _ _ _ _ _ hlocated
      obtain ⟨unique, hmem, rfl⟩ := h.key_of_located hlocated
      exact ⟨unique, hmem, hkept.type, hkept.id, hkept.proper, hkeeps tree'⟩
    · exact h.holds_of_located hlocated hbecomes.change hall hid
  | lost f _ key type index entities kept seen _ hlocated _ _ hbecomes =>
    exact h.becomes hbecomes (fun _ hmem => hmem) h.slashless
      (hready.put (hready.documents type hlocated.has) _)
      ((h.good_others hp hlocated hbecomes.change).mono fun _ _ _ _ _ hall => hall.1)
  | changed _ key type index entities kept seen s hlocated _ hkept _ hbecomes =>
    obtain ⟨unique, hmem, rfl⟩ := h.key_of_located hlocated
    exact h.becomes hbecomes (fun _ hmem => hmem) h.slashless
      (hready.put (hready.documents type hlocated.has) _)
      (h.good_replaceFirst hp hlocated hmem hbecomes.change hkept)
  | moved _ key type type' index entities entities' kept seen s hlocated hne hload hwritable _ hkept
      _ hbecomes =>
    obtain ⟨unique, hmem, rfl⟩ := h.key_of_located hlocated
    have hindex := hready.writable_index hlocated.indexed hlocated.typed
    refine h.becomes hbecomes (fun _ hmem => hmem) h.slashless
      (((hready.put (hready.documents type hlocated.has) _).put hwritable _).record hindex _ _)
      (.record ?_ _ _)
    -- once it has left its old document the entity is as new to the other one
    have hothers := h.good_others hp hlocated hbecomes.change
    exact hothers.append hp (by rw [Shelf.load_put_of_ne _ hne]; exact hload) hkept.id
      (fun type'' entities'' hload'' x hx => (hothers.all type'' entities'' hload'' x hx).2)
      (fun _ _ _ x _ hall => ⟨hall.1, hall.1.reread hp⟩)
      ⟨hkept.proper, unique, hmem, hkept.reread hp⟩

end Sound

/-! ## Runs -/

/-- A call and what it takes from its surroundings. -/
structure Step where
  stamp : Stamp
  call : Call

/-- The unique text that a step makes an identity from: only creating an entity does. -/
def Step.given (step : Step) : List String :=
  match step.call with
  | .create _ _ => [step.stamp.unique]
  | _ => []

/-- The unique texts that the steps of a run make identities from. -/
def given (steps : List Step) : List String := steps.flatMap Step.given

/-- What a graph accepts in a call: the time and all values are in range, and the bags are as
    owners give them. -/
def Accepts (g : Engine) (p : Number → Prop) (step : Step) : Prop :=
  match step.call with
  | .create c body => TimeFits step.stamp.time ∧ body.Proper p ∧ g.PlainBag c body.properties
  | .edit c _ patch => TimeFits step.stamp.time ∧ patch.Proper p
      ∧ ∀ bag, patch.properties = some bag → g.PlainBag c bag
  | _ => True

/-- The tree after a call, whatever the call returns. -/
def advance (g : Engine) (tree : FileTree) (step : Step) : FileTree :=
  ((g.answer step.stamp step.call).exec tree).2

/-- The tree after a run of calls. -/
def after (g : Engine) (tree : FileTree) (steps : List Step) : FileTree := steps.foldl g.advance tree

/-- The runs that the invariant is about: identities are made from distinct texts. -/
structure Allows (g : Engine) (p : Number → Prop) (steps : List Step) : Prop where
  distinct : (given steps).Nodup
  slashless : g.rules ≠ [] → ∀ unique ∈ given steps, '/' ∉ unique.toList
  accepted : ∀ step ∈ steps, g.Accepts p step

theorem given_append (steps : List Step) (step : Step) :
    given (steps ++ [step]) = given steps ++ step.given := by
  simp [given, List.flatMap_append]

theorem after_append (g : Engine) (tree : FileTree) (steps : List Step) (step : Step) :
    g.after tree (steps ++ [step]) = g.advance (g.after tree steps) step := by
  simp [after, List.foldl_append]

theorem distinct_before {steps rest : List Step} (h : (given (steps ++ rest)).Nodup) :
    (given steps).Nodup := by
  rw [given, List.flatMap_append] at h
  exact (List.nodup_append.1 h).1

theorem fresh_of_distinct {steps : List Step} {step : Step}
    (h : (given (steps ++ [step])).Nodup) {unique : String} (hgiven : unique ∈ step.given) :
    unique ∉ given steps := by
  rw [given_append] at h
  intro hmem
  exact (List.nodup_append.1 h).2.2 unique hmem unique hgiven rfl

theorem distinct_append {steps : List Step} {step : Step} (h : (given steps).Nodup)
    (hfresh : ∀ unique ∈ step.given, unique ∉ given steps) : (given (steps ++ [step])).Nodup := by
  rw [given_append, List.nodup_append]
  refine ⟨h, ?_, fun unique hold unique' hnew => ?_⟩
  · rw [Step.given]
    split
    · exact List.pairwise_singleton _ _
    · exact List.nodup_nil
  · rintro rfl
    exact hfresh unique hnew hold

/-- A step of a run is the last one, or it stands in what is before the last one. -/
theorem last_or_before {steps before rest : List Step} {step other : Step}
    (h : steps ++ [step] = before ++ other :: rest) :
    (before = steps ∧ other = step) ∨ ∃ rest', steps = before ++ other :: rest' := by
  rcases List.eq_nil_or_concat rest with rfl | ⟨rest, last, rfl⟩
  · obtain ⟨rfl, hlast⟩ := List.append_inj' h rfl
    exact .inl ⟨rfl, (List.cons.inj hlast).1.symm⟩
  · rw [List.concat_eq_append, ← List.cons_append, ← List.append_assoc] at h
    exact .inr ⟨rest, (List.append_inj' h rfl).1⟩

theorem Allows.before {steps : List Step} {step : Step} (h : g.Allows p (steps ++ [step])) :
    g.Allows p steps where
  distinct := distinct_before h.distinct
  slashless hrules unique hmem := by
    refine h.slashless hrules unique ?_
    rw [given_append]
    exact List.mem_append_left _ hmem
  accepted other hmem := h.accepted other (List.mem_append_left _ hmem)

theorem Allows.fresh {steps : List Step} {step : Step} (h : g.Allows p (steps ++ [step]))
    {unique : String} (hgiven : unique ∈ step.given) : unique ∉ given steps :=
  fresh_of_distinct h.distinct hgiven

theorem Allows.slashless_last {steps : List Step} {step : Step} (h : g.Allows p (steps ++ [step]))
    {unique : String} (hgiven : unique ∈ step.given) (hrules : g.rules ≠ []) :
    '/' ∉ unique.toList := by
  refine h.slashless hrules unique ?_
  rw [given_append]
  exact List.mem_append_right _ hgiven

/-- What an answer to a call has led to. -/
inductive Answers (g : Engine) (p : Number → Prop) (tree : FileTree) (base : Place)
    (stamp : Stamp) : (call : Call) → Outcome call.Reply → FileTree → Prop where
  | got (c : EntityClass) (id : Id) (outcome : Outcome (Option (Entity c))) :
    Answers g p tree base stamp (.get c id) outcome tree
  | searched (c : EntityClass) (s : Searcher) (outcome : Outcome (List (Entity c))) :
    Answers g p tree base stamp (.search c s) outcome tree
  | listed (c : EntityClass) (outcome : Outcome (List String)) :
    Answers g p tree base stamp (.types c) outcome tree
  | created {c : EntityClass} {body : Body c} {outcome : Outcome (Entity c)} {tree' : FileTree} :
    g.Creates p tree base stamp body outcome tree' →
    Answers g p tree base stamp (.create c body) outcome tree'
  | edited {c : EntityClass} {id : Id} {patch : Patch c} {outcome : Outcome (Entity c)}
    {tree' : FileTree} : g.Edits p tree base stamp id patch outcome tree' →
    Answers g p tree base stamp (.edit c id patch) outcome tree'
  | removed {c : EntityClass} {id : Id} {outcome : Outcome Unit} {tree' : FileTree} :
    g.Deletes tree base c id outcome tree' →
    Answers g p tree base stamp (.remove c id) outcome tree'

/-- Every call has one of the known results. -/
theorem Sound.exec_answer (h : g.Sound p used tree base) (huniform : g.Uniform) {step : Step}
    (haccepts : g.Accepts p step) :
    ∃ outcome tree', (g.answer step.stamp step.call).exec tree = (outcome, tree')
      ∧ g.Answers p tree base step.stamp step.call outcome tree' := by
  obtain ⟨stamp, call⟩ := step
  cases call with
  | get c id =>
    exact ⟨((g.get c id).exec tree).1, tree, Prod.ext rfl (exec_get_unchanged g c id tree),
      .got c id _⟩
  | search c s =>
    exact ⟨((g.search c s).exec tree).1, tree, Prod.ext rfl (exec_search_unchanged g c s tree),
      .searched c s _⟩
  | types c =>
    exact ⟨((g.types c).exec tree).1, tree, Prod.ext rfl (exec_types_unchanged g c tree), .listed c _⟩
  | create c body =>
    obtain ⟨htime, hproper, hplain⟩ := haccepts
    obtain ⟨outcome, tree', hexec, hcreates⟩ :=
      exec_create h.hosts (h.ready c) huniform htime hproper hplain
    exact ⟨outcome, tree', hexec, .created hcreates⟩
  | edit c id patch =>
    obtain ⟨htime, hproper, hplain⟩ := haccepts
    obtain ⟨outcome, tree', hexec, hedits⟩ :=
      exec_edit h.hosts (h.ready c) huniform (h.finds c) htime id hproper hplain
    exact ⟨outcome, tree', hexec, .edited hedits⟩
  | remove c id =>
    obtain ⟨outcome, tree', hexec, hdeletes⟩ := exec_delete h.hosts (h.ready c) (h.finds c) id
    exact ⟨outcome, tree', hexec, .removed hdeletes⟩

/-- What a call has led to, told by its outcome and the tree after it. -/
theorem Sound.answers (h : g.Sound p used tree base) (huniform : g.Uniform) {step : Step}
    (haccepts : g.Accepts p step) :
    g.Answers p tree base step.stamp step.call ((g.answer step.stamp step.call).exec tree).1
      (g.advance tree step) := by
  obtain ⟨outcome, tree', hexec, hanswers⟩ := h.exec_answer huniform haccepts
  rw [advance, hexec]
  exact hanswers

theorem Creates.other_class {stamp : Stamp} {body : Body c} {outcome : Outcome (Entity c)}
    (h : g.Creates p tree base stamp body outcome tree') {c' : EntityClass} (hne : c' ≠ c) :
    tree'.shelf g.root c' = tree.shelf g.root c' := by
  cases h with
  | refused f _ hbecomes => exact hbecomes.other c' hne
  | unindexed f _ entities s _ _ _ _ _ hbecomes => exact hbecomes.other c' hne
  | done _ entities s _ _ _ _ _ hbecomes => exact hbecomes.other c' hne

theorem Creates.change {stamp : Stamp} {body : Body c} {outcome : Outcome (Entity c)}
    (h : g.Creates p tree base stamp body outcome tree') :
    tree.ChangesOnly tree' (Touched c (g.keyOf stamp.unique)) := by
  cases h with
  | refused f _ hbecomes => exact hbecomes.change
  | unindexed f _ entities s _ _ _ _ _ hbecomes => exact hbecomes.change
  | done _ entities s _ _ _ _ _ hbecomes => exact hbecomes.change

/-- What is created has the bag that it was created with. -/
theorem Creates.properties {stamp : Stamp} {body : Body c} {v : Entity c}
    (h : g.Creates p tree base stamp body (.ok v) tree') : v.properties = body.properties := by
  cases h with
  | done _ entities s => rfl

theorem Edits.change {stamp : Stamp} {id : Id} {patch : Patch c} {outcome : Outcome (Entity c)}
    (h : g.Edits p tree base stamp id patch outcome tree') :
    ∃ key, tree.ChangesOnly tree' (Touched c key) := by
  cases h with
  | refused f _ => exact ⟨"", .refl _ _⟩
  | unwritten f _ key type index entities kept _ _ hbecomes => exact ⟨key, hbecomes.change⟩
  | lost f _ key type index entities kept seen _ _ _ _ hbecomes => exact ⟨key, hbecomes.change⟩
  | changed _ key type index entities kept seen s _ _ _ _ hbecomes => exact ⟨key, hbecomes.change⟩
  | moved _ key type type' index entities entities' kept seen s _ _ _ _ _ _ _ hbecomes =>
    exact ⟨key, hbecomes.change⟩

theorem Deletes.change {id : Id} {outcome : Outcome Unit}
    (h : g.Deletes tree base c id outcome tree') :
    ∃ key, tree.ChangesOnly tree' (Touched c key) := by
  cases h with
  | refused f => exact ⟨"", .refl _ _⟩
  | stale f _ key type index entities _ _ _ _ _ hupdates =>
    exact ⟨key, hupdates.change.mono fun _ => .inl⟩
  | done _ key type index entities kept _ hbecomes => exact ⟨key, hbecomes.change⟩

theorem Edits.other_class {stamp : Stamp} {id : Id} {patch : Patch c}
    {outcome : Outcome (Entity c)} (h : g.Edits p tree base stamp id patch outcome tree')
    {c' : EntityClass} (hne : c' ≠ c) : tree'.shelf g.root c' = tree.shelf g.root c' := by
  cases h with
  | refused f _ => rfl
  | unwritten f _ key type index entities kept _ _ hbecomes => exact hbecomes.other c' hne
  | lost f _ key type index entities kept seen _ _ _ _ hbecomes => exact hbecomes.other c' hne
  | changed _ key type index entities kept seen s _ _ _ _ hbecomes => exact hbecomes.other c' hne
  | moved _ key type type' index entities entities' kept seen s _ _ _ _ _ _ _ hbecomes =>
    exact hbecomes.other c' hne

theorem Deletes.other_class {id : Id} {outcome : Outcome Unit}
    (h : g.Deletes tree base c id outcome tree') {c' : EntityClass} (hne : c' ≠ c) :
    tree'.shelf g.root c' = tree.shelf g.root c' := by
  cases h with
  | refused f => rfl
  | stale f _ key type index entities _ _ _ _ _ hupdates => exact hupdates.other c' hne
  | done _ key type index entities kept _ hbecomes => exact hbecomes.other c' hne

/-- A call keeps the invariant, whatever it returns. -/
theorem Sound.advance (h : g.Sound p used tree base) (hp : Number.Stable p) (huniform : g.Uniform)
    {step : Step} (haccepts : g.Accepts p step)
    (hfresh : ∀ unique ∈ step.given, unique ∉ used)
    (hslash : ∀ unique ∈ step.given, g.rules ≠ [] → '/' ∉ unique.toList) :
    g.Sound p (used ++ step.given) (g.advance tree step) base := by
  have hanswers := h.answers huniform haccepts
  generalize g.advance tree step = tree' at hanswers ⊢
  generalize ((g.answer step.stamp step.call).exec tree).1 = outcome at hanswers
  obtain ⟨stamp, call⟩ := step
  have hsame : g.Sound p (used ++ []) tree base := by
    rw [List.append_nil]
    exact h
  cases hanswers with
  | got c id => exact hsame
  | searched c s => exact hsame
  | listed c => exact hsame
  | created hcreates =>
    exact h.of_creates hp (hfresh _ (List.mem_singleton.2 rfl))
      (hslash _ (List.mem_singleton.2 rfl)) hcreates
  | edited hedits =>
    show g.Sound p (used ++ []) tree' base
    rw [List.append_nil]
    exact h.of_edits hp hedits
  | removed hdeletes =>
    show g.Sound p (used ++ []) tree' base
    rw [List.append_nil]
    exact h.of_deletes hp hdeletes

/-- The invariant holds after every run below an empty root. -/
theorem sound_after (hbare : tree.Bare g.root base) (hp : Number.Stable p) (huniform : g.Uniform)
    {steps : List Step} (hallows : g.Allows p steps) :
    g.Sound p (given steps) (g.after tree steps) base := by
  induction steps using List.reverseRecOn with
  | nil => exact sound_of_bare hbare
  | append_singleton steps step ih =>
    rw [given_append, after_append]
    exact (ih hallows.before).advance hp huniform (hallows.accepted step (by simp))
      (fun unique hgiven => hallows.fresh hgiven)
      (fun unique hgiven => hallows.slashless_last hgiven)

/-! ## A sample -/

theorem exists_of_any {α : Type} {outcome : Outcome α} {f : α → Bool}
    (h : outcome.toOption.any f = true) : ∃ a, outcome = .ok a ∧ f a = true := by
  cases outcome with
  | ok a => exact ⟨a, rfl, h⟩
  | error failure => cases h

theorem exists_of_isOk {α : Type} {outcome : Outcome α} (h : outcome.isOk = true) :
    ∃ a, outcome = .ok a := by
  cases outcome with
  | ok a => exact ⟨a, rfl⟩
  | error f => cases h

/-- A rule that keeps the texts of notes and memos apart. -/
def noteRule : RawText := ⟨["Note", "Memo"], "content"⟩

/-- A run that creates a note. -/
def noteRun : List Step :=
  [⟨⟨"n", 0⟩, .create .node (.node "Note" [("content", .string "t")])⟩]

theorem allows_noteRun : (Engine.sample [noteRule]).Allows p noteRun where
  distinct := by decide
  slashless _ := by decide
  accepted step hstep := by
    obtain rfl := List.mem_singleton.1 hstep
    refine ⟨by decide, ⟨⟨by decide, trivial, trivial⟩, trivial⟩, fun _ _ => ?_⟩
    rfl

/-- The text of a note that was read. -/
def textOf : Outcome (Option Node) → Option String
  | .ok (some node) => (Entries.get? "content" node.properties).bind Json.string?
  | _ => none

end Engine

end PropertyGraph
