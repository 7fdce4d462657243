/-
  PropertyGraph.Proofs.Storage.History

  What has been written to the shelf of a class.  Whatever the calls of a run return, the
  shelf comes from the one of the empty root by writing documents of proper entities, indexes
  and lists of types.  So a property of shelves that each of these keeps holds after every run:
  the list of types is ascending, and an entity that can be read nests no deeper than a reader
  takes, since it has been read.
-/
import PropertyGraph.Proofs.Json.Nesting
import PropertyGraph.Proofs.Storage.Run
import PropertyGraph.Proofs.Storage.TypeList

namespace PropertyGraph

open Json (printedTree)

variable {c : EntityClass} {g : Engine} {p : Number → Prop} {tree tree' : FileTree}
  {base : Place} {used : List String}

/-! ## Shelves that were written -/

namespace Shelf

/-- A shelf that comes from another one by writing documents of proper entities, indexes and
    lists of types. -/
inductive Written (p : Number → Prop) (s : Shelf c) : Shelf c → Prop where
  | unchanged : Written p s s
  | put {t : Shelf c} (type : String) {entities : List (Entity c)} : Written p s t →
    (∀ e ∈ entities, e.Proper p) → Written p s (t.put type entities)
  | record {t : Shelf c} (key type : String) : Written p s t → Written p s (t.record key type)
  | setIndex {t : Shelf c} (index : Entries String) : Written p s t →
    Written p s (t.setIndex index)

theorem Written.trans {s t u : Shelf c} (h : Written p s t) (h' : Written p t u) :
    Written p s u := by
  induction h' with
  | unchanged => exact h
  | put type _ hproper ih => exact .put type ih hproper
  | record key type _ ih => exact .record key type ih
  | setIndex index _ ih => exact .setIndex index ih

/-- The list of types is ascending, if it can be read. -/
def Ascending (s : Shelf c) : Prop := ∀ types, s.types = .ok types → types.Pairwise (· < ·)

theorem Ascending.nodup {s : Shelf c} (h : s.Ascending) {types : List String}
    (htypes : s.types = .ok types) : types.Nodup := (h types htypes).imp ne_of_lt

theorem Ascending.record {s : Shelf c} (h : s.Ascending) (key type : String) :
    (s.record key type).Ascending := by
  intro types htypes
  cases hbefore : s.types with
  | error f =>
    rw [Shelf.record, hbefore] at htypes
    cases htypes
  | ok before =>
    rw [← Except.ok.inj ((types_record hbefore key type).symm.trans htypes)]
    exact (Catalog.ascending_recorded (h before hbefore) type).1

theorem Written.ascending {s t : Shelf c} (hwritten : Written p s t) (h : s.Ascending) :
    t.Ascending := by
  induction hwritten with
  | unchanged => exact h
  | put type _ _ ih => exact ih
  | record key type _ ih => exact ih.record key type
  | setIndex index _ ih => exact ih

/-- No entity that can be read is nested deeper than a reader takes. -/
def Shallow (s : Shelf c) : Prop :=
  ∀ type entities, s.load type = .ok entities →
    ∀ e ∈ entities, (printedTree 2 e.toJson).withinLimit = true

/-- What is read from a document nests no deeper than what was written, and that has been read. -/
theorem Shallow.put {s : Shelf c} (h : s.Shallow) (hp : Number.Stable p) (type : String)
    {entities : List (Entity c)} (hproper : ∀ e ∈ entities, e.Proper p) :
    (s.put type entities).Shallow := by
  intro other read hload e he
  by_cases hother : other = type
  · subst hother
    rw [s.load_put_self (checkType_of_load hload)] at hload
    obtain rfl := Document.eq_of_decode_entitiesText hp hproper hload
    obtain ⟨written, hwritten, rfl⟩ := List.mem_map.1 he
    exact Entity.withinLimit_reread
      (Document.withinLimit_of_decode_entitiesText hp hproper hload written hwritten)
  · rw [s.load_put_of_ne hother] at hload
    exact h other read hload e he

/-- A document of such entities is one still with another of them. -/
theorem Shallow.append {s : Shelf c} (h : s.Shallow) {type : String} {entities : List (Entity c)}
    (hload : s.load type = .ok entities) {e : Entity c}
    (he : (printedTree 2 e.toJson).withinLimit = true) :
    ∀ x ∈ entities ++ [e], (printedTree 2 x.toJson).withinLimit = true := by
  intro x hx
  rcases List.mem_append.1 hx with hold | hlast
  · exact h type entities hload x hold
  · rw [List.mem_singleton.1 hlast]
    exact he

theorem Written.shallow {s t : Shelf c} (hwritten : Written p s t) (hp : Number.Stable p)
    (h : s.Shallow) : t.Shallow := by
  induction hwritten with
  | unchanged => exact h
  | put type _ hproper ih => exact ih.put hp type hproper
  | record key type _ ih => exact ih
  | setIndex index _ ih => exact ih

end Shelf

/-! ## What calls write -/

namespace Engine

theorem Creates.written (h : g.Sound p used tree base) {stamp : Stamp} {body : Body c}
    {outcome : Outcome (Entity c)} (hcreates : g.Creates p tree base stamp body outcome tree') :
    (tree.shelf g.root c).Written p (tree'.shelf g.root c) := by
  cases hcreates with
  | refused f _ hbecomes =>
    rw [hbecomes.here]
    exact .unchanged
  | unindexed f _ entities s _ hload _ _ hkept hbecomes =>
    rw [hbecomes.here]
    exact .put _ .unchanged (h.proper_append hload hkept.proper)
  | done _ entities s hload _ _ hkept _ hbecomes =>
    rw [hbecomes.here]
    exact .record _ _ (.put _ .unchanged (h.proper_append hload hkept.proper))

theorem Edits.written (h : g.Sound p used tree base) {stamp : Stamp} {id : Id} {patch : Patch c}
    {outcome : Outcome (Entity c)} (hedits : g.Edits p tree base stamp id patch outcome tree') :
    (tree.shelf g.root c).Written p (tree'.shelf g.root c) := by
  -- those of a document that stay in it are as proper as they were
  have hothers : ∀ type entities, (tree.shelf g.root c).load type = .ok entities →
      ∀ e ∈ entities.filter (fun e => !e.id.same id), e.Proper p :=
    fun type entities hload e he => h.proper hload e (List.mem_of_mem_filter he)
  cases hedits with
  | refused f _ => exact .unchanged
  | unwritten f _ key type index entities kept _ _ hbecomes _ =>
    rw [hbecomes.here]
    exact .unchanged
  | lost f _ key type index entities kept seen _ hlocated _ _ hbecomes =>
    rw [hbecomes.here]
    exact .put _ .unchanged (hothers _ _ hlocated.loaded)
  | changed _ key type index entities kept seen s hlocated _ hkept _ hbecomes =>
    rw [hbecomes.here]
    exact .put _ .unchanged (h.proper_replaceFirst hlocated.loaded hkept.proper)
  | moved _ key type type' index entities entities' kept seen s hlocated _ hload _ _ hkept _
      hbecomes =>
    rw [hbecomes.here]
    exact .record _ _ (.put _ (.put _ .unchanged (hothers _ _ hlocated.loaded))
      (h.proper_append hload hkept.proper))

theorem Deletes.written (h : g.Sound p used tree base) {id : Id} {outcome : Outcome Unit}
    (hdeletes : g.Deletes tree base c id outcome tree') :
    (tree.shelf g.root c).Written p (tree'.shelf g.root c) := by
  cases hdeletes with
  | refused f => exact .unchanged
  | stale f _ key type index entities _ _ _ _ _ hupdates =>
    rw [hupdates.here]
    exact .setIndex _ .unchanged
  | done _ key type index entities kept hlocated hbecomes =>
    rw [hbecomes.here]
    refine .setIndex _ (.put _ .unchanged fun e he => ?_)
    exact h.proper hlocated.loaded e ((Catalog.removeFirst_sublist id entities).subset he)

/-- Whatever a call returns, the shelves afterwards were written from those before. -/
theorem Sound.written_advance (h : g.Sound p used tree base) (huniform : g.Uniform) {step : Step}
    (haccepts : g.Accepts p step) (c : EntityClass) :
    (tree.shelf g.root c).Written p ((g.advance tree step).shelf g.root c) := by
  have hanswers := h.answers huniform haccepts
  generalize g.advance tree step = tree' at hanswers ⊢
  generalize ((g.answer step.stamp step.call).exec tree).1 = outcome at hanswers
  -- a change of the other class has written nothing here
  have hother : tree'.shelf g.root c = tree.shelf g.root c →
      (tree.shelf g.root c).Written p (tree'.shelf g.root c) := by
    intro hshelf
    rw [hshelf]
    exact .unchanged
  obtain ⟨stamp, call⟩ := step
  cases hanswers with
  | got c' id => exact .unchanged
  | searched c' s => exact .unchanged
  | listed c' => exact .unchanged
  | @created c' _ _ _ hcreates =>
    by_cases hclass : c = c'
    · subst hclass
      exact hcreates.written h
    · exact hother (hcreates.other_class hclass)
  | @edited c' _ _ _ _ hedits =>
    by_cases hclass : c = c'
    · subst hclass
      exact hedits.written h
    · exact hother (hedits.other_class hclass)
  | @removed c' _ _ _ hdeletes =>
    by_cases hclass : c = c'
    · subst hclass
      exact hdeletes.written h
    · exact hother (hdeletes.other_class hclass)

/-- After every run the shelves were written from those of the empty root. -/
theorem written_after (hbare : tree.Bare g.root base) (hp : Number.Stable p)
    (huniform : g.Uniform) {steps : List Step} (hallows : g.Allows p steps) (c : EntityClass) :
    (tree.shelf g.root c).Written p ((g.after tree steps).shelf g.root c) := by
  induction steps using List.reverseRecOn with
  | nil => exact .unchanged
  | append_singleton steps step ih =>
    have hsound := sound_after hbare hp huniform hallows.before
    rw [after_append]
    exact (ih hallows.before).trans
      (hsound.written_advance huniform (hallows.accepted step (by simp)) c)

/-- After every run the list of types is ascending. -/
theorem ascending_after (hbare : tree.Bare g.root base) (hp : Number.Stable p)
    (huniform : g.Uniform) {steps : List Step} (hallows : g.Allows p steps) (c : EntityClass) :
    ((g.after tree steps).shelf g.root c).Ascending := by
  refine (written_after hbare hp huniform hallows c).ascending fun types htypes => ?_
  rw [hbare.types htypes]
  exact .nil

/-- After every run all entities that can be read are within the limit. -/
theorem shallow_after (hbare : tree.Bare g.root base) (hp : Number.Stable p) (huniform : g.Uniform)
    {steps : List Step} (hallows : g.Allows p steps) (c : EntityClass) :
    ((g.after tree steps).shelf g.root c).Shallow := by
  refine (written_after hbare hp huniform hallows c).shallow hp ?_
  intro type entities hload e he
  rw [hbare.load hload] at he
  cases he

end Engine

end PropertyGraph
