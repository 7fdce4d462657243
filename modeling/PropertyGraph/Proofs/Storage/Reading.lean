/-
  PropertyGraph.Proofs.Storage.Reading

  Lookups and searches change nothing, and their answers follow from the shelf of the class
  and from how its entities are seen.  Two trees in which these agree give the same answers.
-/
import PropertyGraph.Proofs.Storage.Engine

namespace PropertyGraph

variable {α β : Type} {c : EntityClass} {g : Engine} {tree tree' : FileTree}

/-! ## Tasks that read -/

namespace FileTask

/-- A task that changes neither of two trees and has the same outcome on both. -/
structure Agrees (task : FileTask α) (tree tree' : FileTree) : Prop where
  here : (task.exec tree).2 = tree
  there : (task.exec tree').2 = tree'
  same : (task.exec tree').1 = (task.exec tree).1

theorem agrees_ofOutcome (o : Outcome α) : (ofOutcome o).Agrees tree tree' := ⟨rfl, rfl, rfl⟩

theorem agrees_pure (a : α) : (pure a : FileTask α).Agrees tree tree' := ⟨rfl, rfl, rfl⟩

/-- A task with known outcomes agrees if they are the same. -/
theorem agrees_of_exec {task : FileTask α} {o : Outcome α} (h : task.exec tree = (o, tree))
    (h' : task.exec tree' = (o, tree')) : task.Agrees tree tree' := by
  constructor
  · rw [h]
  · rw [h']
  · rw [h, h']

theorem Agrees.bind {task : FileTask α} {next : α → FileTask β} (h : task.Agrees tree tree')
    (hnext : ∀ a, (task.exec tree).1 = .ok a → (next a).Agrees tree tree') :
    (task >>= next).Agrees tree tree' := by
  have hhere : task.exec tree = ((task.exec tree).1, tree) := Prod.ext rfl h.here
  have hthere : task.exec tree' = ((task.exec tree).1, tree') := Prod.ext h.same h.there
  cases hfirst : (task.exec tree).1 with
  | error f =>
    rw [hfirst] at hhere hthere
    exact agrees_of_exec (exec_bind_of_error hhere) (exec_bind_of_error hthere)
  | ok a =>
    rw [hfirst] at hhere hthere
    have hagrees := hnext a hfirst
    -- the first task has changed neither tree, so the second starts from the same ones
    constructor
    · rw [exec_bind_of_ok hhere]
      exact hagrees.here
    · rw [exec_bind_of_ok hthere]
      exact hagrees.there
    · rw [exec_bind_of_ok hhere, exec_bind_of_ok hthere]
      exact hagrees.same

end FileTask

open FileTask (Agrees agrees_ofOutcome agrees_pure agrees_of_exec)

/-! ## Lookups and searches -/

namespace Engine

/-- An entity is seen in the same way in both trees. -/
def SeenSame (g : Engine) (tree tree' : FileTree) (e : Entity c) : Prop :=
  ((g.view e).exec tree').1 = ((g.view e).exec tree).1

theorem agrees_view {e : Entity c} (h : g.SeenSame tree tree' e) : (g.view e).Agrees tree tree' := by
  obtain ⟨outcome, hexec⟩ := exec_view_unchanged g e tree
  obtain ⟨outcome', hexec'⟩ := exec_view_unchanged g e tree'
  rw [SeenSame, hexec, hexec'] at h
  obtain rfl : outcome' = outcome := h
  exact agrees_of_exec hexec hexec'

/-- A lookup gives the same answer where the shelves find the same entity and it is seen in the
    same way. -/
theorem agrees_get {id : Id} (hget : (tree'.shelf g.root c).get id = (tree.shelf g.root c).get id)
    (hseen : ∀ e, (tree.shelf g.root c).get id = .ok (some e) → g.SeenSame tree tree' e) :
    (g.get c id).Agrees tree tree' := by
  have hfound : (Catalog.get g.root c id).Agrees tree tree' := by
    refine agrees_of_exec (Catalog.exec_get g.root c id tree) ?_
    rw [Catalog.exec_get, hget]
  refine hfound.bind fun found hok => ?_
  rw [Catalog.exec_get] at hok
  cases found with
  | none => exact agrees_pure _
  | some e => exact (agrees_view (hseen e hok)).bind fun seen _ => agrees_pure _

theorem agrees_keep (m : CompiledSearcher c) {entities : List (Entity c)}
    (hseen : ∀ e ∈ entities, g.SeenSame tree tree' e) : (g.keep m entities).Agrees tree tree' := by
  induction entities with
  | nil => exact agrees_pure _
  | cons e rest ih =>
    have hrest := ih fun x hx => hseen x (List.mem_cons_of_mem _ hx)
    rw [keep]
    refine (agrees_view (hseen e (List.mem_cons_self ..))).bind fun seen _ => ?_
    refine (agrees_ofOutcome _).bind fun hit _ => ?_
    exact hrest.bind fun more _ => agrees_pure _

theorem agrees_scan {documents : List (String × Searcher)}
    (hload : ∀ type residual, (type, residual) ∈ documents →
      (tree'.shelf g.root c).load type = (tree.shelf g.root c).load type)
    (hseen : ∀ type entities, (tree.shelf g.root c).load type = .ok entities →
      ∀ e ∈ entities, g.SeenSame tree tree' e) :
    (g.scan c documents).Agrees tree tree' := by
  induction documents with
  | nil => exact agrees_pure _
  | cons document rest ih =>
    obtain ⟨type, residual⟩ := document
    have hrest := ih fun type' residual' hmem => hload type' residual' (List.mem_cons_of_mem _ hmem)
    have hdocument : (Catalog.load g.root c type).Agrees tree tree' := by
      refine agrees_of_exec (Catalog.exec_load g.root c type tree) ?_
      rw [Catalog.exec_load, hload type residual (List.mem_cons_self ..)]
    rw [scan]
    -- compile the residual, load the document, look at its entities, and go on
    refine (agrees_ofOutcome _).bind fun m _ => ?_
    refine hdocument.bind fun entities hok => ?_
    rw [Catalog.exec_load] at hok
    refine (agrees_keep m (hseen type entities hok)).bind fun found _ => ?_
    exact hrest.bind fun more _ => agrees_pure _

/-- Only types of the list are asked for. -/
theorem known_of_mem_documents {known : List String} {plan : Plan} {type : String}
    {residual : Searcher} (h : (type, residual) ∈ documents known plan) : type ∈ known := by
  cases plan with
  | byType residuals =>
    have hknown := (List.mem_filter.1 h).2
    exact List.contains_iff_mem.1 hknown
  | everyType s =>
    obtain ⟨known', hmem, heq⟩ := List.mem_map.1 h
    rw [← (Prod.mk.inj heq).1]
    exact hmem

/-- A search gives the same answer where the shelves have the same list of types and the same
    documents of these types, and all entities are seen in the same way. -/
theorem agrees_search (s : Searcher)
    (htypes : (tree'.shelf g.root c).types = (tree.shelf g.root c).types)
    (hload : ∀ known, (tree.shelf g.root c).types = .ok known → ∀ type ∈ known,
      (tree'.shelf g.root c).load type = (tree.shelf g.root c).load type)
    (hseen : ∀ type entities, (tree.shelf g.root c).load type = .ok entities →
      ∀ e ∈ entities, g.SeenSame tree tree' e) :
    (g.search c s).Agrees tree tree' := by
  have hknown : (Catalog.types g.root c).Agrees tree tree' := by
    refine agrees_of_exec (Catalog.exec_types g.root c tree) ?_
    rw [Catalog.exec_types, htypes]
  rw [search]
  refine (agrees_ofOutcome _).bind fun _ _ => ?_
  refine (agrees_ofOutcome _).bind fun plan _ => ?_
  by_cases hempty : plan.isEmpty = true
  · rw [if_pos hempty]
    exact agrees_pure _
  · rw [if_neg hempty]
    refine hknown.bind fun known hok => ?_
    rw [Catalog.exec_types] at hok
    exact agrees_scan (fun type residual hmem => hload known hok type (known_of_mem_documents hmem))
      hseen

/-! ## Reading changes nothing -/

theorem exec_get_unchanged (g : Engine) (c : EntityClass) (id : Id) (tree : FileTree) :
    ((g.get c id).exec tree).2 = tree := by
  have hagrees : (g.get c id).Agrees tree tree := agrees_get rfl fun _ _ => rfl
  exact hagrees.here

theorem exec_search_unchanged (g : Engine) (c : EntityClass) (s : Searcher) (tree : FileTree) :
    ((g.search c s).exec tree).2 = tree := by
  have hagrees : (g.search c s).Agrees tree tree :=
    agrees_search s rfl (fun _ _ _ _ => rfl) fun _ _ _ _ _ => rfl
  exact hagrees.here

theorem exec_types_unchanged (g : Engine) (c : EntityClass) (tree : FileTree) :
    ((g.types c).exec tree).2 = tree := by
  rw [types, Catalog.exec_types]

end Engine

end PropertyGraph
