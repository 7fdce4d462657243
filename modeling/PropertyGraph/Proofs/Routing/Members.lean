/-
  PropertyGraph.Proofs.Routing.Members

  The suites behind a dispatcher, each a store in memory or a graph in documents without rules.
  What either holds is a table; a call makes the table follow its reply, reaches no further than
  the place of the suite in the tree of files, and leaves everything as it was if it only looks or
  if it fails.
-/
import PropertyGraph.Proofs.Routing.Division
import PropertyGraph.Proofs.Storage.Neighbours

namespace PropertyGraph

open Engine (Step)

variable {c : EntityClass} {key : String}

/-- A call only looks. -/
def Call.Looks : Call → Prop
  | .get _ _ | .search _ _ | .types _ => True
  | _ => False

theorem Engine.exec_unchanged_of_looks (g : Engine) {call : Call} (h : call.Looks) (stamp : Stamp)
    (tree : FileTree) : ((g.answer stamp call).exec tree).2 = tree := by
  cases call with
  | get c id => exact exec_get_unchanged g c id tree
  | search c s => exact exec_search_unchanged g c s tree
  | types c => exact exec_types_unchanged g c tree
  | _ => exact h.elim

/-- All keys of a state are made from unique texts that were used. -/
def Store.KeysFrom (kept : Store) (used : List String) (s : GraphState) : Prop :=
  ∀ c key (e : Entity c), s.get c key = some e → ∃ unique ∈ used, key = kept.keyOf unique

namespace Store.KeysFrom

variable {kept : Store} {used : List String} {s : GraphState}

/-- Under the key of a text that was not used there is nothing. -/
theorem fresh (h : kept.KeysFrom used s) {unique : String} (hfresh : unique ∉ used) :
    s.get c (kept.keyOf unique) = none := by
  cases hget : s.get c (kept.keyOf unique) with
  | none => rfl
  | some e =>
    obtain ⟨other, hmem, hkey⟩ := h c _ e hget
    exact absurd (kept.keyOf_inj hkey ▸ hmem) hfresh

/-- Texts that no key was made from do not matter. -/
theorem mono (h : kept.KeysFrom used s) {used' : List String} (hsub : used ⊆ used') :
    kept.KeysFrom used' s := fun c key e he =>
  (h c key e he).imp fun _ => And.imp_left fun hmem => hsub hmem

end Store.KeysFrom

namespace Suite

variable {tree tree' : FileTree} {base : Place} {used : List String} {suite suite' : Suite}
  {kept : Store} {s : GraphState} {g : Engine} {stamp : Stamp} {call : Call}

/-! ## What a suite holds -/

/-- A suite keeps an entity. -/
def Keeps (suite : Suite) (tree : FileTree) (e : Entity c) : Prop :=
  match suite with
  | .store ⟨_, _, .shared s⟩ => e ∈ (s.entities c).values
  | .engine g => ∃ type entities, (tree.shelf g.root c).load type = .ok entities ∧ e ∈ entities
  | _ => False

/-- What a suite keeps, by class and key. -/
def table (suite : Suite) (tree : FileTree) : Table :=
  match suite with
  | .store ⟨_, _, .shared s⟩ => s.get
  | .engine g => g.table tree
  | _ => fun _ _ => none

/-- A suite in good order, `used` being the unique texts that identities were made from. -/
inductive Serves (tree : FileTree) (base : Place) (used : List String) : Suite → Prop
  | store {kept : Store} {s : GraphState} : s.Keyed →
    kept.KeysFrom used s →
    Serves tree base used (.store (kept.withState s))
  | engine {g : Engine} : g.rules = [] → g.Consistent Number.InRange used tree base →
    Serves tree base used (.engine g)

namespace Serves

theorem keeps_iff (h : suite.Serves tree base used) {e : Entity c} :
    suite.Keeps tree e ↔ ∃ key, suite.table tree c key = some e := by
  cases h with
  | store hkeyed hused => exact hkeyed.mem_values_iff
  | @engine g hrules hconsistent =>
    constructor
    · rintro ⟨type, entities, hload, he⟩
      obtain ⟨key, hid⟩ := ((hconsistent.sound.good c).named type entities hload).texts e he
      exact ⟨key, hconsistent.table_eq_some_iff.2 ⟨type, entities, hload, he, hid⟩⟩
    · rintro ⟨key, htable⟩
      obtain ⟨type, entities, hload, he, -⟩ := hconsistent.table_eq_some_iff.1 htable
      exact ⟨type, entities, hload, he⟩

theorem id_of_table (h : suite.Serves tree base used) {e : Entity c}
    (he : suite.table tree c key = some e) : e.id = .ofString key := by
  cases h with
  | store hkeyed hused => exact hkeyed.id_of_get he
  | engine hrules hconsistent => exact (hconsistent.of_table he).1

/-- Texts that nothing has been named by do not matter. -/
theorem mono (h : suite.Serves tree base used) {used' : List String}
    (hsub : ∀ unique ∈ used, unique ∈ used') : suite.Serves tree base used' := by
  cases h with
  | store hkeyed hused => exact .store hkeyed (hused.mono hsub)
  | engine hrules hconsistent => exact .engine hrules (hconsistent.mono hrules hsub)

end Serves

/-! ## Calls -/

/-- What a call does to a suite that serves. -/
structure Advances (suite : Suite) (tree : FileTree) (base : Place) (used : List String)
    (stamp : Stamp) (call : Call) (outcome : Outcome call.Reply) (suite' : Suite)
    (tree' : FileTree) : Prop where
  serves : suite'.Serves tree' base (used ++ Step.given ⟨stamp, call⟩)
  follows : (suite.table tree).Follows stamp.time call outcome (suite'.table tree')
  spares : tree.Spares tree' base
  change : ∃ touched, tree.ChangesOnly tree' touched
  unchanged : (call.Looks ∨ ∃ f, outcome = .error f) → suite' = suite ∧ tree' = tree
  /-- a store in memory has no files -/
  still : (∀ g, suite ≠ .engine g) → tree' = tree
  engine : ∀ g, suite' = .engine g ↔ suite = .engine g

section Responses

variable (kept : Store) (stamp : Stamp) (s : GraphState) (id : Id)

/-- An edit is refused, or changes what is there. -/
theorem respond_edit (patch : Patch c) :
    (∃ f, kept.respond stamp s (.edit c id patch) = (.error f, s))
      ∨ ∃ key old, id = .ofString key ∧ s.get c key = some old
        ∧ kept.respond stamp s (.edit c id patch)
          = (.ok (patch.apply old stamp.time), s.insert key (patch.apply old stamp.time)) := by
  rw [Store.respond]
  cases hid : id.requireText with
  | error failure => exact .inl ⟨failure, rfl⟩
  | ok key =>
    cases hget : s.get c key with
    | none => exact .inl ⟨_, GraphState.edit_of_none hget _ _ _⟩
    | some old =>
      exact .inr ⟨key, old, Catalog.eq_ofString_of_requireText hid, hget,
        GraphState.edit_of_get hget _ _ _⟩

/-- A removal is refused, or removes what is there. -/
theorem respond_remove (c : EntityClass) :
    (∃ f, kept.respond stamp s (.remove c id) = (.error f, s))
      ∨ ∃ key old, id = .ofString key ∧ s.get c key = some old
        ∧ kept.respond stamp s (.remove c id)
          = (.ok (), s.withEntities c ((s.entities c).erase key)) := by
  rw [Store.respond]
  cases hid : id.requireText with
  | error failure => exact .inl ⟨failure, rfl⟩
  | ok key =>
    cases hget : s.get c key with
    | none => exact .inl ⟨_, GraphState.remove_of_none hget _⟩
    | some old =>
      exact .inr ⟨key, old, Catalog.eq_ofString_of_requireText hid, hget,
        GraphState.remove_of_get hget _⟩

end Responses

/-- A state follows the replies of its store. -/
theorem follows_respond (hkeyed : s.Keyed)
    (hused : kept.KeysFrom used s)
    (hfresh : ∀ unique ∈ Step.given ⟨stamp, call⟩, unique ∉ used) :
    Table.Follows s.get stamp.time call (kept.respond stamp s call).1
      (kept.respond stamp s call).2.get := by
  cases call with
  | get c id =>
    cases hid : id.requireText with
    | error failure =>
      rw [Store.respond, hid]
      exact .failed failure
    | ok key =>
      obtain rfl := Catalog.eq_ofString_of_requireText hid
      exact .got c key
  | search c q =>
    rw [Store.respond]
    cases hfilter : q.filter (kept.evaluators.forClass c) (s.entities c).values with
    | error failure => exact .failed failure
    | ok found =>
      refine .searched q fun e he => ?_
      obtain ⟨-, -, rfl⟩ := Searcher.filter_eq_ok_iff.1 hfilter
      obtain ⟨key, hget⟩ := hkeyed.mem_values_iff.1 (List.mem_filter.1 he).1
      exact ⟨key, hkeyed.id_of_get hget, hget⟩
  | types c => exact .listed c _
  -- what is created stands under a key that nothing else has been given
  | create c body =>
    have hchange := s.changesAt_insert (kept.keyOf stamp.unique)
      (body.create (.ofString (kept.keyOf stamp.unique)) (some stamp.time))
    exact .created rfl (hused.fresh (hfresh _ (List.mem_singleton.2 rfl))) hchange.spares
      hchange.here .refl
  | edit c id patch =>
    obtain ⟨f, hrefused⟩ | ⟨key, old, rfl, hget, hchanged⟩ := respond_edit kept stamp s id patch
    · rw [hrefused]
      exact .failed f
    · have hchange := s.changesAt_insert key (patch.apply old stamp.time)
      rw [hchanged]
      exact .edited rfl hget hchange.spares hchange.here .refl
  | remove c id =>
    obtain ⟨f, hrefused⟩ | ⟨key, old, rfl, hget, hremoved⟩ := respond_remove kept stamp s id c
    · rw [hrefused]
      exact .failed f
    · have hchange := GraphState.changesAt_erase hkeyed c key
      rw [hremoved]
      exact .removed hget hchange.spares hchange.here

/-- A state is as it was after a call that only looks or fails. -/
theorem respond_unchanged (h : call.Looks ∨ ∃ f, (kept.respond stamp s call).1 = .error f) :
    (kept.respond stamp s call).2 = s := by
  cases call with
  | get c id => rfl
  | search c q => rfl
  | types c => rfl
  | create c body =>
    obtain hlooks | ⟨f, hf⟩ := h
    · exact hlooks.elim
    · cases hf
  | edit c id patch =>
    obtain hlooks | ⟨f, hf⟩ := h
    · exact hlooks.elim
    obtain ⟨f', hrefused⟩ | ⟨key, old, -, -, hchanged⟩ := respond_edit kept stamp s id patch
    · rw [hrefused]
    · rw [hchanged] at hf
      cases hf
  | remove c id =>
    obtain hlooks | ⟨f, hf⟩ := h
    · exact hlooks.elim
    obtain ⟨f', hrefused⟩ | ⟨key, old, -, -, hremoved⟩ := respond_remove kept stamp s id c
    · rw [hrefused]
    · rw [hremoved] at hf
      cases hf

/-- After a call all keys are made from unique texts that were used. -/
theorem keysFrom_respond (hkeyed : s.Keyed) (hused : kept.KeysFrom used s) :
    kept.KeysFrom (used ++ Step.given ⟨stamp, call⟩) (kept.respond stamp s call).2 := by
  intro c key e he
  have hold : kept.KeysFrom (used ++ Step.given ⟨stamp, call⟩) s :=
    hused.mono (List.subset_append_left ..)
  cases call with
  | get _ id => exact hold c key e he
  | search _ q => exact hold c key e he
  | types _ => exact hold c key e he
  | create _ body =>
    obtain ⟨rfl, rfl⟩ | hbefore := (s.changesAt_insert _ _).of_some_after he
    · exact ⟨stamp.unique, List.mem_append_right _ (List.mem_singleton.2 rfl), rfl⟩
    · exact hold _ _ _ hbefore
  -- An edit and a removal are given no unique text: a key that is held afterwards was held before.
  | edit _ id patch =>
    obtain ⟨f, hrefused⟩ | ⟨key', old, -, hget, hchanged⟩ := respond_edit kept stamp s id patch
    · rw [hrefused] at he
      exact hold _ _ _ he
    · rw [hchanged] at he
      obtain ⟨rfl, rfl⟩ | hbefore := (s.changesAt_insert _ _).of_some_after he
      · exact hold _ _ _ hget
      · exact hold _ _ _ hbefore
  | remove c' id =>
    obtain ⟨f, hrefused⟩ | ⟨key', old, -, hget, hremoved⟩ := respond_remove kept stamp s id c'
    · rw [hrefused] at he
      exact hold _ _ _ he
    · rw [hremoved] at he
      obtain ⟨rfl, rfl⟩ | hbefore := (GraphState.changesAt_erase hkeyed c' key').of_some_after he
      · exact hold _ _ _ hget
      · exact hold _ _ _ hbefore

theorem Serves.advances_store (hkeyed : s.Keyed)
    (hused : kept.KeysFrom used s)
    (hfresh : ∀ unique ∈ Step.given ⟨stamp, call⟩, unique ∉ used) :
    Advances (.store (kept.withState s)) tree base used stamp call (kept.respond stamp s call).1
      (.store (kept.withState (kept.respond stamp s call).2)) tree where
  serves := .store (kept.keyed_respond hkeyed stamp call) (keysFrom_respond hkeyed hused)
  follows := follows_respond hkeyed hused hfresh
  spares := .refl tree base
  change := ⟨fun _ => False, .refl tree _⟩
  unchanged h := ⟨by rw [respond_unchanged h], rfl⟩
  still _ := rfl
  engine g := by constructor <;> intro h <;> cases h

/-- A call to a suite that serves makes its table follow the reply and stays within its bounds, if
    files do not fail and stay within the limit. -/
theorem Serves.advances (h : suite.Serves tree base used) {step : Step}
    (hproper : step.Proper Number.InRange) (hfresh : ∀ unique ∈ step.given, unique ∉ used)
    {outcome : Outcome step.call.Reply}
    (hrun : (answer step.stamp suite step.call).run tree = ((outcome, suite'), tree'))
    (hfiles : ∀ f, outcome = .error f → ¬ f.OfFiles)
    (hlimit : ∀ g, suite = .engine g → ∀ c, (tree'.shelf g.root c).WithinLimit) :
    Advances suite tree base used step.stamp step.call outcome suite' tree' := by
  cases h with
  | @store kept s hkeyed hused =>
    rw [run_store, Store.run_answer_withState] at hrun
    obtain ⟨⟨rfl, rfl⟩, rfl⟩ := Prod.mk.inj hrun |>.imp_left Prod.mk.inj
    exact advances_store hkeyed hused hfresh
  | @engine g hrules hconsistent =>
    rw [run_engine] at hrun
    obtain ⟨⟨houtcome, rfl⟩, htree⟩ := Prod.mk.inj hrun |>.imp_left Prod.mk.inj
    have hafter : g.advance tree step = tree' := htree
    have haccepts := hproper.accepts hrules
    have hrefuses : ¬ g.FailsOfFiles tree step := by
      rintro ⟨f, hf, hstorage⟩
      exact hfiles f (houtcome.symm.trans hf) hstorage
    have hlimit' := hlimit g rfl
    rw [← hafter] at hlimit'
    obtain ⟨hconsistent', hfollows⟩ := hconsistent.follows Number.stable_inRange hrules haccepts
      hfresh hrefuses hlimit'
    obtain ⟨hspares, hchange⟩ := hconsistent.stays hrules haccepts
    rw [hafter] at hconsistent' hfollows hspares hchange
    rw [houtcome] at hfollows
    refine ⟨.engine hrules hconsistent', hfollows, hspares, hchange, fun h => ⟨rfl, ?_⟩,
      fun hno => absurd rfl (hno g), fun _ => Iff.rfl⟩
    obtain hlooks | ⟨f, rfl⟩ := h
    · exact htree.symm.trans (g.exec_unchanged_of_looks hlooks step.stamp tree)
    · exact hconsistent.failsClean hrules step.stamp step.call f tree' (Prod.ext houtcome htree)
        (hfiles f rfl)

namespace Serves

/-! ### Looking -/

variable (h : suite.Serves tree base used)

include h

/-- A call that only looks leaves everything as it is. -/
theorem run_looks (hlooks : call.Looks) (stamp : Stamp) :
    ∃ outcome, (answer stamp suite call).run tree = ((outcome, suite), tree) := by
  cases h with
  | @store kept s hkeyed hused =>
    refine ⟨(kept.respond stamp s call).1, ?_⟩
    rw [run_store, Store.run_answer_withState, respond_unchanged (.inl hlooks)]
  | @engine g hrules hconsistent =>
    refine ⟨((g.answer stamp call).exec tree).1, ?_⟩
    rw [run_engine, g.exec_unchanged_of_looks hlooks]

/-- What is in the table is found under its key. -/
theorem run_get {e : Entity c} (he : suite.table tree c key = some e) (stamp : Stamp) :
    (answer stamp suite (.get c (.ofString key))).run tree = ((.ok (some e), suite), tree) := by
  cases h with
  | @store kept s hkeyed hused =>
    have hreply : kept.respond stamp s (.get c (.ofString key)) = (.ok (s.get c key), s) := rfl
    have hget : s.get c key = some e := he
    rw [run_store, Store.run_answer_withState, hreply, hget]
  | @engine g hrules hconsistent =>
    have hget : (g.answer stamp (.get c (.ofString key))).exec tree = (.ok (some e), tree) := by
      show (g.get c (.ofString key)).exec tree = _
      rw [Engine.exec_get_of_rules hrules, Shelf.get_of_lookup he]
      rfl
    rw [run_engine, hget]

/-- What is found under an identity is in the table. -/
theorem table_of_get {id : Id} {stamp : Stamp} {e : Entity c}
    (hreply : ((answer stamp suite (.get c id)).run tree).1.1 = .ok (some e)) :
    ∃ key, id = .ofString key ∧ suite.table tree c key = some e := by
  cases h with
  | @store kept s hkeyed hused =>
    rw [run_store, Store.run_answer_withState, Store.respond] at hreply
    cases hid : id.requireText with
    | error failure =>
      rw [hid] at hreply
      cases hreply
    | ok key =>
      rw [hid] at hreply
      exact ⟨key, Catalog.eq_ofString_of_requireText hid, Except.ok.inj hreply⟩
  | @engine g hrules hconsistent =>
    rw [run_engine] at hreply
    replace hreply : ((g.get c id).exec tree).1 = .ok (some e) := hreply
    rw [Engine.exec_get_of_rules hrules] at hreply
    exact Shelf.lookup_of_get hreply

/-- What a search finds is in the table. -/
theorem table_of_search {q : Searcher} {stamp : Stamp} {found : List (Entity c)}
    (hreply : ((answer stamp suite (.search c q)).run tree).1.1 = .ok found) :
    ∀ e ∈ found, ∃ key, suite.table tree c key = some e := by
  intro e he
  cases h with
  | @store kept s hkeyed hused =>
    rw [run_store, Store.run_answer_withState] at hreply
    obtain ⟨-, -, rfl⟩ := Searcher.filter_eq_ok_iff.1 hreply
    exact hkeyed.mem_values_iff.1 (List.mem_filter.1 he).1
  | @engine g hrules hconsistent =>
    rw [run_engine] at hreply
    obtain ⟨type, entities, hload, hmem⟩ := Engine.mem_of_exec_search hrules hreply e he
    exact (Serves.engine hrules hconsistent).keeps_iff.1 ⟨type, entities, hload, hmem⟩

/-! ### Standing by -/

/-- A call to another suite, at a place that lies apart, leaves the table as it was. -/
theorem spared {place : Place} (hspares : tree.Spares tree' place)
    (hchange : ∃ touched, tree.ChangesOnly tree' touched)
    (hapart : ∀ g, suite = .engine g → FileTree.Apart place base) :
    suite.Serves tree' base used ∧ suite.table tree' = suite.table tree
      ∧ ∀ g, suite = .engine g →
        ∀ names, tree'.occupant (base ++ names) = tree.occupant (base ++ names) := by
  cases h with
  | store hkeyed hused => exact ⟨.store hkeyed hused, rfl, fun g hg => by cases hg⟩
  | @engine g hrules hconsistent =>
    obtain ⟨touched, hchange⟩ := hchange
    have halike := hconsistent.sound.hosts.rooted.alike hchange hspares (hapart g rfl)
    refine ⟨.engine hrules (hconsistent.of_alike hrules halike), ?_, fun _ _ => halike.same⟩
    exact Engine.Consistent.table_congr fun c => halike.shelf c

end Serves

end Suite

end PropertyGraph
