/-
  PropertyGraph.Proofs.Storage.SearchRefusals

  Which searches for nodes are refused.  No extension is known for nodes, so that a search fails as
  soon as testing a node comes to one.  A store in memory tests all its nodes.  A graph in documents
  tests those whose types the plan leaves open: whatever it refuses the store refuses as well, and
  it answers a search that the store refuses just when only nodes of other types come to an
  extension.
-/
import PropertyGraph.Proofs.Json.DoubleText
import PropertyGraph.Proofs.Storage.Refinement

namespace PropertyGraph

open FileTree (Writable)
open Naming (indexStem)

variable {g : Engine} {tree : FileTree} {base : Place} {s : Searcher}

/-! ## Nodes that come to an extension -/

/-- An outcome that says that nobody can evaluate an extension. -/
def Unsupported {α : Type} (outcome : Outcome α) : Prop :=
  ∃ what, outcome = .error (.unsupported what)

/-- Testing a node comes to an extension. -/
def Searcher.MeetsExtension (s : Searcher) (e : Node) : Prop :=
  ∃ name args, s.Reaches Evaluator.builtin e name args

/-- No extension that is built in applies to a node. -/
theorem Evaluator.builtin_node (name : String) (args : Json) (e : Node) :
    Unsupported (Evaluator.builtin name args e) := by
  rw [Evaluator.builtin]
  split
  · exact ⟨_, rfl⟩
  · exact ⟨_, rfl⟩

namespace Searcher

variable {e : Node} {es : List Node} {failure : Failure}

/-- Testing a node fails at an extension, and in no other way. -/
theorem meets_of_test (hpaths : s.checkPaths = .ok ())
    (h : s.test Evaluator.builtin e = .error failure) :
    s.MeetsExtension e ∧ ∃ what, failure = .unsupported what := by
  rw [test_eq_holds _ hpaths] at h
  obtain ⟨name, args, hreaches, hfails⟩ := reaches_of_holds s ((checkPaths_ok_iff s).1 hpaths) h
  obtain ⟨what, hwhat⟩ := Evaluator.builtin_node name args e
  exact ⟨⟨name, args, hreaches⟩, what, Except.error.inj (hfails.symm.trans hwhat)⟩

/-- A node that comes to an extension cannot be tested. -/
theorem MeetsExtension.unsupported_test (h : s.MeetsExtension e) (hpaths : s.checkPaths = .ok ()) :
    Unsupported (s.test Evaluator.builtin e) := by
  obtain ⟨name, args, hreaches⟩ := h
  obtain ⟨what, hfails⟩ := Evaluator.builtin_node name args e
  rw [test_eq_holds _ hpaths]
  exact ⟨what, hreaches.holds_eq_error hfails⟩

/-- Filtering nodes fails just where one of them comes to an extension. -/
theorem unsupported_filter_iff (hpaths : s.checkPaths = .ok ()) :
    Unsupported (s.filter Evaluator.builtin es) ↔ ∃ e ∈ es, s.MeetsExtension e := by
  constructor
  · rintro ⟨what, hfails⟩
    rcases filter_eq_error hfails with hunreadable | ⟨-, e, he, htest⟩
    · rw [hpaths] at hunreadable
      cases hunreadable
    · exact ⟨e, he, (meets_of_test hpaths htest).1⟩
  · rintro ⟨e, he, hmeets⟩
    obtain ⟨what, htest⟩ := hmeets.unsupported_test hpaths
    cases hfilter : s.filter Evaluator.builtin es with
    | ok kept =>
      obtain ⟨hit, hhit⟩ := (filter_eq_ok_iff.1 hfilter).2.1 e he
      cases htest.symm.trans hhit
    | error failure =>
      -- it may be another node that has failed
      rcases filter_eq_error hfilter with hunreadable | ⟨-, other, -, hother⟩
      · rw [hpaths] at hunreadable
        cases hunreadable
      · obtain ⟨what, rfl⟩ := (meets_of_test hpaths hother).2
        exact ⟨what, rfl⟩

/-- Nodes none of which comes to an extension are filtered. -/
theorem filter_of_not_meets (hpaths : s.checkPaths = .ok ())
    (h : ¬ ∃ e ∈ es, s.MeetsExtension e) :
    s.filter Evaluator.builtin es = .ok (es.filter (s.keeps Evaluator.builtin)) := by
  refine filter_eq_ok_iff.2 ⟨hpaths, fun e he => ?_, rfl⟩
  cases htest : s.test Evaluator.builtin e with
  | ok hit => exact ⟨hit, rfl⟩
  | error failure => exact absurd ⟨e, he, (meets_of_test hpaths htest).1⟩ h

end Searcher

/-! ## Numbers that documents give back -/

/-- A number that there is, and that is read from its text as it was written: any integer, and the
    doubles of which this is true. -/
def Number.Lasts (n : Number) : Prop := n.InRange ∧ n.reread = n

theorem Number.lasting_lasts : Number.Lasting Number.Lasts where
  whole n h := ⟨Number.stable_inRange.whole n h, h.reread⟩
  legible n h := Number.stable_inRange.legible n h.1
  reread _ h := h.2.symm ▸ h
  same _ h := h.2

/-! ## Nodes in both -/

/-- A node to be created, and what its creation takes from its surroundings. -/
structure Creation where
  stamp : Stamp
  body : Body .node

namespace Creation

/-- The creation as an action. -/
def action (x : Creation) : Action := ⟨x.stamp, .call (.create .node x.body)⟩

/-- The node that a graph creates. -/
def node (g : Engine) (x : Creation) : Node := g.created x.stamp x.body

end Creation

namespace Engine

/-- Nodes with distinct identities that a graph takes and that its documents give back. -/
structure Stocks (g : Engine) (creations : List Creation) : Prop where
  distinct : (creations.map fun x => x.stamp.unique).Nodup
  times : ∀ x ∈ creations, TimeFits x.stamp.time
  proper : ∀ x ∈ creations, x.body.Proper Number.Lasts
  shallow : ∀ x ∈ creations, x.body.Shallow
  takes : ∀ x ∈ creations, g.Takes .node x.body.type
  index : ∀ c, Writable g.root (indexStem c)

theorem Stocks.of_append {creations rest : List Creation} (h : g.Stocks (creations ++ rest)) :
    g.Stocks creations where
  distinct := by
    have hdistinct := h.distinct
    rw [List.map_append] at hdistinct
    exact hdistinct.of_append_left
  times x hx := h.times x (List.mem_append_left _ hx)
  proper x hx := h.proper x (List.mem_append_left _ hx)
  shallow x hx := h.shallow x (List.mem_append_left _ hx)
  takes x hx := h.takes x (List.mem_append_left _ hx)
  index := h.index

/-- Created in both, the nodes are mirrored, and the store holds them one after the other. -/
theorem mirrors_stocked (hbare : tree.Bare g.root base) (hrules : g.rules = [])
    {creations : List Creation} (hstocks : g.Stocks creations) (other : FileTree) :
    ∃ tree' state,
      Action.after (.engine g, tree) (creations.map Creation.action) = (.engine g, tree')
      ∧ Action.after (.store g.inMemory, other) (creations.map Creation.action)
        = (.store (g.inMemory.withState state), other)
      ∧ g.Mirrors Number.Lasts (creations.map fun x => x.stamp.unique) tree' base state
      ∧ (state.entities .node).values = creations.map (Creation.node g) := by
  induction creations using List.reverseRecOn with
  | nil => exact ⟨tree, .empty, rfl, rfl, mirrors_empty Number.lasting_lasts hbare, rfl⟩
  | append_singleton creations x ih =>
    obtain ⟨tree₁, state, hengine, hstore, hmirrors, hvalues⟩ := ih hstocks.of_append
    have hx : x ∈ creations ++ [x] := by simp
    have hfresh : x.stamp.unique ∉ creations.map fun x => x.stamp.unique := by
      intro hused
      have hdistinct := hstocks.distinct
      rw [List.map_append] at hdistinct
      exact List.disjoint_of_nodup_append hdistinct hused (List.mem_singleton.2 rfl)
    have hcreate := hmirrors.create hrules hstocks.index (hstocks.times x hx)
      (hstocks.proper x hx) (hstocks.shallow x hx) (hstocks.takes x hx) hfresh
    obtain ⟨outcome, tree₂, hexec, -, hmirrors₂⟩ := hcreate
    -- a new key goes to the end, so the store keeps the order of creation
    have hnew : g.inMemory.keyOf x.stamp.unique ∉ Entries.keys (state.entities .node) := by
      rw [← Entries.get?_eq_none_iff]
      exact (hmirrors.table .node _).symm.trans (hmirrors.consistent.table_fresh hfresh .node)
    refine ⟨tree₂, _, ?_, ?_, by rwa [List.map_append], ?_⟩
    · rw [List.map_append, List.map_singleton, Action.after_append, hengine, Creation.action,
        perform_of_exec hexec]
    · rw [List.map_append, List.map_singleton, Action.after_append, hstore, Creation.action,
        perform_inMemory]
    · show (GraphState.entities (state.insert _ _) .node).values = _
      rw [GraphState.insert, GraphState.entities_withEntities, Entries.insert_of_not_mem hnew,
        Entries.values, List.map_append, List.map_append, ← hvalues]
      rfl

/-! ## Searches in both -/

/-- What a search for nodes comes to after some have been created. -/
def searched (state : Suite × FileTree) (creations : List Creation) (stamp : Stamp)
    (s : Searcher) : Outcome (List Node) :=
  (Action.perform ⟨stamp, .call (.search .node s)⟩
    (Action.after state (creations.map Creation.action))).1

section Searched

variable {creations : List Creation} (hbare : tree.Bare g.root base) (hrules : g.rules = [])
  (hstocks : g.Stocks creations)

include hbare hrules hstocks

/-- The store filters the nodes as they were created. -/
theorem searched_inMemory (stamp : Stamp) (s : Searcher) (other : FileTree) :
    searched (.store g.inMemory, other) creations stamp s
      = s.filter Evaluator.builtin (creations.map (Creation.node g)) := by
  obtain ⟨tree', state, -, hstore, -, hvalues⟩ := mirrors_stocked hbare hrules hstocks other
  rw [searched, hstore, perform_inMemory, ← hvalues]
  rfl

/-- A graph in documents filters those of open types, in the order in which it reads them. -/
theorem searched_engine (hevaluators : g.evaluators = .builtin) (hpaths : s.checkPaths = .ok ())
    {plan : Plan} (hplan : s.plan = .ok plan) (stamp : Stamp) :
    ∃ all : List Node, all.Perm (creations.map (Creation.node g))
      ∧ searched (.engine g, tree) creations stamp s
        = s.filter Evaluator.builtin (all.filter fun e => plan.opens e.type) := by
  obtain ⟨tree', state, hengine, -, hmirrors, hvalues⟩ :=
    mirrors_stocked hbare hrules hstocks tree
  obtain ⟨all, hexec, hnodup, hmem⟩ :=
    hmirrors.consistent.exec_search_open hrules (hstocks.index .node) hpaths hplan
  rw [hevaluators] at hexec
  have hanswer : (g.answer stamp (.search .node s)).exec tree' = _ := hexec
  refine ⟨all, hvalues ▸ hmirrors.perm_values hnodup hmem, ?_⟩
  rw [searched, hengine]
  exact congrArg Prod.fst (perform_of_exec hanswer)

/-- Which searches are refused.  The store refuses a search when some node comes to an extension,
    the graph in documents when one of an open type does; otherwise this one finds the nodes that
    match. -/
theorem refused_node_searches (hevaluators : g.evaluators = .builtin)
    (hpaths : s.checkPaths = .ok ()) (stamp : Stamp) (other : FileTree) :
    ∃ plan, s.plan = .ok plan
      ∧ (Unsupported (searched (.engine g, tree) creations stamp s)
        ↔ ∃ x ∈ creations, plan.opens x.body.type = true ∧ s.MeetsExtension (x.node g))
      ∧ (Unsupported (searched (.store g.inMemory, other) creations stamp s)
        ↔ ∃ x ∈ creations, s.MeetsExtension (x.node g))
      ∧ (¬ Unsupported (searched (.engine g, tree) creations stamp s) →
        ∃ found, searched (.engine g, tree) creations stamp s = .ok found
          ∧ found.Perm ((creations.map (Creation.node g)).filter (s.keeps Evaluator.builtin))) := by
  obtain ⟨plan, hplan, hfaithful⟩ := Searcher.plan_sound s hpaths Evaluator.builtin
  obtain ⟨all, hperm, hengine⟩ :=
    searched_engine hbare hrules hstocks hevaluators hpaths hplan stamp
  -- the graph in documents tests the nodes of open types, in the order of the types
  have hmeets : Unsupported (searched (.engine g, tree) creations stamp s)
      ↔ ∃ e ∈ all.filter fun e => plan.opens e.type, s.MeetsExtension e := by
    rw [hengine, Searcher.unsupported_filter_iff hpaths]
  refine ⟨plan, hplan, ?_, ?_, fun hanswered => ?_⟩
  · rw [hmeets]
    constructor
    · rintro ⟨e, he, hextension⟩
      obtain ⟨hall, hopen⟩ := List.mem_filter.1 he
      obtain ⟨x, hx, rfl⟩ := List.mem_map.1 (hperm.mem_iff.1 hall)
      exact ⟨x, hx, hopen, hextension⟩
    · rintro ⟨x, hx, hopen, hextension⟩
      have hall := hperm.mem_iff.2 (List.mem_map_of_mem hx)
      exact ⟨_, List.mem_filter.2 ⟨hall, hopen⟩, hextension⟩
  · rw [searched_inMemory hbare hrules hstocks, Searcher.unsupported_filter_iff hpaths]
    simp only [List.mem_map, exists_exists_and_eq_and]
  · refine ⟨_, hengine.trans (Searcher.filter_of_not_meets hpaths (mt hmeets.2 hanswered)), ?_⟩
    rw [Plan.filter_keeps_open hfaithful]
    exact hperm.filter _

end Searched

/-! ## An extension before a type -/

/-- A node of one type, and one of another type that weighs a half. -/
def creationOfA : Creation := ⟨⟨"1", 10⟩, .node "A" []⟩

def creationOfB : Creation :=
  ⟨⟨"2", 11⟩, .node "B" [("weight", .number (.float ⟨false, 2 ^ 52, -53⟩))]⟩

/-- An extension that nobody knows, and then the other type. -/
def unknownOfB : Searcher := .all [.extension "x" .null, .typeEq "B"]

theorem stocks_sample : (Engine.sample []).Stocks [creationOfA, creationOfB] where
  distinct := show ["1", "2"].Nodup by decide
  times x hx := by
    simp only [List.mem_cons, List.not_mem_nil, or_false] at hx
    rcases hx with rfl | rfl <;> decide
  proper x hx := by
    simp only [List.mem_cons, List.not_mem_nil, or_false] at hx
    rcases hx with rfl | rfl
    · exact ⟨⟨List.nodup_nil, trivial⟩, trivial⟩
    · exact ⟨⟨by decide, ⟨⟨by decide, by decide⟩, by decide +kernel⟩, trivial⟩, trivial⟩
  shallow x hx := by
    simp only [List.mem_cons, List.not_mem_nil, or_false] at hx
    rcases hx with rfl | rfl <;> exact ⟨by decide, trivial⟩
  takes x hx := by
    simp only [List.mem_cons, List.not_mem_nil, or_false] at hx
    rcases hx with rfl | rfl <;>
      exact ⟨rfl, Catalog.writable_document (writable_index_sample .node) rfl (by decide)⟩
  index := writable_index_sample

theorem refused_node_searches_sample :
    FileTree.sample.Bare (Engine.sample []).root ["g"] ∧ (Engine.sample []).rules = []
      ∧ (Engine.sample []).Stocks [creationOfA, creationOfB]
      ∧ (Engine.sample []).evaluators = .builtin ∧ unknownOfB.checkPaths = .ok ()
      ∧ ∃ plan, unknownOfB.plan = .ok plan
        ∧ (Unsupported (searched (.engine (Engine.sample []), .sample) [creationOfA, creationOfB]
              ⟨"3", 12⟩ unknownOfB)
          ↔ ∃ x ∈ [creationOfA, creationOfB], plan.opens x.body.type = true
            ∧ unknownOfB.MeetsExtension (x.node (Engine.sample [])))
        ∧ (Unsupported (searched (.store (Engine.sample []).inMemory, .sample)
              [creationOfA, creationOfB] ⟨"3", 12⟩ unknownOfB)
          ↔ ∃ x ∈ [creationOfA, creationOfB],
            unknownOfB.MeetsExtension (x.node (Engine.sample [])))
        ∧ (¬ Unsupported (searched (.engine (Engine.sample []), .sample)
              [creationOfA, creationOfB] ⟨"3", 12⟩ unknownOfB) →
          ∃ found, searched (.engine (Engine.sample []), .sample) [creationOfA, creationOfB]
              ⟨"3", 12⟩ unknownOfB = .ok found
            ∧ found.Perm (([creationOfA, creationOfB].map
              (Creation.node (Engine.sample []))).filter
                (unknownOfB.keeps Evaluator.builtin))) :=
  ⟨FileTree.bare_sample, rfl, stocks_sample, rfl, rfl,
    refused_node_searches FileTree.bare_sample rfl stocks_sample rfl rfl ⟨"3", 12⟩ .sample⟩

/-- With a node of the first type alone the store refuses the search, while the graph in documents
    has no document to read and finds nothing. -/
theorem refused_by_store_alone :
    FileTree.sample.Bare (Engine.sample []).root ["g"] ∧ (Engine.sample []).Stocks [creationOfA]
      ∧ unknownOfB.checkPaths = .ok ()
      ∧ searched (.engine (Engine.sample []), .sample) [creationOfA] ⟨"3", 12⟩ unknownOfB = .ok []
      ∧ searched (.store (Engine.sample []).inMemory, .sample) [creationOfA] ⟨"3", 12⟩ unknownOfB
        = .error (.unsupported "x") := by
  have hboth : (Engine.sample []).Stocks ([creationOfA] ++ [creationOfB]) := stocks_sample
  have hplan : unknownOfB.plan = .ok (.byType [("B", .all [.extension "x" .null, .always])]) := rfl
  refine ⟨FileTree.bare_sample, hboth.of_append, rfl, ?_, ?_⟩
  · obtain ⟨all, hperm, hengine⟩ :=
      searched_engine FileTree.bare_sample rfl hboth.of_append rfl rfl hplan ⟨"3", 12⟩
    obtain rfl : all = [creationOfA.node (Engine.sample [])] := List.perm_singleton.1 hperm
    exact hengine
  · exact searched_inMemory FileTree.bare_sample rfl hboth.of_append _ _ _

end Engine

end PropertyGraph
