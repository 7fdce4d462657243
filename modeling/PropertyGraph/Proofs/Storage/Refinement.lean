/-
  PropertyGraph.Proofs.Storage.Refinement

  A graph in documents beside a store in memory.  What carries a run is `Mirrors`: the table of the
  graph is the state of the store.  Each operation is answered alike on both sides, searches up to
  the order of what they find, and leaves the state mirrored.  Values are to be such that documents
  give them back: no doubles, and nothing that nests too deep, be it in a bag or at an endpoint.
-/
import PropertyGraph.Proofs.Memory.Shared
import PropertyGraph.Proofs.Routing.Division
import PropertyGraph.Proofs.Storage.Readback
import PropertyGraph.Suite.Task

namespace PropertyGraph

open FileTree (Writable)
open Naming (checkType documentStem indexStem)

variable {c : EntityClass} {g : Engine} {tree tree' : FileTree} {base : Place} {key : String}
  {p : Number → Prop} {used : List String} {s s' : GraphState} {stamp : Stamp}

/-! ## Operations -/

/-- What a caller does with a graph: a call, or creating a node like another one. -/
inductive Operation where
  | call (call : Call)
  | duplicate (id : Id)

namespace Operation

/-- What an operation results in. -/
def Reply : Operation → Type
  | .call request => request.Reply
  | .duplicate _ => Node

/-- An operation as a task. -/
def task (stamp : Stamp) : (o : Operation) → SuiteTask o.Reply
  | .call request => SuiteTask.ask stamp request
  | .duplicate id => SuiteTask.duplicate stamp id

/-- Two outcomes of an operation are the same, what a search has found in any order. -/
def Agrees : (o : Operation) → Outcome o.Reply → Outcome o.Reply → Prop
  | .call (.search c _), .ok found, .ok found' =>
    List.Perm (show List (Entity c) from found) (show List (Entity c) from found')
  | _, outcome, outcome' => outcome = outcome'

end Operation

/-- An operation and what it takes from its surroundings. -/
structure Action where
  stamp : Stamp
  operation : Operation

namespace Action

/-- The unique text that an action makes an identity from. -/
def given (a : Action) : List String :=
  match a.operation with
  | .call (.create _ _) => [a.stamp.unique]
  | .duplicate _ => [a.stamp.unique]
  | _ => []

/-- The outcome of an action on a suite, and what it leaves. -/
def perform (a : Action) (state : Suite × FileTree) :
    Outcome a.operation.Reply × Suite × FileTree :=
  let ((outcome, suite), tree) := ((a.operation.task a.stamp).runOn state.1).run state.2
  (outcome, suite, tree)

theorem perform_of_run {a : Action} {suite suite' : Suite} {outcome : Outcome a.operation.Reply}
    (h : ((a.operation.task a.stamp).runOn suite).run tree = ((outcome, suite'), tree')) :
    a.perform (suite, tree) = (outcome, suite', tree') := by
  rw [perform, h]

/-- What is left after a run of actions. -/
def after (state : Suite × FileTree) (actions : List Action) : Suite × FileTree :=
  actions.foldl (fun state a => (a.perform state).2) state

theorem after_append (state : Suite × FileTree) (actions : List Action) (a : Action) :
    after state (actions ++ [a]) = (a.perform (after state actions)).2 := by
  simp [after]

end Action

/-- Creating a node like another one is looking that one up and creating one. -/
theorem SuiteTask.run_duplicate (stamp : Stamp) (id : Id) (suite : Suite) (tree : FileTree) :
    ((SuiteTask.duplicate stamp id).runOn suite).run tree
      = match (suite.answer stamp (.get .node id)).run tree with
        | ((.error failure, suite), tree) => ((.error failure, suite), tree)
        | ((.ok none, suite), tree) => ((.error (.notFound .node id), suite), tree)
        | ((.ok (some source), suite), tree) =>
          (suite.answer stamp (.create .node (Body.node source.type source.properties))).run tree := by
  show FileProgram.run (suite.answer stamp (.get .node id) >>= _) tree = _
  rw [FileProgram.run_bind]
  rcases (suite.answer stamp (.get .node id)).run tree with ⟨⟨outcome, suite'⟩, tree'⟩
  cases outcome with
  | error failure => rfl
  | ok found =>
    cases (show Option Node from found) with
    | none => rfl
    | some source => rfl

/-! ## Proper actions -/

/-- A type can have a document in a graph. -/
def Engine.Takes (g : Engine) (c : EntityClass) (type : String) : Prop :=
  checkType type = .ok () ∧ Writable g.root (documentStem type c)

/-- An action with values that the documents of a graph give back. -/
def Action.Fits (g : Engine) (a : Action) : Prop :=
  match a.operation with
  | .call (.create c body) =>
    TimeFits a.stamp.time ∧ body.Proper Number.Whole ∧ body.Shallow ∧ g.Takes c body.type
  | .call (.edit c _ patch) =>
    TimeFits a.stamp.time ∧ patch.Proper Number.Whole ∧ patch.Shallow
      ∧ ∀ type, patch.type = some type → g.Takes c type
  | .call (.search c s) => s.WellFormed c
  | .call (.types _) => False
  | .duplicate _ => TimeFits a.stamp.time
  | _ => True

/-- A run of such actions that makes identities from distinct texts, below a root where indexes
    fit. -/
structure Engine.FittingRun (g : Engine) (actions : List Action) : Prop where
  distinct : (actions.flatMap Action.given).Nodup
  fits : ∀ a ∈ actions, a.Fits g
  index : ∀ c, Writable g.root (indexStem c)

namespace Engine.FittingRun

variable {actions rest : List Action} {a : Action}

/-- A part of such a run from its beginning is one. -/
theorem of_append (h : g.FittingRun (actions ++ rest)) : g.FittingRun actions where
  distinct := by
    have hdistinct := h.distinct
    rw [List.flatMap_append] at hdistinct
    exact hdistinct.of_append_left
  fits a ha := h.fits a (List.mem_append_left _ ha)
  index := h.index

/-- The last action makes its identity from a new text. -/
theorem fresh (h : g.FittingRun (actions ++ [a])) :
    ∀ unique ∈ a.given, unique ∉ actions.flatMap Action.given := by
  intro unique hgiven hused
  have hdistinct := h.distinct
  rw [List.flatMap_append, List.flatMap_singleton] at hdistinct
  exact List.disjoint_of_nodup_append hdistinct hused hgiven

end Engine.FittingRun

/-- The store in memory with the identities of a graph. -/
def Engine.inMemory (g : Engine) : Store := ⟨g.idPrefix, .builtin, .shared .empty⟩

/-! ## Mirroring -/

namespace Engine

/-- The documents of a graph hold what a state holds. -/
structure Mirrors (g : Engine) (p : Number → Prop) (used : List String) (tree : FileTree)
    (base : Place) (s : GraphState) : Prop where
  lasting : Number.Lasting p
  consistent : g.Consistent p used tree base
  limits : ∀ c, (tree.shelf g.root c).WithinLimit
  keyed : s.Keyed
  table : ∀ c key, g.table tree c key = s.get c key
  shallow : ∀ c key e, s.get c key = some e → e.Shallow

/-- Without doubles a table follows a change key by key. -/
theorem Consistent.table_eq (hp : ∀ n, p n → n.reread = n) (h : g.Consistent p used tree base)
    (htable : ∀ c key, g.table tree c key = s.get c key) {found : Option (Entity c)}
    (hspares : (g.table tree).Spares (g.table tree') c key) (hhere : g.table tree' c key = found)
    (hchange : s.ChangesAt s' c key found) (c' : EntityClass) (key' : String) :
    g.table tree' c' key' = s'.get c' key' := by
  obtain hplace | ⟨rfl, rfl⟩ := Table.away_or_here c' c key' key
  · rw [hchange.others c' key' hplace, ← htable]
    have hrel := hspares c' key' hplace
    have hproper : ∀ e, g.table tree c' key' = some e → e.Proper p :=
      fun e he => (h.of_table he).2.1
    generalize g.table tree c' key' = old at hrel hproper
    generalize g.table tree' c' key' = new at hrel
    cases hrel with
    | none => rfl
    | some hrereads => rw [hrereads.eq hp (hproper _ rfl)]
  · rw [hhere, hchange.here]

/-- A call is answered alike by a graph and by the store, and the state is mirrored after it. -/
def MirrorsCall (g : Engine) (p : Number → Prop) (used' : List String) (tree : FileTree)
    (base : Place) (s : GraphState) (stamp : Stamp) (call : Call) : Prop :=
  ∃ outcome tree', (g.answer stamp call).exec tree = (outcome, tree')
    ∧ (Operation.call call).Agrees outcome (g.inMemory.respond stamp s call).1
    ∧ g.Mirrors p used' tree' base (g.inMemory.respond stamp s call).2

theorem MirrorsCall.advance {call : Call} (h : g.MirrorsCall p used tree base s stamp call) :
    g.Mirrors p used (g.advance tree ⟨stamp, call⟩) base (g.inMemory.respond stamp s call).2 := by
  obtain ⟨outcome, tree', hexec, -, hmirrors⟩ := h
  rwa [show g.advance tree ⟨stamp, call⟩ = tree' from congrArg Prod.snd hexec]

namespace Mirrors

variable (h : g.Mirrors p used tree base s) (hrules : g.rules = [])
  (hindex : ∀ c, Writable g.root (indexStem c))

include h

/-- An entity of the state is proper and known by its key. -/
theorem of_get {e : Entity c} (hget : s.get c key = some e) :
    e.Proper p ∧ e.id = .ofString key := by
  rw [← h.table] at hget
  obtain ⟨hid, hproper, -⟩ := h.consistent.of_table hget
  exact ⟨hproper, hid⟩

theorem mono {used' : List String} (hrules : g.rules = [])
    (hsub : ∀ unique ∈ used, unique ∈ used') : g.Mirrors p used' tree base s where
  lasting := h.lasting
  consistent := h.consistent.mono hrules hsub
  limits := h.limits
  keyed := h.keyed
  table := h.table
  shallow := h.shallow

theorem shallow_table (key : String) (e : Entity c) (he : g.table tree c key = some e) :
    e.Shallow := by
  rw [h.table] at he
  exact h.shallow c key e he

/-- A call that both sides refuse alike. -/
theorem refused {call : Call} (failure : Failure)
    (hexec : (g.answer stamp call).exec tree = (.error failure, tree))
    (hrespond : g.inMemory.respond stamp s call = (.error failure, s))
    (hagrees : (Operation.call call).Agrees (.error failure) (.error failure)) :
    g.MirrorsCall p used tree base s stamp call := by
  refine ⟨_, _, hexec, ?_, ?_⟩
  · rw [hrespond]
    exact hagrees
  · rw [hrespond]
    exact h

/-- After a change under one key that does not nest too deep the state is mirrored. -/
theorem change {found : Option (Entity c)} {used' : List String}
    (hconsistent : g.Consistent p used' tree' base)
    (hlimits : ∀ c, (tree'.shelf g.root c).WithinLimit) (hkeyed : s'.Keyed)
    (hspares : (g.table tree).Spares (g.table tree') c key) (hhere : g.table tree' c key = found)
    (hchange : s.ChangesAt s' c key found) (hshallow : ∀ e, found = some e → e.Shallow) :
    g.Mirrors p used' tree' base s' where
  lasting := h.lasting
  consistent := hconsistent
  limits := hlimits
  keyed := hkeyed
  table := h.consistent.table_eq h.lasting.same h.table hspares hhere hchange
  shallow c' key' e hget := by
    obtain hplace | ⟨rfl, rfl⟩ := Table.away_or_here c' c key' key
    · rw [hchange.others c' key' hplace] at hget
      exact h.shallow c' key' e hget
    · rw [hchange.here] at hget
      exact hshallow e hget

include hrules hindex

theorem get (stamp : Stamp) (c : EntityClass) (id : Id) :
    g.MirrorsCall p used tree base s stamp (.get c id) := by
  cases hid : id.requireText with
  | error failure =>
    refine h.refused failure ?_ ?_ rfl
    · show (g.get c id).exec tree = _
      rw [exec_get_of_rules hrules, get_of_no_text hid]
      rfl
    · rw [Store.respond, hid]
      rfl
  | ok key =>
    obtain rfl := Catalog.eq_ofString_of_requireText hid
    refine ⟨.ok (s.get c key), tree, ?_, rfl, h⟩
    show (g.get c (.ofString key)).exec tree = _
    rw [exec_get_of_rules hrules, h.consistent.get_eq (hindex c), h.table]
    rfl

/-- A lookup finds what the state has under the key. -/
theorem exec_get (c : EntityClass) (key : String) :
    ((g.get c (.ofString key)).exec tree).1 = .ok (s.get c key) := by
  rw [exec_get_of_rules hrules, h.consistent.get_eq (hindex c), h.table]

theorem create {body : Body c} (htime : TimeFits stamp.time) (hproper : body.Proper p)
    (hshallow : body.Shallow) (htakes : g.Takes c body.type) (hfresh : stamp.unique ∉ used) :
    g.MirrorsCall p (used ++ [stamp.unique]) tree base s stamp (.create c body) := by
  have hcreated : (g.created stamp body).Proper p := proper_created hproper htime
  obtain ⟨tree', hexec, hconsistent, hlimits, hfollows⟩ :=
    h.consistent.created stamp h.lasting.toStable hrules h.limits (hindex c) h.shallow_table htime
      hproper hshallow htakes.1 htakes.2 hfresh
  refine ⟨_, tree', hexec, rfl, ?_⟩
  cases hfollows with
  | @created _ _ key e e' _ he hnone hspares hhere hrereads =>
    have hkey : key = g.keyOf stamp.unique :=
      (Catalog.ofString_inj (congrArg Entity.id he)).symm
    rw [hrereads.eq h.lasting.same hcreated] at hhere
    subst hkey
    exact h.change hconsistent hlimits (h.keyed.insert rfl) hspares hhere
      (s.changesAt_insert _ _) fun e he => Option.some.inj he ▸ hshallow.create _ _

theorem edit {id : Id} {patch : Patch c} (htime : TimeFits stamp.time)
    (hproper : patch.Proper p) (hshallow : patch.Shallow)
    (htakes : ∀ type, patch.type = some type → g.Takes c type) :
    g.MirrorsCall p used tree base s stamp (.edit c id patch) := by
  cases hid : id.requireText with
  | error failure =>
    refine h.refused failure (exec_edit_of_no_text hid g stamp patch tree) ?_ rfl
    rw [Store.respond, hid]
  | ok key =>
    obtain rfl := Catalog.eq_ofString_of_requireText hid
    have hrespond : g.inMemory.respond stamp s (.edit c (.ofString key) patch)
        = s.edit (.ofString key) key patch stamp.time := rfl
    cases hget : s.get c key with
    | none =>
      refine h.refused (.notFound c (.ofString key)) ?_ ?_ rfl
      · exact h.consistent.exec_edit_missing (hindex c) ((h.table c key).trans hget) patch
      · exact hrespond.trans (GraphState.edit_of_none hget _ patch _)
    | some e =>
      have he : g.table tree c key = some e := (h.table c key).trans hget
      have hvTakes : g.Takes c (patch.apply e stamp.time).type := by
        show g.Takes c (patch.type.getD e.type)
        cases htype : patch.type with
        | none => exact h.consistent.documents_of_table (hindex c) he
        | some type => exact htakes type htype
      obtain ⟨tree', hexec, hconsistent, hlimits, hfollows⟩ :=
        h.consistent.edited stamp h.lasting.toStable hrules h.limits (hindex c) h.shallow_table he
          htime hproper hshallow hvTakes.1 hvTakes.2
      -- The edited entity as one name: the patch is applied once on each side and to the same
      -- entity.
      obtain ⟨v, hv⟩ : ∃ v, patch.apply e stamp.time = v := ⟨_, rfl⟩
      have hvProper : v.Proper p := hv ▸ hproper.apply (h.of_get hget).1 htime
      have hvShallow : v.Shallow := hv ▸ hshallow.apply (h.shallow c key e hget) stamp.time
      rw [GraphState.edit_of_get hget, hv] at hrespond
      rw [hv] at hexec hfollows
      refine ⟨_, tree', hexec, ?_, ?_⟩
      · rw [hrespond]
        rfl
      · rw [hrespond]
        cases hfollows with
        | edited _ _ hspares hhere hrereads =>
          rw [hrereads.eq h.lasting.same hvProper] at hhere
          have hvid : v.id = .ofString key := (hconsistent.of_table hhere).1
          exact h.change hconsistent hlimits (h.keyed.insert hvid) hspares hhere
            (s.changesAt_insert _ _) fun e he => Option.some.inj he ▸ hvShallow

theorem remove (id : Id) : g.MirrorsCall p used tree base s stamp (.remove c id) := by
  cases hid : id.requireText with
  | error failure =>
    refine h.refused failure (exec_remove_of_no_text hid g c tree) ?_ rfl
    rw [Store.respond, hid]
  | ok key =>
    obtain rfl := Catalog.eq_ofString_of_requireText hid
    have hrespond : g.inMemory.respond stamp s (.remove c (.ofString key))
        = s.remove c (.ofString key) key := rfl
    cases hget : s.get c key with
    | none =>
      refine h.refused (.notFound c (.ofString key)) ?_ ?_ rfl
      · exact h.consistent.exec_remove_missing (hindex c) ((h.table c key).trans hget)
      · exact hrespond.trans (GraphState.remove_of_none hget _)
    | some e =>
      rw [GraphState.remove_of_get hget] at hrespond
      obtain ⟨tree', hexec, hconsistent, hlimits, hfollows⟩ :=
        h.consistent.removed stamp h.lasting.toStable hrules h.limits (hindex c) h.shallow_table
          ((h.table c key).trans hget)
      refine ⟨_, tree', hexec, ?_, ?_⟩
      · rw [hrespond]
        rfl
      · rw [hrespond]
        cases hfollows with
        | removed _ hspares hgone =>
          exact h.change hconsistent hlimits (h.keyed.erase c key) hspares hgone
            (GraphState.changesAt_erase h.keyed c key) fun e he => by cases he

omit hrules hindex in
/-- What lists the entities of the table, each of them once, lists those of the state. -/
theorem perm_values {all : List (Entity c)} (hnodup : (all.map Entity.id).Nodup)
    (hmem : ∀ e, e ∈ all ↔ ∃ key, g.table tree c key = some e) :
    all.Perm (s.entities c).values := by
  refine (List.perm_ext_iff_of_nodup (.of_map _ hnodup)
    (.of_map _ (h.keyed.nodup_ids c))).2 fun e => ?_
  rw [hmem, h.keyed.mem_values_iff]
  simp only [h.table]

/-- Both sides find the same, each in its own order. -/
theorem search (hevaluators : g.evaluators = .builtin) {q : Searcher} (hq : q.WellFormed c) :
    g.MirrorsCall p used tree base s stamp (.search c q) := by
  have hrespond : g.inMemory.respond stamp s (.search c q)
      = (q.filter Evaluator.builtin (s.entities c).values, s) := by
    cases c <;> rfl
  cases hpaths : q.checkPaths with
  | error failure =>
    refine h.refused failure ?_ ?_ rfl
    · show (g.search c q).exec tree = _
      refine FileTask.exec_bind_of_error ?_
      rw [FileTask.exec_ofOutcome, hpaths]
    · rw [hrespond, Searcher.filter_of_checkPaths hpaths]
      rfl
  | ok checked =>
    -- no test fails for such a searcher, so the order in which entities are tested does not matter
    have hfilter := hq.filter_eq hpaths
    have hforClass : g.evaluators.forClass c = Evaluator.builtin := by
      rw [hevaluators]
      cases c <;> rfl
    obtain ⟨all, found, hexec, hfound, hnodup, hmem⟩ :=
      h.consistent.exec_search_eq hrules (hindex c) (s := q) fun es => by
        rw [hforClass]
        exact ⟨_, hfilter es⟩
    rw [hforClass, hfilter] at hfound
    obtain rfl := Except.ok.inj hfound
    have hperm := h.perm_values hnodup hmem
    refine ⟨_, tree, hexec, ?_, ?_⟩
    · rw [hrespond, hfilter]
      exact hperm.filter _
    · rw [hrespond]
      exact h

end Mirrors

/-! ## Runs -/

/-- An action has outcomes that agree, and leaves the state mirrored. -/
def MirrorsAction (g : Engine) (p : Number → Prop) (used' : List String) (tree : FileTree)
    (base : Place) (s : GraphState) (other : FileTree) (a : Action) : Prop :=
  ∃ outcome outcome' tree' s',
    a.perform (.engine g, tree) = (outcome, .engine g, tree')
    ∧ a.perform (.store (g.inMemory.withState s), other)
      = (outcome', .store (g.inMemory.withState s'), other)
    ∧ a.operation.Agrees outcome outcome' ∧ g.Mirrors p used' tree' base s'

/-- The store in memory as a suite. -/
theorem run_inMemory (g : Engine) (s : GraphState) (stamp : Stamp) (request : Call)
    (other : FileTree) :
    (Suite.answer stamp (.store (g.inMemory.withState s)) request).run other
      = (((g.inMemory.respond stamp s request).1,
          .store (g.inMemory.withState (g.inMemory.respond stamp s request).2)), other) := by
  rw [Suite.run_store, Store.run_answer_withState]

theorem run_of_exec {request : Call} {outcome : Outcome request.Reply}
    (hexec : (g.answer stamp request).exec tree = (outcome, tree')) :
    (Suite.answer stamp (.engine g) request).run tree = ((outcome, .engine g), tree') := by
  rw [Suite.run_engine, hexec]

theorem perform_of_exec {request : Call} {outcome : Outcome request.Reply}
    (hexec : (g.answer stamp request).exec tree = (outcome, tree')) :
    Action.perform ⟨stamp, .call request⟩ (.engine g, tree) = (outcome, .engine g, tree') :=
  Action.perform_of_run (run_of_exec hexec)

theorem perform_inMemory (g : Engine) (s : GraphState) (stamp : Stamp) (request : Call)
    (other : FileTree) :
    Action.perform ⟨stamp, .call request⟩ (.store (g.inMemory.withState s), other)
      = ((g.inMemory.respond stamp s request).1,
          .store (g.inMemory.withState (g.inMemory.respond stamp s request).2), other) :=
  Action.perform_of_run (run_inMemory g s stamp request other)

theorem MirrorsCall.action {request : Call} (h : g.MirrorsCall p used tree base s stamp request)
    (other : FileTree) : g.MirrorsAction p used tree base s other ⟨stamp, .call request⟩ := by
  obtain ⟨outcome, tree', hexec, hagrees, hmirrors⟩ := h
  exact ⟨outcome, _, tree', _, perform_of_exec hexec, perform_inMemory g s stamp request other,
    hagrees, hmirrors⟩

/-- A node is duplicated alike: what is looked up is the same, and its type has a document. -/
theorem Mirrors.duplicate (h : g.Mirrors p used tree base s) (hrules : g.rules = [])
    (hindex : ∀ c, Writable g.root (indexStem c)) (htime : TimeFits stamp.time) (id : Id)
    (hfresh : stamp.unique ∉ used) (other : FileTree) :
    g.MirrorsAction p (used ++ [stamp.unique]) tree base s other ⟨stamp, .duplicate id⟩ := by
  -- the lookup comes first, and both sides find the same
  obtain ⟨outcome, tree₁, hexec, hagrees, h₁⟩ := h.get hrules hindex stamp .node id
  obtain rfl : outcome = (g.inMemory.respond stamp s (.get .node id)).1 := hagrees
  have hengine := SuiteTask.run_duplicate stamp id (.engine g) tree
  have hstore := SuiteTask.run_duplicate stamp id (.store (g.inMemory.withState s)) other
  rw [run_of_exec hexec] at hengine
  rw [run_inMemory] at hstore
  cases hreply : (g.inMemory.respond stamp s (.get .node id)).1 with
  | error failure =>
    rw [hreply] at hengine hstore
    exact ⟨_, _, _, _, Action.perform_of_run hengine, Action.perform_of_run hstore, rfl,
      h₁.mono hrules fun _ => List.mem_append_left _⟩
  | ok found =>
    rw [hreply] at hengine hstore
    cases hfound : (show Option Node from found) with
    | none =>
      obtain rfl : found = none := hfound
      exact ⟨_, _, _, _, Action.perform_of_run hengine, Action.perform_of_run hstore, rfl,
        h₁.mono hrules fun _ => List.mem_append_left _⟩
    | some source =>
      obtain rfl : found = some source := hfound
      have hsource : ∃ key, s.get .node key = some source := by
        cases hid : id.requireText with
        | error failure =>
          rw [Store.respond, hid] at hreply
          cases hreply
        | ok key =>
          rw [Store.respond, hid] at hreply
          exact ⟨key, Except.ok.inj hreply⟩
      obtain ⟨key, hget⟩ := hsource
      -- what was found is fit for a body, and its type has a document already
      have hproper : (Body.node source.type source.properties).Proper p :=
        ⟨(h.of_get hget).1.properties, trivial⟩
      obtain ⟨outcome, tree', hexec', hagrees', hmirrors⟩ := h₁.create hrules hindex htime hproper
        ⟨(h.shallow _ key _ hget).properties, trivial⟩
        (h.consistent.documents_of_table (hindex .node) ((h.table _ key).trans hget)) hfresh
      exact ⟨_, _, _, _, Action.perform_of_run (hengine.trans (run_of_exec hexec')),
        Action.perform_of_run (hstore.trans (run_inMemory g s stamp _ other)), hagrees', hmirrors⟩

/-- What an action does is the same on both sides. -/
theorem Mirrors.step (h : g.Mirrors Number.Whole used tree base s) (hrules : g.rules = [])
    (hevaluators : g.evaluators = .builtin) (hindex : ∀ c, Writable g.root (indexStem c))
    {a : Action} (hfits : a.Fits g) (hfresh : ∀ unique ∈ a.given, unique ∉ used)
    (other : FileTree) : g.MirrorsAction Number.Whole (used ++ a.given) tree base s other a := by
  obtain ⟨stamp, operation⟩ := a
  cases operation with
  | duplicate id =>
    exact h.duplicate hrules hindex hfits id (hfresh _ (List.mem_singleton.2 rfl)) other
  | call request =>
    refine MirrorsCall.action ?_ other
    cases request with
    | get c id =>
      rw [Action.given, List.append_nil]
      exact h.get hrules hindex stamp c id
    | search c q =>
      rw [Action.given, List.append_nil]
      exact h.search hrules hindex hevaluators hfits
    | create c body =>
      obtain ⟨htime, hproper, hshallow, htakes⟩ := hfits
      exact h.create hrules hindex htime hproper hshallow htakes (hfresh _ (List.mem_singleton.2 rfl))
    | edit c id patch =>
      obtain ⟨htime, hproper, hshallow, htakes⟩ := hfits
      rw [Action.given, List.append_nil]
      exact h.edit hrules hindex htime hproper hshallow htakes
    | remove c id =>
      rw [Action.given, List.append_nil]
      exact h.remove hrules hindex id
    | types c => exact hfits.elim

/-- An empty root mirrors an empty store. -/
theorem mirrors_empty (hp : Number.Lasting p) (hbare : tree.Bare g.root base) :
    g.Mirrors p [] tree base .empty := by
  refine ⟨hp, consistent_of_bare hbare, hbare.withinLimit, GraphState.keyed_empty,
    fun c key => ?_, fun c key e hget => ?_⟩
  · rw [table_of_bare hbare]
    cases c <;> rfl
  · cases c <;> cases hget

/-- Beside each other, an empty root and an empty store mirror each other after every run. -/
theorem mirrors_after (hbare : tree.Bare g.root base) (hrules : g.rules = [])
    (hevaluators : g.evaluators = .builtin) {actions : List Action} (hfits : g.FittingRun actions)
    (other : FileTree) : ∃ tree' s',
      Action.after (.engine g, tree) actions = (.engine g, tree')
      ∧ Action.after (.store g.inMemory, other) actions
        = (.store (g.inMemory.withState s'), other)
      ∧ g.Mirrors Number.Whole (actions.flatMap Action.given) tree' base s' := by
  induction actions using List.reverseRecOn with
  | nil => exact ⟨tree, .empty, rfl, rfl, mirrors_empty Number.lasting_whole hbare⟩
  | append_singleton actions a ih =>
    obtain ⟨tree₁, s₁, hengine, hstore, hmirrors⟩ := ih hfits.of_append
    obtain ⟨outcome, outcome', tree', s', hengine', hstore', -, hmirrors'⟩ :=
      hmirrors.step hrules hevaluators hfits.index (hfits.fits a (by simp)) hfits.fresh other
    refine ⟨tree', s', ?_, ?_, ?_⟩
    · rw [Action.after_append, hengine, hengine']
    · rw [Action.after_append, hstore, hstore']
    · rw [List.flatMap_append, List.flatMap_singleton]
      exact hmirrors'

/-- A graph in documents refines the store in memory: beside each other, an empty root and an empty
    store answer every action alike, at each step of every run. -/
theorem refines_inMemory (hbare : tree.Bare g.root base) (hrules : g.rules = [])
    (hevaluators : g.evaluators = .builtin) {actions : List Action} (hfits : g.FittingRun actions)
    (other : FileTree) {before after : List Action} {a : Action}
    (hactions : actions = before ++ a :: after) :
    a.operation.Agrees (a.perform (Action.after (.engine g, tree) before)).1
      (a.perform (Action.after (.store g.inMemory, other) before)).1 := by
  have hfits' : g.FittingRun (before ++ [a]) := by
    rw [hactions, ← List.singleton_append, ← List.append_assoc] at hfits
    exact hfits.of_append
  obtain ⟨tree', s, hengine, hstore, hmirrors⟩ :=
    mirrors_after hbare hrules hevaluators hfits'.of_append other
  obtain ⟨outcome, outcome', _, _, hengine', hstore', hagrees, -⟩ :=
    hmirrors.step hrules hevaluators hfits'.index (hfits'.fits a (by simp)) hfits'.fresh other
  rw [hengine, hstore, hengine', hstore']
  exact hagrees

/-- Creating a person, one like it, and looking for both. -/
def personCreation : Action :=
  ⟨⟨"1", 10⟩, .call (.create .node (Body.node "Person" [("name", .string "a")]))⟩

def personCopy : Action := ⟨⟨"2", 11⟩, .duplicate (.ofString "1")⟩

def personSearch : Action := ⟨⟨"3", 12⟩, .call (.search .node (.typeEq "Person"))⟩

theorem fittingRun_persons :
    (Engine.sample []).FittingRun [personCreation, personCopy, personSearch] where
  distinct := show ["1", "2"].Nodup by decide
  fits a ha := by
    simp only [List.mem_cons, List.not_mem_nil, or_false] at ha
    rcases ha with rfl | rfl | rfl
    · exact ⟨by decide, ⟨⟨by decide, trivial, trivial⟩, trivial⟩, ⟨by decide, trivial⟩, rfl,
        Catalog.writable_document (writable_index_sample .node) rfl (by decide)⟩
    · exact show TimeFits 11 by decide
    · trivial
  index := writable_index_sample

theorem refines_inMemory_persons :
    FileTree.sample.Bare (Engine.sample []).root ["g"] ∧ (Engine.sample []).rules = []
      ∧ (Engine.sample []).evaluators = .builtin
      ∧ (Engine.sample []).FittingRun [personCreation, personCopy, personSearch]
      ∧ [personCreation, personCopy, personSearch]
        = [personCreation, personCopy] ++ personSearch :: []
      ∧ personSearch.operation.Agrees
        (personSearch.perform (Action.after (.engine (Engine.sample []), .sample)
          [personCreation, personCopy])).1
        (personSearch.perform (Action.after (.store (Engine.sample []).inMemory, .sample)
          [personCreation, personCopy])).1 :=
  ⟨FileTree.bare_sample, rfl, rfl, fittingRun_persons, rfl,
    refines_inMemory FileTree.bare_sample rfl rfl fittingRun_persons .sample rfl⟩

/-! ## A deep endpoint -/

/-- A relationship that starts at lists inside one another. -/
def deepLink : Body .relationship :=
  Body.relationship "Link" [] ⟨nested (Node.maxNesting + 1)⟩ (.ofString "y")

def deepLinkCreation : Action := ⟨⟨"1", 10⟩, .call (.create .relationship deepLink)⟩

def deepLinkLookup : Action := ⟨⟨"2", 11⟩, .call (.get .relationship (.ofString "1"))⟩

/-- A relationship with an empty bag and an endpoint that nests too deep is accepted on both sides,
    but only the store in memory gives it back. -/
theorem deepLink_differs :
    FileTree.sample.Bare (Engine.sample []).root ["g"]
      ∧ deepLink.Proper Number.Whole ∧ (Json.object deepLink.properties).nesting ≤ Node.maxNesting
      ∧ (Engine.sample []).Takes .relationship deepLink.type
      ∧ (deepLinkLookup.perform (Action.after (.engine (Engine.sample []), .sample)
          [deepLinkCreation])).1 = .error .malformed
      ∧ (deepLinkLookup.perform (Action.after (.store (Engine.sample []).inMemory, .sample)
          [deepLinkCreation])).1
        = .ok (some ((Engine.sample []).created deepLinkCreation.stamp deepLink)) := by
  have hproper : deepLink.Proper Number.Whole :=
    ⟨⟨by decide, trivial⟩, proper_nested _ _, trivial⟩
  have hindex : Writable (Engine.sample []).root (indexStem .relationship) :=
    writable_index_sample .relationship
  have htakes : (Engine.sample []).Takes .relationship deepLink.type :=
    ⟨rfl, Catalog.writable_document hindex rfl (by decide)⟩
  have hconsistent : (Engine.sample []).Consistent Number.Whole [] .sample ["g"] :=
    consistent_of_bare FileTree.bare_sample
  obtain ⟨link, hlink⟩ :
      ∃ link, (Engine.sample []).created deepLinkCreation.stamp deepLink = link := ⟨_, rfl⟩
  obtain ⟨tree', hexec⟩ : ∃ tree', ((Engine.sample []).answer deepLinkCreation.stamp
      (.create .relationship deepLink)).exec .sample = (.ok link, tree') :=
    hlink ▸ hconsistent.exec_create_ok rfl hindex _ htakes.1 htakes.2
  -- The document is written, and what was written nests too deep to be read again.
  have hget : (((Engine.sample []).answer deepLinkLookup.stamp
      (.get .relationship (.ofString "1"))).exec tree').1 = .error .malformed := by
    have hdeep : ¬ link.Shallow := by
      intro hshallow
      have hstart : link.ends.startId.value.nesting ≤ Node.maxNesting := hshallow.ends.1
      rw [← hlink] at hstart
      exact absurd ((nesting_nested _).symm.trans_le hstart) (Nat.not_succ_le_self _)
    have hid : link.id = .ofString "1" := by
      rw [← hlink]
      rfl
    have hanswers := hconsistent.sound.exec_answer (uniform_of_length (Nat.zero_le 1))
      (show (Engine.sample []).Accepts Number.Whole
        ⟨deepLinkCreation.stamp, .create .relationship deepLink⟩ from
          ⟨show TimeFits 10 by decide, hproper, nofun⟩)
    obtain ⟨outcome, after, hafter, hanswers⟩ := hanswers
    obtain ⟨rfl, rfl⟩ := Prod.mk.inj (hexec.symm.trans hafter)
    cases hanswers with
    | created hcreates =>
      have hmalformed := hconsistent.sound.malformed_of_deep rfl hcreates hdeep
      rwa [hid] at hmalformed
  have hengine : deepLinkCreation.perform (.engine (Engine.sample []), .sample)
      = (.ok link, .engine (Engine.sample []), tree') := perform_of_exec hexec
  have hengine' : deepLinkLookup.perform (.engine (Engine.sample []), tree')
      = (.error .malformed, .engine (Engine.sample []), _) := perform_of_exec (Prod.ext hget rfl)
  -- In memory nothing is ever read back, so the depth does not matter.
  have hstore : deepLinkCreation.perform (.store (Engine.sample []).inMemory, .sample)
      = (.ok link, .store ((Engine.sample []).inMemory.withState (GraphState.empty.insert "1" link)),
          .sample) := by
    rw [← hlink]
    exact perform_inMemory (Engine.sample []) .empty _ _ _
  have hstore' : deepLinkLookup.perform (.store ((Engine.sample []).inMemory.withState
        (GraphState.empty.insert "1" link)), .sample)
      = (.ok ((GraphState.empty.insert "1" link).get .relationship "1"), _, .sample) :=
    perform_inMemory (Engine.sample []) _ _ _ _
  refine ⟨FileTree.bare_sample, hproper, by decide, htakes, ?_, ?_⟩
  · show (deepLinkLookup.perform (deepLinkCreation.perform (.engine _, .sample)).2).1 = _
    rw [hengine, hengine']
  · show (deepLinkLookup.perform
      (deepLinkCreation.perform (.store (Engine.sample []).inMemory, .sample)).2).1 = _
    rw [hstore, hstore', GraphState.get_insert_self, hlink]

end Engine

end PropertyGraph
