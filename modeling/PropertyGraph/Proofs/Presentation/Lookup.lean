/-
  PropertyGraph.Proofs.Presentation.Lookup

  How a store looks metadata up.  From the nodes that stand for a type the links are followed in the
  order of the store.  A link that ends in a text which is the key of no node, or of a node of
  another type than the one wanted, is passed over; the first that leads to a node of that type
  decides.  A link that ends in no text decides as well, for such an end is refused.  `follow` says
  what a list of links comes to, and `Followed` says it in terms of the link that decides; a lookup
  is shown to come to that link by link, and list by list over the nodes.
-/
import PropertyGraph.Proofs.Memory.Bounded
import PropertyGraph.Proofs.Routing.CompositeIds
import PropertyGraph.Proofs.Routing.Succession
import PropertyGraph.Proofs.Searcher.PropertyEquality

namespace PropertyGraph

open Engine (Step)
open Json (Record Tree)

variable {α β : Type} {c : EntityClass} {s : GraphState} {store : Store} {tree : FileTree}
  {stamp : Stamp} {type metaType : String}

/-- An identity is a text exactly when it is made from one. -/
theorem Id.string?_eq_some_iff {id : Id} {key : String} :
    id.string? = some key ↔ id = .ofString key := by
  refine ⟨fun h => Catalog.eq_ofString_of_requireText ?_, fun h => h ▸ rfl⟩
  rw [Id.requireText, h]

/-- Where a relationship leads. -/
def Relationship.target (link : Relationship) : Id := Endpoints.endId link.ends

/-- Where a relationship comes from. -/
def Relationship.source (link : Relationship) : Id := Endpoints.startId link.ends

/-! ## Links in a state -/

namespace GraphState

/-- The nodes that stand for a type. -/
def typeNodes (s : GraphState) (type : String) : List Node :=
  s.nodes.values.filter fun node =>
    node.type == SuiteTask.typeNodeType
      && (Entries.get? "name" node.properties).bind Json.string? == some type

/-- The links that come from a node. -/
def linksOf (s : GraphState) (node : Node) : List Relationship :=
  s.relationships.values.filter fun link =>
    link.type == SuiteTask.linkType && link.source.same node.id

/-- The links from the nodes that stand for a type, node by node. -/
def metaLinks (s : GraphState) (type : String) : List Relationship :=
  (s.typeNodes type).flatMap s.linksOf

/-- What a link decides: the node of a type that it leads to, or that its end is refused.  A link to
    anything else decides nothing. -/
def lead (s : GraphState) (metaType : String) (link : Relationship) : Option (Outcome Node) :=
  match link.target.string? with
  | none => some (.error (.identity (.notText link.target)))
  | some key => ((s.get .node key).filter fun node => node.type == metaType).map .ok

/-- What the first link that decides comes to. -/
def follow (s : GraphState) (metaType : String) (links : List Relationship) :
    Outcome (Option Node) :=
  match links.findSome? (s.lead metaType) with
  | none => .ok none
  | some outcome => outcome.map some

theorem follow_cons (s : GraphState) (metaType : String) (link : Relationship)
    (links : List Relationship) :
    s.follow metaType (link :: links)
      = match s.lead metaType link with
        | none => s.follow metaType links
        | some outcome => outcome.map some := by
  rw [follow, List.findSome?_cons]
  cases s.lead metaType link <;> rfl

/-- Where some links decide nothing, those after them come in. -/
theorem follow_append (s : GraphState) (metaType : String) (links more : List Relationship) :
    s.follow metaType (links ++ more)
      = match s.follow metaType links with
        | .ok none => s.follow metaType more
        | outcome => outcome := by
  rw [follow, follow, List.findSome?_append]
  rcases links.findSome? (s.lead metaType) with _ | (failure | node) <;> rfl

/-! ## Which link decides -/

/-- A link leads to a node of a type. -/
def LeadsTo (s : GraphState) (metaType : String) (link : Relationship) (node : Node) : Prop :=
  ∃ key, link.target = .ofString key ∧ s.get .node key = some node ∧ node.type = metaType

/-- A link ends in a text, and leads to no node of a type. -/
def LeadsNowhere (s : GraphState) (metaType : String) (link : Relationship) : Prop :=
  ∃ key, link.target = .ofString key ∧ ∀ node, s.get .node key = some node → node.type ≠ metaType

/-- What it comes to, to follow the links from the nodes that stand for a type: all links lead
    nowhere, or the first that does not leads to a node of the type wanted or ends in no text. -/
structure Followed (s : GraphState) (type metaType : String) (outcome : Outcome (Option Node)) :
    Prop where
  nowhere : outcome = .ok none ↔ ∀ link ∈ s.metaLinks type, s.LeadsNowhere metaType link
  found : ∀ node, outcome = .ok (some node) ↔ ∃ before link after,
    s.metaLinks type = before ++ link :: after ∧ (∀ l ∈ before, s.LeadsNowhere metaType l)
      ∧ s.LeadsTo metaType link node
  refused : ∀ failure, outcome = .error failure ↔ ∃ before link after,
    s.metaLinks type = before ++ link :: after ∧ (∀ l ∈ before, s.LeadsNowhere metaType l)
      ∧ link.target.string? = none ∧ failure = .identity (.notText link.target)

section Lead

variable {link : Relationship}

theorem lead_eq_none_iff : s.lead metaType link = none ↔ s.LeadsNowhere metaType link := by
  rw [lead, LeadsNowhere]
  simp only [← Id.string?_eq_some_iff]
  cases link.target.string? <;> simp

theorem lead_eq_ok_iff {node : Node} :
    s.lead metaType link = some (.ok node) ↔ s.LeadsTo metaType link node := by
  rw [lead, LeadsTo]
  simp only [← Id.string?_eq_some_iff]
  cases link.target.string? <;> simp

theorem lead_eq_error_iff {failure : Failure} :
    s.lead metaType link = some (.error failure)
      ↔ link.target.string? = none ∧ failure = .identity (.notText link.target) := by
  rw [lead]
  cases link.target.string? <;> simp [eq_comm]

/-- Links are followed up to the first that decides. -/
theorem followed_follow (s : GraphState) (type metaType : String) :
    s.Followed type metaType (s.follow metaType (s.metaLinks type)) := by
  -- the first link with a given lead, and those before it, which have none
  have hfirst (outcome : Outcome Node) :
      (s.metaLinks type).findSome? (s.lead metaType) = some outcome ↔ ∃ before link after,
        s.metaLinks type = before ++ link :: after ∧ (∀ l ∈ before, s.LeadsNowhere metaType l)
          ∧ s.lead metaType link = some outcome := by
    simp only [List.findSome?_eq_some_iff, lead_eq_none_iff, and_comm]
  have hfollow : s.follow metaType (s.metaLinks type)
      = match (s.metaLinks type).findSome? (s.lead metaType) with
        | none => .ok none
        | some outcome => outcome.map some := rfl
  refine ⟨?_, fun node => ?_, fun failure => ?_⟩
  · simp only [← lead_eq_none_iff, ← List.findSome?_eq_none_iff]
    rw [hfollow]
    rcases (s.metaLinks type).findSome? (s.lead metaType) with _ | (f | node) <;> simp [Except.map]
  · simp only [← lead_eq_ok_iff, ← hfirst]
    rw [hfollow]
    rcases (s.metaLinks type).findSome? (s.lead metaType) with _ | (f | node) <;> simp [Except.map]
  · simp only [← @lead_eq_error_iff s metaType, ← hfirst]
    rw [hfollow]
    rcases (s.metaLinks type).findSome? (s.lead metaType) with _ | (f | node) <;> simp [Except.map]

end Lead

end GraphState

/-! ## The two searches -/

namespace Searcher

/-- Where every test succeeds, a search keeps the entities that pass. -/
theorem filter_eq_ok_of_test {evaluator : Evaluator c} {q : Searcher}
    (hcheck : q.checkPaths = .ok ()) {passes : Entity c → Bool}
    (htest : ∀ e, q.test evaluator e = .ok (passes e))
    (es : List (Entity c)) : q.filter evaluator es = .ok (es.filter passes) := by
  have hkeeps : q.keeps evaluator = passes := by
    funext e
    rw [keeps, htest]
  rw [filter_eq_ok_iff, hkeeps]
  exact ⟨hcheck, fun e _ => ⟨_, htest e⟩, rfl⟩

/-- The arguments of an adjacency are read as they were meant. -/
theorem decode_adjacency {node : Id} {p : Number → Prop} (hnode : node.value.Proper p)
    (which : Side) :
    Adjacency.decode (.ofJson (.object [("nodeId", node.value), ("which", .string which.name)]))
      = .ok ⟨node, which⟩ := by
  have hside : Side.decode (.ofJson (.string which.name)) = .ok which := by cases which <;> rfl
  have hfields : (Record.both (.required "nodeId" Id.decode) (.required "which" Side.decode)).Reads
      [(some "nodeId", .ofJson node.value), (some "which", .ofJson (.string which.name))]
      (node, which) := by
    refine Record.reads_both (Record.reads_field (CompositeId.decode_ofJson hnode))
      (Record.reads_field hside) fun key value hmem => ?_
    obtain ⟨hkey, -⟩ := Prod.mk.inj (List.mem_singleton.1 hmem)
    obtain rfl := Option.some.inj hkey
    exact Record.foreign_field (by decide)
  exact Record.decode_of_reads (Record.reads_map hfields)

/-- Adjacency with arguments that can be read is looked up in the endpoints. -/
theorem builtin_of_decode {args : Json} {a : Adjacency} (h : Adjacency.decode (.ofJson args) = .ok a)
    (link : Relationship) :
    Evaluator.builtin adjacencyName args link = .ok (a.touches link.ends) := by
  simp only [Evaluator.builtin, if_true, Entity.endpoints?, h]

end Searcher

namespace GraphState

theorem read_name : PropertyPath.read "$.name" = .ok ⟨[.field "name"]⟩ := by cbv

theorem checkPaths_typeNodes (type : String) :
    (Searcher.propertyEq "$.name" (.string type)).checkPaths = .ok () :=
  (Searcher.checkPaths_ok_iff _).2 fun _ hq => ⟨_, List.mem_singleton.1 hq ▸ read_name⟩

/-- What it is for a node to name a type. -/
theorem test_name (evaluator : Evaluator .node) (type : String) (node : Node) :
    (Searcher.propertyEq "$.name" (.string type)).test evaluator node
      = .ok ((Entries.get? "name" node.properties).bind Json.string? == some type) := by
  have hselect : PropertyPath.select ⟨[.field "name"]⟩ node.properties
      = Entries.get? "name" node.properties := by
    show (Entries.get? "name" node.properties).bind _ = _
    cases Entries.get? "name" node.properties <;> rfl
  rw [Searcher.test_propertyEq evaluator read_name (.string type), hselect]
  congr 1
  rw [Bool.eq_iff_iff, beq_iff_eq, beq_iff_eq, Json.canonical_eq_string_iff]
  cases Entries.get? "name" node.properties with
  | none => simp
  | some v => cases v <;> simp [Json.string?]

/-- What it is for a link to come from a node. -/
theorem test_source {evaluator : Evaluator .relationship} {node : Node} {p : Number → Prop}
    (hevaluator : ∀ args e, evaluator Searcher.adjacencyName args e
      = Evaluator.builtin Searcher.adjacencyName args e)
    (hnode : node.id.value.Proper p) (link : Relationship) :
    (Searcher.adjacency node.id .start).test evaluator link = .ok (link.source.same node.id) := by
  show evaluator Searcher.adjacencyName _ link = _
  rw [hevaluator, Searcher.builtin_of_decode (Searcher.decode_adjacency hnode .start)]
  rfl

/-- The search for the nodes that stand for a type finds them all. -/
theorem filter_typeNodes (evaluator : Evaluator .node) (s : GraphState) (type : String) :
    Searcher.filter evaluator
        (.all [.typeEq SuiteTask.typeNodeType, .propertyEq "$.name" (.string type)]) s.nodes.values
      = .ok (s.typeNodes type) := by
  rw [Searcher.filter_typed, Searcher.filter_eq_ok_of_test (checkPaths_typeNodes type)
    (test_name evaluator type), typeNodes, List.filter_filter]
  congr 1
  exact List.filter_congr fun node _ => Bool.and_comm ..

/-- The search for the links that come from a node finds them all. -/
theorem filter_linksOf {evaluator : Evaluator .relationship} (s : GraphState) {node : Node}
    {p : Number → Prop}
    (hevaluator : ∀ args e, evaluator Searcher.adjacencyName args e
      = Evaluator.builtin Searcher.adjacencyName args e)
    (hnode : node.id.value.Proper p) :
    Searcher.filter evaluator
        (.all [.typeEq SuiteTask.linkType, .adjacency node.id .start]) s.relationships.values
      = .ok (s.linksOf node) := by
  rw [Searcher.filter_typed, Searcher.filter_eq_ok_of_test rfl (test_source hevaluator hnode),
    linksOf, List.filter_filter]
  congr 1
  exact List.filter_congr fun link _ => Bool.and_comm ..

end GraphState

/-! ## Tasks that look at one state -/

namespace SuiteTask

/-- A task has an outcome, and leaves a suite and the files as they are. -/
def Finds (task : SuiteTask α) (state : Suite × FileTree) (outcome : Outcome α) : Prop :=
  (task.runOn state.1).run state.2 = ((outcome, state.1), state.2)

variable {state : Suite × FileTree} {task : SuiteTask α} {next : α → SuiteTask β}

theorem finds_pure (a : α) : Finds (pure a) state (.ok a) := rfl

theorem finds_ofDecoded (d : Json.Decoded α) :
    Finds (ofDecoded d) state (d.mapError fun _ => .malformed) := by
  cases d <;> rfl

/-- A task goes on with what another one has found. -/
theorem Finds.bind {a : α} {outcome : Outcome β} (h : task.Finds state (.ok a))
    (hnext : (next a).Finds state outcome) : (task >>= next).Finds state outcome := by
  rw [Finds, run_bind, h]
  exact hnext

/-- A task ends when another one has failed. -/
theorem Finds.bind_error {f : Failure} (h : task.Finds state (.error f)) (next : α → SuiteTask β) :
    (task >>= next).Finds state (.error f) := by
  rw [Finds, run_bind, h]

end SuiteTask

namespace Store

/-- The state that a store has at hand. -/
def loaded (store : Store) (tree : FileTree) : Outcome GraphState :=
  match store.keeper with
  | .shared s => .ok s
  | .snapshot path => ((Keeper.load path).exec tree).1

/-- Adjacency means to a store what it means to all. -/
def KnowsAdjacency (store : Store) : Prop :=
  ∀ args e, store.evaluators.relationship Searcher.adjacencyName args e
    = Evaluator.builtin Searcher.adjacencyName args e

theorem loaded_of_shared (hkeeper : store.keeper = .shared s) (tree : FileTree) :
    store.loaded tree = .ok s := by
  rw [loaded, hkeeper]

theorem loaded_of_snapshot {path : String} (hkeeper : store.keeper = .snapshot path)
    (tree : FileTree) : store.loaded tree = ((Keeper.load path).exec tree).1 := by
  rw [loaded, hkeeper]

/-- What a store of bounded values has at hand is a bounded state, if files have not failed. -/
theorem Bounded.loaded_cases (h : store.Bounded) (tree : FileTree) :
    (∃ s : GraphState, s.Bounded ∧ store.loaded tree = .ok s)
      ∨ ∃ f : Failure, f.OfFiles ∧ store.loaded tree = .error f := by
  cases hkeeper : store.keeper with
  | shared s => exact .inl ⟨s, h s hkeeper, loaded_of_shared hkeeper tree⟩
  | snapshot path =>
    rw [loaded_of_snapshot hkeeper]
    obtain ⟨s, hs, hload⟩ | ⟨f, hfiles, hload⟩ := exec_load_cases path tree
    · exact .inl ⟨s, hs, congrArg Prod.fst hload⟩
    · exact .inr ⟨f, hfiles, congrArg Prod.fst hload⟩

/-- A call that looks is answered from the state at hand. -/
theorem finds_ask (hloaded : store.loaded tree = .ok s) (stamp : Stamp) (call : Call)
    (hlooks : call.Looks) :
    (SuiteTask.ask stamp call).Finds (.store store, tree) (store.respond stamp s call).1 := by
  have hrun : (store.answer stamp call).run tree
      = (((store.respond stamp s call).1, store), tree) := by
    cases hkeeper : store.keeper with
    | shared s' =>
      rw [loaded_of_shared hkeeper] at hloaded
      obtain rfl := Except.ok.inj hloaded
      have hrun := run_answer_withState store s' stamp call tree
      rwa [Suite.respond_unchanged (.inl hlooks), withState_of_keeper hkeeper] at hrun
    | snapshot path =>
      rw [loaded_of_snapshot hkeeper] at hloaded
      have hload : (Keeper.load path).exec tree = (.ok s, tree) :=
        Prod.ext hloaded (Keeper.exec_load_unchanged path tree)
      have hstore : store.onFile path = store := by rw [onFile, ← hkeeper]
      rw [← hstore]
      exact run_answer_onFile_of_looks hload hlooks
  show (Suite.answer stamp (.store store) call).run tree = _
  rw [Suite.run_store, hrun]

/-- What a text names is what is there under it as a key. -/
theorem finds_get (hloaded : store.loaded tree = .ok s) (stamp : Stamp) {id : Id} {key : String}
    (hid : id.string? = some key) {found : Option (Entity c)} (hget : s.get c key = found) :
    (SuiteTask.ask stamp (.get c id)).Finds (.store store, tree) (.ok found) := by
  have hreply : (store.respond stamp s (.get c id)).1 = .ok found := by
    rw [respond, Id.requireText, hid, ← hget]
    rfl
  rw [← hreply]
  exact finds_ask hloaded stamp (.get c id) trivial

/-- An identity that is no text is refused. -/
theorem finds_get_refused (hloaded : store.loaded tree = .ok s) (stamp : Stamp) {id : Id}
    (hid : id.string? = none) :
    (SuiteTask.ask stamp (.get c id)).Finds (.store store, tree)
      (.error (.identity (.notText id))) := by
  have hreply : (store.respond stamp s (.get c id)).1 = .error (.identity (.notText id)) := by
    rw [respond, Id.requireText, hid]
    rfl
  rw [← hreply]
  exact finds_ask hloaded stamp (.get c id) trivial

/-- A search finds what it keeps of the entities at hand. -/
theorem finds_search (hloaded : store.loaded tree = .ok s) (stamp : Stamp) {searcher : Searcher}
    {found : List (Entity c)}
    (hfilter : searcher.filter (store.evaluators.forClass c) (s.entities c).values = .ok found) :
    (SuiteTask.ask stamp (.search c searcher)).Finds (.store store, tree) (.ok found) := by
  have hreply : (store.respond stamp s (.search c searcher)).1 = .ok found := hfilter
  rw [← hreply]
  exact finds_ask hloaded stamp (.search c searcher) trivial

/-- A search whose paths can be read fails as the state cannot be had. -/
theorem finds_search_of_error {f : Failure} (hloaded : store.loaded tree = .error f)
    (stamp : Stamp) {searcher : Searcher} (hcheck : searcher.checkPaths = .ok ()) :
    (SuiteTask.ask stamp (.search c searcher)).Finds (.store store, tree) (.error f) := by
  cases hkeeper : store.keeper with
  | shared s' => rw [loaded_of_shared hkeeper] at hloaded; cases hloaded
  | snapshot path =>
    rw [loaded_of_snapshot hkeeper] at hloaded
    obtain ⟨m, hm⟩ := Searcher.compile_isOk (store.evaluators.forClass c) hcheck
    have hrun : (store.look fun s => m.filter (s.entities c).values).run tree
        = ((.error f, store), tree) := by
      rw [run_look hkeeper, hloaded]
      rfl
    show (Suite.answer stamp (.store store) (.search c searcher)).run tree = _
    rw [Suite.run_store, answer, hm]
    exact congrArg (fun r => ((r.1.1, Suite.store r.1.2), r.2)) hrun

/-! ## Following links -/

section Following

variable (hloaded : store.loaded tree = .ok s)
include hloaded

theorem finds_followLinks (stamp : Stamp) (metaType : String) (links : List Relationship) :
    (SuiteTask.followLinks stamp metaType links).Finds (.store store, tree)
      (s.follow metaType links) := by
  induction links with
  | nil => rfl
  | cons link rest ih =>
    rw [GraphState.follow_cons]
    -- Three ways for a link to lead: to an endpoint that is no text, which fails; to nothing or to
    -- a node of another type, and then the rest is followed; or to a node of metadata, which ends
    -- the search.
    cases hend : link.target.string? with
    | none =>
      rw [GraphState.lead_eq_error_iff.2 ⟨hend, rfl⟩]
      exact (finds_get_refused hloaded stamp hend).bind_error _
    | some key =>
      have htarget := Id.string?_eq_some_iff.1 hend
      cases hget : s.get .node key with
      | none =>
        have hnowhere : s.LeadsNowhere metaType link := ⟨key, htarget, by simp [hget]⟩
        rw [GraphState.lead_eq_none_iff.2 hnowhere]
        exact (finds_get hloaded stamp hend hget).bind ih
      | some node =>
        refine (finds_get hloaded stamp hend hget).bind ?_
        show SuiteTask.Finds (if node.type = metaType then _ else _) _ _
        split
        · next htype =>
          rw [GraphState.lead_eq_ok_iff.2 ⟨key, htarget, hget, htype⟩]
          exact SuiteTask.finds_pure _
        · next htype =>
          have hnowhere : s.LeadsNowhere metaType link :=
            ⟨key, htarget, by simpa [hget] using htype⟩
          rw [GraphState.lead_eq_none_iff.2 hnowhere]
          exact ih

variable (hadjacency : store.KnowsAdjacency) {p : Number → Prop}
include hadjacency

theorem finds_followTypes (stamp : Stamp) (metaType : String) (nodes : List Node)
    (hnodes : ∀ node ∈ nodes, node.id.value.Proper p) :
    (SuiteTask.followTypes stamp metaType nodes).Finds (.store store, tree)
      (s.follow metaType (nodes.flatMap s.linksOf)) := by
  induction nodes with
  | nil => rfl
  | cons node rest ih =>
    obtain ⟨hnode, hrest⟩ := List.forall_mem_cons.1 hnodes
    refine (finds_search hloaded stamp (s.filter_linksOf hadjacency hnode)).bind ?_
    have hhere := finds_followLinks hloaded stamp metaType (s.linksOf node)
    rw [List.flatMap_cons, GraphState.follow_append]
    match s.follow metaType (s.linksOf node), hhere with
    | .error failure, hhere => exact hhere.bind_error _
    | .ok (some found), hhere => exact hhere.bind rfl
    | .ok none, hhere => exact hhere.bind (ih hrest)

end Following

/-- The lookup of a metadata node follows the links from the nodes that stand for a type. -/
theorem finds_metadataNode (hloaded : store.loaded tree = .ok s) (hadjacency : store.KnowsAdjacency)
    (hs : s.Bounded) (stamp : Stamp) (type metaType : String) :
    (SuiteTask.metadataNode stamp type metaType).Finds (.store store, tree)
      (s.follow metaType (s.metaLinks type)) := by
  have hnodes : ∀ node ∈ s.typeNodes type, node.id.value.Proper Number.Bounded := by
    intro node hnode
    obtain ⟨entry, hentry, rfl⟩ := List.mem_map.1 (List.mem_filter.1 hnode).1
    exact (hs.entity (c := .node) hentry).id
  exact (finds_search hloaded stamp (s.filter_typeNodes store.evaluators.node type)).bind
    (finds_followTypes hloaded hadjacency stamp metaType (s.typeNodes type) hnodes)

/-- The lookup of a metadata node fails as the state cannot be had. -/
theorem finds_metadataNode_of_error {f : Failure} (hloaded : store.loaded tree = .error f)
    (stamp : Stamp) (type metaType : String) :
    (SuiteTask.metadataNode stamp type metaType).Finds (.store store, tree) (.error f) := by
  have hcheck : (Searcher.all [.typeEq SuiteTask.typeNodeType,
      .propertyEq "$.name" (.string type)]).checkPaths = .ok () :=
    GraphState.checkPaths_typeNodes type
  exact (finds_search_of_error (c := .node) hloaded stamp hcheck).bind_error _

end Store

/-! ## Metadata -/

namespace SuiteTask

variable {state : Suite × FileTree} {found : Outcome (Option Node)}

/-- What is shown by a metadata node; the default if there is none. -/
def shown (decode : Tree → Json.Decoded α) (default : α) : Option Node → Outcome α
  | some node => (decode (.ofJson (.object node.properties))).mapError fun _ => .malformed
  | none => .ok default

theorem Finds.summaryOf (h : (metadataNode stamp type summaryType).Finds state found) :
    (summaryOf stamp type).Finds state (found >>= shown Summary.decode Summary.default) := by
  match found, h with
  | .error failure, h => exact h.bind_error _
  | .ok none, h => exact h.bind rfl
  | .ok (some node), h => exact h.bind (finds_ofDecoded _)

theorem Finds.detailsOf (h : (metadataNode stamp type detailsType).Finds state found) :
    (detailsOf stamp type).Finds state (found >>= shown Details.decode Details.default) := by
  match found, h with
  | .error failure, h => exact h.bind_error _
  | .ok none, h => exact h.bind rfl
  | .ok (some node), h => exact h.bind (finds_ofDecoded _)

end SuiteTask

namespace GraphState

/-- Where all links end in texts, no identity is refused. -/
theorem Followed.texts {outcome : Outcome (Option Node)} (h : s.Followed type metaType outcome)
    (htexts : ∀ link ∈ s.metaLinks type, link.target.string? ≠ none) :
    ∃ found, outcome = .ok found := by
  cases outcome with
  | ok found => exact ⟨found, rfl⟩
  | error failure =>
    obtain ⟨before, link, after, hlinks, -, hend, -⟩ := (h.refused failure).1 rfl
    exact absurd hend (htexts link (by simp [hlinks]))

end GraphState

theorem SuiteTask.shown_ne_identity (decode : Tree → Json.Decoded α) (default : α)
    (found : Option Node) (why : IdentityFault) :
    shown decode default found ≠ .error (.identity why) := by
  intro h
  cases found with
  | none => cases h
  | some node =>
    rw [shown] at h
    cases hdecode : decode (.ofJson (.object node.properties)) <;> rw [hdecode] at h <;> cases h

namespace Store

/-- A run of proper calls leaves a store bounded, with the evaluators that it had. -/
theorem Bounded.after (h : store.Bounded) (tree : FileTree) {steps : List Step}
    (hproper : ∀ step ∈ steps, step.Proper Number.Bounded) :
    ∃ store' tree', backend.after (store, tree) steps = (store', tree') ∧ store'.Bounded
      ∧ store'.evaluators = store.evaluators := by
  induction steps using List.reverseRecOn with
  | nil => exact ⟨store, tree, rfl, h, rfl⟩
  | append_singleton steps step ih =>
    obtain ⟨store₁, tree₁, hafter, hbounded, hevaluators⟩ :=
      ih fun other hmem => hproper other (List.mem_append_left _ hmem)
    obtain ⟨outcome, store₂, tree₂, hrun, hbounded₂, -, -⟩ :=
      hbounded.answers tree₁ (hproper step (by simp))
    refine ⟨store₂, tree₂, ?_, hbounded₂, ?_⟩
    · rw [Backend.after_append, hafter, Backend.advance, backend]
      simp only [hrun]
    · have hsame := evaluators_run store₁ step.stamp step.call tree₁
      rw [hrun] at hsame
      rw [← hevaluators]
      exact hsame

/-- After every run of proper calls, metadata is found by following links.  What is shown of a type
    is what stands in the first node of the wanted type at the end of a link from a node that stands
    for the type, and the default if there is none; links to texts that are the keys of no such node
    are passed over.  No identity is refused unless some link ends in no text, and one is if such a
    link comes first. -/
theorem metadata_by_links (hadjacency : store.KnowsAdjacency) (hbounded : store.Bounded)
    (tree : FileTree) {steps : List Step} (hproper : ∀ step ∈ steps, step.Proper Number.Bounded)
    (stamp : Stamp) (type : String) :
    ∃ store' tree' summary details, backend.after (store, tree) steps = (store', tree')
      ∧ (SuiteTask.summaryOf stamp type).Finds (.store store', tree') summary
      ∧ (SuiteTask.detailsOf stamp type).Finds (.store store', tree') details
      ∧ (∀ f, store'.loaded tree' = .error f →
          f.OfFiles ∧ summary = .error f ∧ details = .error f)
      ∧ ∀ s, store'.loaded tree' = .ok s →
        (∃ found, s.Followed type SuiteTask.summaryType found
          ∧ summary = found >>= SuiteTask.shown Summary.decode Summary.default)
        ∧ (∃ found, s.Followed type SuiteTask.detailsType found
          ∧ details = found >>= SuiteTask.shown Details.decode Details.default)
        ∧ ((∀ link ∈ s.metaLinks type, link.target.string? ≠ none) →
          ∀ why, summary ≠ .error (.identity why) ∧ details ≠ .error (.identity why)) := by
  obtain ⟨store', tree', hafter, hbounded', hevaluators⟩ := hbounded.after tree hproper
  have hadjacency' : store'.KnowsAdjacency := by rwa [KnowsAdjacency, hevaluators]
  -- both lookups read one state, or the state cannot be read
  obtain ⟨s, hs, hloaded⟩ | ⟨f, hfiles, hloaded⟩ := hbounded'.loaded_cases tree'
  · have hfinds (metaType : String) :=
      finds_metadataNode hloaded hadjacency' hs stamp type metaType
    have hfollowed := s.followed_follow type
    refine ⟨store', tree', _, _, hafter, (hfinds _).summaryOf, (hfinds _).detailsOf, ?_, ?_⟩
    · intro f hf
      rw [hloaded] at hf
      cases hf
    · intro s' hs'
      rw [hloaded] at hs'
      obtain rfl := Except.ok.inj hs'
      refine ⟨⟨_, hfollowed _, rfl⟩, ⟨_, hfollowed _, rfl⟩, fun htexts why => ?_⟩
      obtain ⟨first, hfirst⟩ := (hfollowed SuiteTask.summaryType).texts htexts
      obtain ⟨second, hsecond⟩ := (hfollowed SuiteTask.detailsType).texts htexts
      rw [hfirst, hsecond]
      exact ⟨SuiteTask.shown_ne_identity _ _ _ _, SuiteTask.shown_ne_identity _ _ _ _⟩
  · have hfinds (metaType : String) :=
      finds_metadataNode_of_error hloaded stamp type metaType
    refine ⟨store', tree', _, _, hafter, (hfinds _).summaryOf, (hfinds _).detailsOf, ?_, ?_⟩
    · intro f' hf'
      rw [hloaded] at hf'
      obtain rfl := Except.error.inj hf'
      exact ⟨hfiles, rfl, rfl⟩
    · intro s hs
      rw [hloaded] at hs
      cases hs

/-! ## A link that leads elsewhere -/

/-- A node for a type gets a link to some end, and then one to a summary. -/
def linking (finish : Id) : List Step :=
  [⟨⟨"1", 10⟩, .create .node (Body.node SuiteTask.typeNodeType [("name", .string "Person")])⟩,
    ⟨⟨"2", 11⟩, .create .relationship
      (Body.relationship SuiteTask.linkType [] (.ofString "1") finish)⟩,
    ⟨⟨"3", 12⟩, .create .node (Body.node SuiteTask.summaryType [("title", .string "$.t")])⟩,
    ⟨⟨"4", 13⟩, .create .relationship
      (Body.relationship SuiteTask.linkType [] (.ofString "1") (.ofString "3"))⟩]

def typeNode : Node :=
  ⟨.ofString "1", SuiteTask.typeNodeType, [("name", .string "Person")], (), some 10⟩

def strayLink (finish : Id) : Relationship :=
  ⟨.ofString "2", SuiteTask.linkType, [], (⟨.ofString "1", finish⟩ : Endpoints), some 11⟩

def summaryNode : Node :=
  ⟨.ofString "3", SuiteTask.summaryType, [("title", .string "$.t")], (), some 12⟩

def summaryLink : Relationship :=
  ⟨.ofString "4", SuiteTask.linkType, [], (⟨.ofString "1", .ofString "3"⟩ : Endpoints), some 13⟩

/-- The state that `linking` leaves. -/
def linked (finish : Id) : GraphState :=
  ⟨[("1", typeNode), ("3", summaryNode)], [("2", strayLink finish), ("4", summaryLink)]⟩

theorem after_linking (finish : Id) :
    backend.after (blank, .sample) (linking finish) = (blank.withState (linked finish), .sample) :=
  rfl

theorem metaLinks_linked (finish : Id) :
    (linked finish).metaLinks "Person" = [strayLink finish, summaryLink] := by
  rfl

theorem knowsAdjacency_blank (s : GraphState) : (blank.withState s).KnowsAdjacency := fun _ _ => rfl

theorem bounded_blank : blank.Bounded := fun _ hs => Keeper.shared.inj hs ▸ GraphState.bounded_empty

theorem proper_linking {finish : Id} (hfinish : finish.value.Proper Number.Bounded) :
    ∀ step ∈ linking finish, step.Proper Number.Bounded := by
  simp only [linking, List.forall_mem_cons]
  exact ⟨⟨by decide, ⟨List.nodup_singleton _, trivial, trivial⟩, trivial⟩,
    ⟨(by decide : TimeFits 11), ⟨List.nodup_nil, trivial⟩, trivial, hfinish⟩,
    ⟨by decide, ⟨List.nodup_singleton _, trivial, trivial⟩, trivial⟩,
    ⟨by decide, ⟨List.nodup_nil, trivial⟩, trivial, trivial⟩, List.forall_mem_nil _⟩

theorem bounded_linked {finish : Id} (hfinish : finish.value.Proper Number.Bounded) :
    (linked finish).Bounded := by
  obtain ⟨store', tree', hafter, hbounded, -⟩ :=
    bounded_blank.after .sample (proper_linking hfinish)
  rw [after_linking] at hafter
  obtain ⟨rfl, rfl⟩ := Prod.mk.inj hafter
  exact hbounded _ rfl

/-- A link to an identity that the store does not know is passed over. -/
theorem metadata_by_links_foreign :
    blank.KnowsAdjacency ∧ blank.Bounded
      ∧ (∀ step ∈ linking (.ofString "x"), step.Proper Number.Bounded)
      ∧ (SuiteTask.summaryOf ⟨"5", 14⟩ "Person").Finds
          (.store (blank.withState (linked (.ofString "x"))), .sample) (.ok ⟨"$.t", []⟩)
      ∧ (SuiteTask.detailsOf ⟨"5", 14⟩ "Person").Finds
          (.store (blank.withState (linked (.ofString "x"))), .sample) (.ok Details.default) := by
  have hadjacency : blank.KnowsAdjacency := knowsAdjacency_blank .empty
  have hproper : ∀ step ∈ linking (.ofString "x"), step.Proper Number.Bounded :=
    proper_linking trivial
  obtain ⟨store', tree', summary, details, hafter, hsummary, hdetails, -, hloaded⟩ :=
    metadata_by_links hadjacency bounded_blank .sample hproper ⟨"5", 14⟩ "Person"
  rw [after_linking] at hafter
  obtain ⟨rfl, rfl⟩ := Prod.mk.inj hafter
  obtain ⟨⟨found, hfound, rfl⟩, ⟨other, hother, rfl⟩, -⟩ := hloaded _ rfl
  have hlinks := metaLinks_linked (.ofString "x")
  have hstray (metaType : String) :
      (linked (.ofString "x")).LeadsNowhere metaType (strayLink (.ofString "x")) :=
    ⟨"x", rfl, fun node hnode => by cases hnode⟩
  obtain rfl : found = .ok (some summaryNode) := (hfound.found summaryNode).2
    ⟨[strayLink _], summaryLink, [], hlinks, List.forall_mem_singleton.2 (hstray _), "3", rfl, rfl,
      rfl⟩
  obtain rfl : other = .ok none := by
    rw [hother.nowhere, hlinks]
    refine List.forall_mem_cons.2 ⟨hstray _, List.forall_mem_singleton.2 ⟨"3", rfl, ?_⟩⟩
    intro node hnode
    obtain rfl : summaryNode = node := Option.some.inj hnode
    decide
  exact ⟨hadjacency, bounded_blank, hproper, hsummary, hdetails⟩

/-- The identity of a node in another graph, composed with the name of that graph. -/
def composed : Id := ⟨.object [("suite", .string "docs"), ("id", .string "n-1")]⟩

theorem follow_linked_composed (metaType : String) :
    (linked composed).follow metaType ((linked composed).metaLinks "Person")
      = .error (.identity (.notText composed)) := by
  rw [metaLinks_linked, GraphState.follow_cons, GraphState.lead_eq_error_iff.2 ⟨rfl, rfl⟩]
  rfl

/-- A link to the composed identity of a node elsewhere ends the lookup of all metadata with a
    refusal, though a link to a summary comes after it. -/
theorem foreign_link_refused :
    backend.after (blank, .sample) (linking composed) = (blank.withState (linked composed), .sample)
      ∧ (linked composed).metaLinks "Person" = [strayLink composed, summaryLink]
      ∧ (linked composed).LeadsTo SuiteTask.summaryType summaryLink summaryNode
      ∧ (SuiteTask.summaryOf ⟨"5", 14⟩ "Person").Finds
          (.store (blank.withState (linked composed)), .sample)
          (.error (.identity (.notText composed)))
      ∧ (SuiteTask.detailsOf ⟨"5", 14⟩ "Person").Finds
          (.store (blank.withState (linked composed)), .sample)
          (.error (.identity (.notText composed))) := by
  have hcomposed : composed.value.Proper Number.Bounded := ⟨by decide, trivial, trivial, trivial⟩
  have hloaded : (blank.withState (linked composed)).loaded .sample = .ok (linked composed) := rfl
  have hfinds (metaType : String) := finds_metadataNode hloaded (knowsAdjacency_blank _)
    (bounded_linked hcomposed) ⟨"5", 14⟩ "Person" metaType
  simp only [follow_linked_composed] at hfinds
  exact ⟨after_linking composed, metaLinks_linked composed, ⟨"3", rfl, rfl, rfl⟩,
    (hfinds _).summaryOf, (hfinds _).detailsOf⟩

end Store

end PropertyGraph
