/-
  PropertyGraph.Proofs.Routing.ReturnedIds

  The identities that lookups give back.  Stores and graphs in documents know texts only and give
  an entity under the text that was asked for.  A dispatcher composes the identity anew from what
  it has read, and what it composes is an object.  So at every level an identity comes back as it
  was, unless an array stood for the object there; by induction, it comes back as it was exactly
  when no array stood for an object at any level.
-/
import PropertyGraph.Proofs.Memory.Persistence
import PropertyGraph.Proofs.Routing.CompositeIds
import PropertyGraph.Proofs.Routing.Succession

namespace PropertyGraph

open CompositeId (Composed Listed)
open Engine (Step)

variable {c : EntityClass} {p : Number → Prop} {tree : FileTree} {stamp : Stamp} {id : Id}
  {e : Entity c}

/-! ## Graphs in documents -/

/-- Giving a node its texts back leaves its identity as it is. -/
theorem RawText.id_of_merge {rule : RawText} {root : String} {node seen : Node}
    (h : ((rule.merge root node).exec tree).1 = .ok seen) : seen.id = node.id := by
  rw [merge] at h
  split at h
  · rw [FileTask.exec_bind] at h
    rcases hread : (FileTask.read (Naming.rawPath root _)).exec tree with ⟨_ | text, tree'⟩
    · rw [hread] at h
      cases h
    · rw [hread] at h
      obtain rfl := Except.ok.inj h
      rfl
  · obtain rfl := Except.ok.inj h
    rfl

/-- An entity is seen under its own identity. -/
theorem Engine.id_of_view {g : Engine} {seen : Entity c}
    (h : ((g.view e).exec tree).1 = .ok seen) : seen.id = e.id := by
  cases c with
  | relationship =>
    obtain rfl := Except.ok.inj h
    rfl
  | node =>
    rw [view] at h
    -- the rules are those of the type that was kept, while the node changes from rule to rule
    generalize g.rulesFor e.type = rules at h
    induction rules generalizing e tree with
    | nil =>
      obtain rfl := Except.ok.inj h
      rfl
    | cons rule rest ih =>
      rw [List.foldlM_cons] at h
      obtain ⟨next, tree', hmerge, hrest⟩ := FileTask.exec_bind_eq_ok (Prod.ext h rfl)
      rw [ih (congrArg Prod.fst hrest), RawText.id_of_merge (congrArg Prod.fst hmerge)]

/-- A lookup in documents is by a text, and gives an entity under the same text. -/
theorem Engine.same_of_get {g : Engine} (h : ((g.get c id).exec tree).1 = .ok (some e)) :
    (∃ key, id = .ofString key) ∧ e.id.same id = true := by
  rw [get, FileTask.exec_bind, Catalog.exec_get] at h
  cases hget : (tree.shelf g.root c).get id with
  | error failure =>
    rw [hget] at h
    cases h
  | ok found =>
    rw [hget] at h
    cases found with
    | none => cases h
    | some kept =>
      obtain ⟨key, type, index, entities, hlocated⟩ := Shelf.located_of_get hget
      obtain ⟨seen, tree', hview, hseen⟩ := FileTask.exec_bind_eq_ok (Prod.ext h rfl)
      obtain rfl := Option.some.inj (Except.ok.inj (congrArg Prod.fst hseen))
      refine ⟨⟨key, hlocated.id_eq⟩, ?_⟩
      rw [Engine.id_of_view (congrArg Prod.fst hview)]
      exact hlocated.same

/-! ## Stores -/

/-- The states that a keeper can load keep every entity under the text of its identity: the state
    that it is, or those in its file in some trees. -/
def Keeper.Keyed (trees : FileTree → Prop) : Keeper → Prop
  | .shared s => s.Keyed
  | .snapshot path => ∀ tree s, trees tree → (load path).exec tree = (.ok s, tree) → s.Keyed

namespace Store

variable {store : Store} {trees : FileTree → Prop}

/-- A lookup in a store is by a text, and gives an entity under the same text. -/
theorem id_of_get (h : store.keeper.Keyed trees) (htree : trees tree)
    (hreply : ((store.answer stamp (.get c id)).run tree).1.1 = .ok (some e)) :
    ∃ key, id = .ofString key ∧ e.id = .ofString key := by
  rw [answer, withKey] at hreply
  cases hkey : id.requireText with
  | error failure =>
    rw [hkey] at hreply
    cases hreply
  | ok key =>
    rw [hkey] at hreply
    replace hreply : ((store.look fun s => .ok (s.get c key)).run tree).1.1 = .ok (some e) := hreply
    refine ⟨key, Catalog.eq_ofString_of_requireText hkey, ?_⟩
    cases hkeeper : store.keeper with
    | shared s =>
      rw [hkeeper] at h
      rw [look, hkeeper] at hreply
      exact h.id_of_get (Except.ok.inj hreply)
    | snapshot path =>
      rw [hkeeper] at h
      rw [run_look hkeeper] at hreply
      rcases hload : (Keeper.load path).exec tree with ⟨_ | s, tree'⟩
      · rw [hload] at hreply
        cases hreply
      · obtain rfl : tree' = tree := by rw [← Keeper.exec_load_unchanged path tree, hload]
        rw [hload] at hreply
        exact (h tree' s htree hload).id_of_get (Except.ok.inj hreply)

/-- A call leaves a store keyed. -/
theorem keyed_run (h : store.keeper.Keyed trees) (stamp : Stamp) (call : Call) (tree : FileTree) :
    ((store.answer stamp call).run tree).1.2.keeper.Keyed trees := by
  cases hkeeper : store.keeper with
  | shared s =>
    rw [hkeeper] at h
    rw [← withState_of_keeper hkeeper, run_answer_withState]
    exact store.keyed_respond h stamp call
  | snapshot path =>
    rw [run_of_snapshot hkeeper]
    exact h

end Store

/-! ## Dispatchers -/

namespace Suite

variable {members : List (String × Suite)} {owners : Owners} {suite : Suite}
  {trees : FileTree → Prop}

/-- What a lookup in a dispatcher gives was given by the member that the identity names, for the
    native identity, and is given back under the identity that is composed of the two. -/
theorem member_of_get
    (hreply : ((answer stamp (.dispatcher members owners) (.get c id)).run tree).1.1
      = .ok (some e)) :
    ∃ composite member found, CompositeId.ofId id = .ok composite
      ∧ Entries.get? composite.suite members = some member
      ∧ ((answer stamp member (.get c composite.id)).run tree).1.1 = .ok (some found)
      ∧ e = compose composite.suite found := by
  by_cases hresolves : Resolves members id
  · obtain ⟨composite, member, hid, hmember⟩ := hresolves
    rw [run_of_forwards (.get hid) hmember] at hreply
    refine ⟨composite, member, ?_⟩
    cases houtcome : ((answer stamp member (.get c composite.id)).run tree).1.1 with
    | error failure =>
      simp only [houtcome] at hreply
      cases hreply
    | ok found? =>
      simp only [houtcome] at hreply
      obtain ⟨found, rfl, hfound⟩ := Option.map_eq_some_iff.1 (Except.ok.inj hreply)
      exact ⟨found, hid, hmember, rfl, hfound.symm⟩
  · have hrefuses : Refuses members owners (.get c id) := refuses_get hresolves c
    obtain ⟨failure, -, hrefused⟩ := hrefuses
    rw [hrefused] at hreply
    cases hreply

/-- An identity comes back as it was exactly when it was an object and the native identity comes
    back as it was. -/
theorem same_compose_iff (hproper : id.value.Proper p) {composite : CompositeId}
    (hid : CompositeId.ofId id = .ok composite) (found : Entity c) :
    (compose composite.suite found).id.same id = true
      ↔ Composed composite.suite composite.id.value id.value
        ∧ found.id.same composite.id = true := by
  obtain ⟨v⟩ := id
  obtain hcomposed | rfl := (CompositeId.ofId_eq_ok_iff hproper).1 hid
  · rw [compose_id, hcomposed.same_toId]
    exact ⟨fun hsame => ⟨hcomposed, hsame⟩, And.right⟩
  · rw [compose_id, CompositeId.not_same_array]
    exact ⟨nofun, fun h => nomatch h.1⟩

/-- A graph of stores, graphs in documents and dispatchers over such graphs, whose stores keep every
    entity under the text of its identity. -/
inductive Keyed (trees : FileTree → Prop) : Suite → Prop
  | store {store : Store} : store.keeper.Keyed trees → Keyed trees (.store store)
  | engine (g : Engine) : Keyed trees (.engine g)
  | dispatcher {members : List (String × Suite)} {owners : Owners} :
    (∀ member ∈ members, Keyed trees member.2) → Keyed trees (.dispatcher members owners)

/-- An identity that something is found under comes back as it was exactly when no array stands for
    a composite in it. -/
theorem Keyed.same_iff (h : suite.Keyed trees) (htree : trees tree) (hproper : id.value.Proper p)
    (hreply : ((answer stamp suite (.get c id)).run tree).1.1 = .ok (some e)) :
    e.id.same id = true ↔ ¬ Listed id.value := by
  induction h generalizing id e with
  | @store store hkeyed =>
    rw [run_store] at hreply
    obtain ⟨key, rfl, hid⟩ := Store.id_of_get hkeyed htree hreply
    rw [hid]
    exact ⟨fun _ => CompositeId.not_listed_string key, fun _ => beq_self_eq_true key⟩
  | engine g =>
    rw [run_engine] at hreply
    obtain ⟨⟨key, rfl⟩, hsame⟩ := Engine.same_of_get hreply
    exact ⟨fun _ => CompositeId.not_listed_string key, fun _ => hsame⟩
  | @dispatcher members owners _ ih =>
    obtain ⟨composite, member, found, hid, hmember, hfound, rfl⟩ := member_of_get hreply
    -- the dispatcher adds one level, and the member answers for all the others
    rw [same_compose_iff hproper hid]
    obtain ⟨v⟩ := id
    obtain hcomposed | rfl := (CompositeId.ofId_eq_ok_iff hproper).1 hid
    · rw [hcomposed.listed_iff,
        ih _ (Entries.mem_of_get? hmember) (hcomposed.proper hproper) hfound]
      exact ⟨And.right, fun hlisted => ⟨hcomposed, hlisted⟩⟩
    · refine ⟨fun h => ?_, fun h => absurd (Listed.array _ _) h⟩
      cases h.1

/-- A call leaves a graph keyed. -/
theorem Keyed.run (h : suite.Keyed trees) (stamp : Stamp) (call : Call) (tree : FileTree) :
    ((answer stamp suite call).run tree).1.2.Keyed trees := by
  induction h generalizing call with
  | store hkeyed =>
    rw [run_store]
    exact .store (Store.keyed_run hkeyed stamp call tree)
  | engine g =>
    rw [run_engine]
    exact .engine g
  | @dispatcher members owners hmembers ih =>
    obtain ⟨members', hbecame, hsucceed⟩ := run_dispatcher members owners stamp call tree
    rw [hbecame]
    exact .dispatcher (hsucceed.all fun member hmem => ⟨hmembers member hmem, ih member hmem⟩)

/-- Composites and the identities that they stand for.  Every composite is read as it was composed,
    its native identity being any value.  A value is read as a composite exactly when it is the
    object of the two fields or an array of them by place, and is reported as it stands otherwise;
    what was read is composed to the same identity again exactly when it was an object.  So a
    dispatcher gives an entity under the identity that it was asked for exactly when that was an
    object and the member gave its entity under the native identity.  In a graph that is keyed, over
    files in which its snapshots are, and after any calls, that is so exactly when no array stands
    for a composite at any level. -/
theorem composite_ids :
    (∀ composite : CompositeId, composite.id.value.Proper p →
      CompositeId.ofId composite.toId = .ok composite)
    ∧ (∀ v : Json, v.Proper p →
      (∀ composite, CompositeId.ofId ⟨v⟩ = .ok composite
        ↔ Composed composite.suite composite.id.value v
          ∨ v = .array [.string composite.suite, composite.id.value])
      ∧ (∀ failure, CompositeId.ofId ⟨v⟩ = .error failure →
        failure = .identity (.notComposite ⟨v⟩))
      ∧ ∀ composite, CompositeId.ofId ⟨v⟩ = .ok composite →
        (composite.toId.same ⟨v⟩ = true ↔ ∃ entries, v = .object entries))
    ∧ (∀ members owners tree stamp c (id : Id) (e : Entity c), id.value.Proper p →
      ((answer stamp (.dispatcher members owners) (.get c id)).run tree).1.1 = .ok (some e) →
      ∃ composite member found, CompositeId.ofId id = .ok composite
        ∧ Entries.get? composite.suite members = some member
        ∧ ((answer stamp member (.get c composite.id)).run tree).1.1 = .ok (some found)
        ∧ (e.id.same id = true ↔ Composed composite.suite composite.id.value id.value
          ∧ found.id.same composite.id = true))
    ∧ ∀ (trees : FileTree → Prop) (suite : Suite), suite.Keyed trees →
      ∀ tree steps, trees (backend.after (suite, tree) steps).2 →
      ∀ stamp c (id : Id) (e : Entity c), id.value.Proper p →
      (backend.answer stamp (.get c id) (backend.after (suite, tree) steps)).1 = .ok (some e) →
      (e.id.same id = true ↔ ¬ Listed id.value) := by
  refine ⟨fun composite h => CompositeId.ofId_toId_of_proper h, fun v hproper => ⟨?_, ?_, ?_⟩, ?_, ?_⟩
  · exact fun composite => CompositeId.ofId_eq_ok_iff hproper
  · exact fun failure hread => CompositeId.ofId_eq_error hread
  · exact fun composite hread => CompositeId.toId_same_iff hproper hread
  · intro members owners tree stamp c id e hproper hreply
    obtain ⟨composite, member, found, hid, hmember, hfound, rfl⟩ := member_of_get hreply
    exact ⟨composite, member, found, hid, hmember, hfound, same_compose_iff hproper hid found⟩
  · -- dispatchers may keep dispatchers, so this is by what calls preserve and not by one member
    intro trees suite hkeyed tree steps htree stamp c id e hproper hreply
    have hafter : (backend.after (suite, tree) steps).1.Keyed trees :=
      after_of_answer (fun _ h => h.run) hkeyed tree steps
    exact hafter.same_iff htree hproper hreply

/-- A dispatcher over another dispatcher over a store. -/
def nestedGraph : Suite :=
  .dispatcher [("out", .dispatcher [("in", .store Store.blank)] ⟨[("Doc", "in")], []⟩)]
    ⟨[("Doc", "out")], []⟩

/-- A document is created in the nested graph. -/
def nestedSteps : List Step := [⟨⟨"1", 10⟩, .create .node (Body.node "Doc" [])⟩]

/-- The identity that the nested graph gives to its first node. -/
def nestedId : Id := (CompositeId.mk "out" (CompositeId.mk "in" (.ofString "1")).toId).toId

/-- The first node of the nested graph. -/
def nestedNode : Node :=
  compose "out" (compose "in" ((Body.node "Doc" []).create (.ofString "1") (some 10)))

/-- The nested identity is read as it was composed, and the node comes back under it. -/
theorem composite_ids_nested :
    CompositeId.ofId nestedId = .ok ⟨"out", (CompositeId.mk "in" (.ofString "1")).toId⟩
      ∧ nestedGraph.Keyed (fun _ => True)
      ∧ (backend.answer ⟨"2", 11⟩ (.get .node nestedId)
        (backend.after (nestedGraph, .sample) nestedSteps)).1 = .ok (some nestedNode)
      ∧ nestedNode.id.same nestedId = true := by
  have hproper : nestedId.value.Proper (fun _ => True) := by
    show (Json.object _).Proper _
    exact ⟨by decide, trivial, ⟨by decide, trivial, trivial, trivial⟩, trivial⟩
  have hkeyed : nestedGraph.Keyed (fun _ => True) := by
    refine .dispatcher fun member hmember => ?_
    rw [List.mem_singleton.1 hmember]
    refine .dispatcher fun member hmember => ?_
    rw [List.mem_singleton.1 hmember]
    exact .store GraphState.keyed_empty
  have hreply : (backend.answer ⟨"2", 11⟩ (.get .node nestedId)
      (backend.after (nestedGraph, .sample) nestedSteps)).1 = .ok (some nestedNode) := rfl
  have hlisted : ¬ Listed nestedId.value := by
    rw [nestedId, CompositeId.toId, Composed.written.listed_iff, CompositeId.toId,
      Composed.written.listed_iff]
    exact CompositeId.not_listed_string "1"
  refine ⟨composite_ids.1 ⟨"out", _⟩ hproper.2.2.1, hkeyed, hreply, ?_⟩
  exact (composite_ids.2.2.2 _ nestedGraph hkeyed .sample nestedSteps trivial ⟨"2", 11⟩ .node
    nestedId nestedNode hproper hreply).2 hlisted

/-- An array of the two fields is read as a composite and is not composed again; under such an array
    the nested graph gives a node whose identity is another one. -/
theorem composite_of_array :
    CompositeId.ofId ⟨.array [.string "docs", .string "n-1"]⟩ = .ok ⟨"docs", .ofString "n-1"⟩
      ∧ (CompositeId.mk "docs" (.ofString "n-1")).toId.same
        ⟨.array [.string "docs", .string "n-1"]⟩ = false
      ∧ (backend.answer ⟨"2", 11⟩
          (.get .node ⟨.array [.string "out", .array [.string "in", .string "1"]]⟩)
          (backend.after (nestedGraph, .sample) nestedSteps)).1 = .ok (some nestedNode)
      ∧ nestedNode.id.same ⟨.array [.string "out", .array [.string "in", .string "1"]]⟩ = false :=
  ⟨rfl, rfl, rfl, rfl⟩

end Suite

end PropertyGraph
