/-
  PropertyGraph.Proofs.Routing.Stores

  Dispatchers over stores in memory.  A call changes the state of one member at most, and no file
  plays a part.  What such a dispatcher shows as a whole is made of pieces, one for each route: what
  the owner of a type stores under that type.  A search gathers what its searcher keeps of the
  pieces of some routes: with all types open of all of them, with one type named of that one, and
  then the others hold nothing that matches.
-/
import PropertyGraph.Proofs.Memory.Shared
import PropertyGraph.Proofs.Routing.Dispatching
import PropertyGraph.Proofs.Searcher.Filtering

namespace PropertyGraph.Suite

open Engine (Step)

variable {c : EntityClass} {stamp : Stamp} {tree : FileTree} {E : Evaluators}
  {stores : String → Store} {members : List (String × Suite)} {owners : Owners}
  {name type : String}

/-! ## Members in memory -/

/-- Every member is the store of its name, in some keyed state. -/
def InMemory (stores : String → Store) (members : List (String × Suite)) : Prop :=
  ∀ name suite, Entries.get? name members = some suite →
    ∃ s : GraphState, suite = .store ((stores name).withState s) ∧ s.Keyed

/-- The state that the named member has as a value. -/
def stateOf (members : List (String × Suite)) (name : String) : GraphState :=
  match Entries.get? name members with
  | some (.store ⟨_, _, .shared s⟩) => s
  | _ => .empty

/-- What the named member stores of a class, in its own order. -/
def stored (members : List (String × Suite)) (name : String) (c : EntityClass) : List (Entity c) :=
  ((stateOf members name).entities c).values

theorem stateOf_of_get? {store : Store} {s : GraphState}
    (h : Entries.get? name members = some (.store (store.withState s))) :
    stateOf members name = s := by
  rw [stateOf, h]
  rfl

/-- The member of a name is the store of that name in its state. -/
theorem InMemory.get?_eq (h : InMemory stores members) (hname : name ∈ Entries.keys members) :
    Entries.get? name members = some (.store ((stores name).withState (stateOf members name))) := by
  obtain ⟨suite, hmember⟩ := Entries.mem_keys_iff.1 hname
  obtain ⟨s, rfl, -⟩ := h name suite hmember
  rw [stateOf_of_get? hmember, hmember]

/-- A member in memory answers from its state, which is keyed. -/
theorem InMemory.run (h : InMemory stores members) {suite : Suite}
    (hmember : Entries.get? name members = some suite) :
    (stateOf members name).Keyed ∧ ∀ stamp call tree, (answer stamp suite call).run tree
      = ((((stores name).respond stamp (stateOf members name) call).1,
          .store ((stores name).withState
            ((stores name).respond stamp (stateOf members name) call).2)), tree) := by
  obtain ⟨s, rfl, hkeyed⟩ := h name suite hmember
  rw [stateOf_of_get? hmember]
  refine ⟨hkeyed, fun stamp call tree => ?_⟩
  rw [run_store, Store.run_answer_withState]

theorem InMemory.keyed (h : InMemory stores members) (name : String) :
    (stateOf members name).Keyed := by
  cases hmember : Entries.get? name members with
  | none =>
    rw [stateOf, hmember]
    exact GraphState.keyed_empty
  | some suite => exact (h.run hmember).1

/-- With another state of one member all are still in memory. -/
theorem InMemory.insert (h : InMemory stores members) {s : GraphState} (hkeyed : s.Keyed) :
    InMemory stores (Entries.insert name (.store ((stores name).withState s)) members) := by
  intro other suite hmember
  by_cases hother : other = name
  · subst hother
    rw [Entries.get?_insert_self] at hmember
    obtain rfl := Option.some.inj hmember
    exact ⟨s, rfl, hkeyed⟩
  · rw [Entries.get?_insert_of_ne hother] at hmember
    exact h other suite hmember

theorem stateOf_insert_self (store : Store) (s : GraphState) :
    stateOf (Entries.insert name (.store (store.withState s)) members) name = s :=
  stateOf_of_get? (Entries.get?_insert_self ..)

theorem stateOf_insert_of_ne {other : String} (h : other ≠ name) (suite : Suite) :
    stateOf (Entries.insert name suite members) other = stateOf members other := by
  rw [stateOf, stateOf, Entries.get?_insert_of_ne h]

/-! ## Calls to a dispatcher over stores -/

/-- All owners are among the members, which are in memory. -/
structure Held (stores : String → Store) (members : List (String × Suite)) (owners : Owners) :
    Prop where
  inMemory : InMemory stores members
  known : ∀ c type name, owners.owner? c type = some name → name ∈ Entries.keys members

/-- Another state of one member changes no name. -/
theorem Held.insert (h : Held stores members owners) {suite : Suite}
    (hmember : Entries.get? name members = some suite) {s : GraphState} (hkeyed : s.Keyed) :
    Held stores (Entries.insert name (.store ((stores name).withState s)) members) owners
      ∧ Entries.keys (Entries.insert name (.store ((stores name).withState s)) members)
        = Entries.keys members := by
  have hkeys := Entries.keys_insert_of_mem (Entries.mem_keys_iff.2 ⟨suite, hmember⟩)
    (.store ((stores name).withState s))
  refine ⟨⟨h.inMemory.insert hkeyed, ?_⟩, hkeys⟩
  rw [hkeys]
  exact h.known

/-- What a search finds that is narrowed to one type. -/
theorem Held.found (h : Held stores members owners) (hE : E.Blind)
    (hstores : ∀ name, (stores name).evaluators = E)
    (howner : owners.owner? c type = some name) (r : Searcher) :
    found stamp members tree c ⟨name, .all [.typeEq type, r]⟩
      = r.filter (E.forClass c)
        (((stored members name c).filter fun e => e.type == type).map (compose name)) := by
  obtain ⟨suite, hmember⟩ := Entries.mem_keys_iff.1 (h.known c type name howner)
  obtain ⟨-, hrun⟩ := h.inMemory.run hmember
  rw [Suite.found, run_answerIn_of_some hmember, hrun]
  show Except.map (List.map (compose name)) (Searcher.filter _ _ (stored members name c)) = _
  rw [Searcher.filter_typed, hstores name]
  exact (Searcher.filter_withId (hE c) r _ _).symm

/-- A search leaves all files as they are. -/
theorem Held.quiet (h : Held stores members owners) (howner : owners.owner? c type = some name)
    (s : Searcher) : ((answerIn stamp members name (.search c s)).run tree).2 = tree := by
  obtain ⟨suite, hmember⟩ := Entries.mem_keys_iff.1 (h.known c type name howner)
  obtain ⟨-, hrun⟩ := h.inMemory.run hmember
  rw [run_answerIn_of_some hmember, hrun]

/-- The searches of a divided search go to owners of their types. -/
theorem owner?_of_divide {s : Searcher} {tasks : List PartialSearch}
    (hnodup : (Entries.keys (owners.table c)).Nodup) (h : divide owners c s = .ok tasks)
    {task : PartialSearch} (htask : task ∈ tasks) :
    ∃ type r, task.searcher = .all [.typeEq type, r]
      ∧ owners.owner? c type = some task.suite := by
  rw [divide] at h
  cases hpaths : s.checkPaths with
  | error failure => rw [hpaths] at h; cases h
  | ok u =>
    cases hplan : s.plan with
    | error failure => rw [hpaths, hplan] at h; cases h
    | ok plan =>
      rw [hpaths, hplan] at h
      cases plan with
      | everyType whole =>
        obtain rfl := Except.ok.inj h
        obtain ⟨route, hroute, rfl⟩ := List.mem_map.1 htask
        exact ⟨route.1, whole, rfl, Entries.get?_of_mem hnodup hroute⟩
      | byType residuals =>
        obtain rfl := Except.ok.inj h
        obtain ⟨residual, -, howner⟩ := List.mem_filterMap.1 htask
        obtain ⟨name, hname, rfl⟩ := Option.map_eq_some_iff.1 howner
        exact ⟨residual.1, residual.2, rfl, hname⟩

/-- A search, or a list of types, leaves a dispatcher as it is. -/
theorem Held.still (h : Held stores members owners)
    (hnodup : ∀ c, (Entries.keys (owners.table c)).Nodup) {call : Call} (hlooks : ¬ Single call)
    (stamp : Stamp) (tree : FileTree) :
    ∃ outcome, (Suite.answer stamp (.dispatcher members owners) call).run tree
      = ((outcome, .dispatcher members owners), tree) := by
  cases call with
  | search c s =>
    cases hdivide : divide owners c s with
    | error failure => exact ⟨_, run_search_of_error hdivide⟩
    | ok tasks =>
      refine ⟨_, run_search hdivide fun task htask => ?_⟩
      obtain ⟨type, r, -, howner⟩ := owner?_of_divide (hnodup c) hdivide htask
      exact h.quiet howner task.searcher
  | types c => exact ⟨_, run_types c⟩
  | _ => exact absurd trivial hlooks

/-- Every call leaves a dispatcher over stores, under the same names and with the same owners. -/
theorem Held.answer (h : Held stores members owners)
    (hnodup : ∀ c, (Entries.keys (owners.table c)).Nodup) (stamp : Stamp) (call : Call)
    (tree : FileTree) :
    ∃ outcome members', (Suite.answer stamp (.dispatcher members owners) call).run tree
        = ((outcome, .dispatcher members' owners), tree)
      ∧ Held stores members' owners ∧ Entries.keys members' = Entries.keys members := by
  by_cases hsingle : Single call
  · rcases dispatch_cases h.known hsingle with ⟨failure, -, hrun⟩
      | ⟨name, suite, inner, wrap, hforwards, hmember⟩
    · exact ⟨_, _, hrun stamp tree, h, rfl⟩
    · obtain ⟨hkeyed, hrun⟩ := h.inMemory.run hmember
      have hheld := h.insert hmember ((stores name).keyed_respond hkeyed stamp inner)
      exact ⟨_, _, by rw [run_of_forwards hforwards hmember, hrun], hheld⟩
  · obtain ⟨outcome, hrun⟩ := h.still hnodup hsingle stamp tree
    exact ⟨outcome, members, hrun, h, rfl⟩

/-- A run of calls leaves a dispatcher over stores, under the same names and with the same
    owners. -/
theorem Held.after (h : Held stores members owners)
    (hnodup : ∀ c, (Entries.keys (owners.table c)).Nodup) (tree : FileTree) (steps : List Step) :
    ∃ members', backend.after (.dispatcher members owners, tree) steps
        = (.dispatcher members' owners, tree)
      ∧ Held stores members' owners ∧ Entries.keys members' = Entries.keys members := by
  induction steps using List.reverseRecOn with
  | nil => exact ⟨members, rfl, h, rfl⟩
  | append_singleton steps step ih =>
    obtain ⟨between, hafter, hheld, hkeys⟩ := ih
    obtain ⟨outcome, members', hrun, hheld', hkeys'⟩ :=
      hheld.answer hnodup step.stamp step.call tree
    refine ⟨members', ?_, hheld', hkeys'.trans hkeys⟩
    rw [Backend.after_append, hafter, Backend.advance, backend]
    simp only [hrun]

/-! ## The whole, type by type -/

/-- What the member of a route stores under the type of the route, as the dispatcher shows it. -/
def piece (members : List (String × Suite)) (c : EntityClass) (route : String × String) :
    List (Entity c) :=
  ((stored members route.2 c).filter fun e => e.type == route.1).map (compose route.2)

theorem mem_piece {route : String × String} {e : Entity c} :
    e ∈ piece members c route
      ↔ ∃ x ∈ stored members route.2 c, x.type = route.1 ∧ e = compose route.2 x := by
  simp only [piece, List.mem_map, List.mem_filter, beq_iff_eq]
  constructor
  · rintro ⟨x, ⟨hx, htype⟩, rfl⟩
    exact ⟨x, hx, htype, rfl⟩
  · rintro ⟨x, hx, htype, rfl⟩
    exact ⟨x, ⟨hx, htype⟩, rfl⟩

theorem type_of_mem_piece {route : String × String} {e : Entity c}
    (h : e ∈ piece members c route) : e.type = route.1 := by
  obtain ⟨x, -, htype, rfl⟩ := mem_piece.1 h
  exact htype

/-- Of the pieces of distinct types, only the piece of a type holds entities of that type. -/
theorem filter_pieces {table : Entries String} (hnodup : (Entries.keys table).Nodup)
    (type : String) :
    (table.flatMap (piece members c)).filter (fun e => e.type == type)
      = match table.get? type with
        | some name => piece members c (type, name)
        | none => [] := by
  induction table with
  | nil => rfl
  | cons route rest ih =>
    obtain ⟨type', name⟩ := route
    obtain ⟨hfresh, hrest⟩ := List.nodup_cons.1 hnodup
    rw [List.flatMap_cons, List.filter_append, ih hrest, Entries.get?]
    by_cases htype : type' = type
    · subst htype
      have hnone : Entries.get? type' rest = none := Entries.get?_eq_none_iff.2 hfresh
      have hall : (piece members c (type', name)).filter (fun e => e.type == type')
          = piece members c (type', name) :=
        List.filter_eq_self.2 fun e he => beq_iff_eq.2 (type_of_mem_piece he)
      rw [if_pos rfl, hnone, hall, List.append_nil]
    · have hnothing : (piece members c (type', name)).filter (fun e => e.type == type) = [] := by
        refine List.filter_eq_nil_iff.2 fun e he => ?_
        rw [type_of_mem_piece he, beq_iff_eq]
        exact htype
      rw [if_neg htype, hnothing, List.nil_append]

/-- No identity is in the pieces twice. -/
theorem nodup_pieces (h : InMemory stores members) {table : Entries String}
    (hnodup : (Entries.keys table).Nodup) :
    ((table.flatMap (piece members c)).map Entity.id).Nodup := by
  rw [List.map_flatMap, List.nodup_flatMap]
  constructor
  · rintro ⟨type, name⟩ -
    -- within one member, composing keeps identities apart
    have hids := (h.keyed name).nodup_ids c
    rw [piece, List.map_map]
    have hcompose : ∀ e : Entity c, (Entity.id ∘ compose name) e = (CompositeId.mk name e.id).toId :=
      fun _ => rfl
    rw [List.map_congr_left fun e _ => hcompose e]
    rw [show (fun e : Entity c => (CompositeId.mk name e.id).toId)
      = (fun id => (CompositeId.mk name id).toId) ∘ Entity.id from rfl, ← List.map_map]
    refine List.Nodup.map (fun id id' hsame => ?_) (hids.sublist ((List.filter_sublist ..).map _))
    exact (CompositeId.mk.inj (CompositeId.toId_inj hsame)).2
  · -- entities of one identity are one entity of one member, so of one type
    refine (List.pairwise_map.1 hnodup).imp ?_
    rintro ⟨type, name⟩ ⟨type', name'⟩ htypes
    show List.Disjoint _ _
    rw [List.disjoint_left]
    intro id hid hid'
    obtain ⟨e, he, rfl⟩ := List.mem_map.1 hid
    obtain ⟨e', he', hsame⟩ := List.mem_map.1 hid'
    obtain ⟨x, hx, htype, rfl⟩ := mem_piece.1 he
    obtain ⟨x', hx', htype', rfl⟩ := mem_piece.1 he'
    obtain ⟨rfl, hids⟩ := CompositeId.mk.inj (CompositeId.toId_inj hsame)
    obtain rfl := (h.keyed name').eq_of_id hx' hx hids
    exact htypes (htype.symm.trans htype')

/-! ## Searches -/

/-- With all types open a search goes to the owners of all types. -/
theorem divide_of_everyType (owners : Owners) (c : EntityClass) {s : Searcher}
    (hpaths : s.checkPaths = .ok ())
    (hplan : s.plan = .ok (.everyType s)) :
    divide owners c s
      = .ok ((owners.table c).map fun route => ⟨route.2, .all [.typeEq route.1, s]⟩) := by
  rw [divide, hpaths, hplan]
  rfl

/-- With one type named a search goes to the owner of that type, if it has one. -/
theorem divide_of_byType (owners : Owners) (c : EntityClass) {s r : Searcher}
    (hpaths : s.checkPaths = .ok ())
    (hplan : s.plan = .ok (.byType [(type, r)])) :
    divide owners c s = .ok (match owners.owner? c type with
      | some name => [⟨name, .all [.typeEq type, r]⟩]
      | none => []) := by
  rw [divide, hpaths, hplan]
  show Except.ok (List.filterMap _ [(type, r)]) = _
  cases howner : owners.owner? c type <;> simp [howner]

/-- A searcher that stands for another one in the piece of a route finds there what the other one
    keeps. -/
theorem Held.found_of_test (h : Held stores members owners) (hE : E.Blind)
    (hstores : ∀ name, (stores name).evaluators = E) (stamp : Stamp) (tree : FileTree)
    {route : String × String} (howner : owners.owner? c route.1 = some route.2) {s r : Searcher}
    (hs : s.checkPaths = .ok ()) (hr : r.checkPaths = .ok ())
    (htest : ∀ e : Entity c, e.type = route.1 →
      r.test (E.forClass c) e = s.test (E.forClass c) e) :
    Suite.found stamp members tree c ⟨route.2, .all [.typeEq route.1, r]⟩
      = s.filter (E.forClass c) (piece members c route) := by
  rw [h.found hE hstores howner]
  exact Searcher.filter_eq_filter hs hr fun e he => htest e (type_of_mem_piece he)

/-- A search gathers what the searcher keeps of the pieces of some routes, and keeps nothing of the
    pieces of the others. -/
def SearchesPieces (members : List (String × Suite)) (owners : Owners) (E : Evaluators)
    (stamp : Stamp) (tree : FileTree) (c : EntityClass) (s : Searcher) : Prop :=
  ∃ routes, List.Sublist routes (owners.table c)
    ∧ (Suite.answer stamp (.dispatcher members owners) (.search c s)).run tree
      = ((gather (routes.map fun route =>
            (namedPrompt members route.2, s.filter (E.forClass c) (piece members c route))),
          .dispatcher members owners), tree)
    ∧ (routes.flatMap (piece members c)).filter (s.keeps (E.forClass c))
      = ((owners.table c).flatMap (piece members c)).filter (s.keeps (E.forClass c))

section Pieces

variable (h : Held stores members owners) (hE : E.Blind)
  (hstores : ∀ name, (stores name).evaluators = E)
  (hnodup : (Entries.keys (owners.table c)).Nodup) {s : Searcher} (hpaths : s.checkPaths = .ok ())
  (stamp : Stamp) (tree : FileTree)

/-- With no type left open a search goes nowhere. -/
theorem searchesPieces_of_no_owner (hdivide : divide owners c s = .ok [])
    (hnothing : ((owners.table c).flatMap (piece members c)).filter (s.keeps (E.forClass c)) = []) :
    SearchesPieces members owners E stamp tree c s :=
  ⟨[], List.nil_sublist _, run_search hdivide fun _ htask => absurd htask List.not_mem_nil,
    hnothing.symm⟩

include h hE hstores hnodup hpaths

/-- With all types open a search goes to the pieces of all routes. -/
theorem Held.search_everyType (hplan : s.plan = .ok (.everyType s)) :
    SearchesPieces members owners E stamp tree c s := by
  have hdivide := divide_of_everyType owners c hpaths hplan
  refine ⟨owners.table c, List.Sublist.refl _, ?_, rfl⟩
  rw [run_search hdivide fun task htask => ?quiet, List.map_map]
  case quiet =>
    obtain ⟨type, r, -, howner⟩ := owner?_of_divide hnodup hdivide htask
    exact h.quiet howner task.searcher
  rw [List.map_congr_left fun route hroute => ?parts]
  case parts =>
    have howner : owners.owner? c route.1 = some route.2 := Entries.get?_of_mem hnodup hroute
    exact Prod.ext rfl (h.found_of_test hE hstores stamp tree howner hpaths hpaths fun _ _ => rfl)

/-- With one type named a search goes to the piece of that type, if it has an owner. -/
theorem Held.search_byType {r : Searcher} (hplan : s.plan = .ok (.byType [(type, r)]))
    (hr : r.checkPaths = .ok ())
    (htest : ∀ e : Entity c, e.type = type → r.test (E.forClass c) e = s.test (E.forClass c) e)
    (htyped : ∀ e : Entity c, e.type ≠ type → s.keeps (E.forClass c) e ≠ true) :
    SearchesPieces members owners E stamp tree c s := by
  -- whatever is kept is of the type that the plan names
  have hkept : ((owners.table c).flatMap (piece members c)).filter (s.keeps (E.forClass c))
      = (((owners.table c).flatMap (piece members c)).filter fun e => e.type == type).filter
        (s.keeps (E.forClass c)) := by
    rw [List.filter_filter]
    refine List.filter_congr fun e _ => ?_
    by_cases htype : e.type = type
    · simp [htype]
    · simp [htyped e htype]
  have hdivide := divide_of_byType owners c hpaths hplan
  cases howner : owners.owner? c type with
  | none =>
    rw [howner] at hdivide
    refine searchesPieces_of_no_owner stamp tree hdivide ?_
    rw [hkept, filter_pieces hnodup, show Entries.get? type (owners.table c) = none from howner]
    rfl
  | some name =>
    rw [howner] at hdivide
    refine ⟨[(type, name)], List.singleton_sublist.2 (Entries.mem_of_get? howner), ?_, ?_⟩
    · rw [run_search hdivide fun task htask => ?quiet, List.map_singleton, List.map_singleton]
      case quiet =>
        rw [List.mem_singleton.1 htask]
        exact h.quiet howner _
      have hroute : owners.owner? c (type, name).1 = some (type, name).2 := howner
      rw [h.found_of_test hE hstores stamp tree hroute hpaths hr htest]
    · rw [hkept, filter_pieces hnodup,
        show Entries.get? type (owners.table c) = some name from howner]
      simp

/-- Every search with paths that can be read gathers what it keeps of pieces. -/
theorem Held.search_pieces : SearchesPieces members owners E stamp tree c s := by
  obtain ⟨plan, hplan, hkeepsPaths⟩ := Searcher.plan_keepsPaths s
  have hfaithful := Searcher.plan_faithful hpaths (E.forClass c) hplan
  cases plan with
  | everyType whole =>
    obtain rfl : whole = s := hfaithful
    exact h.search_everyType hE hstores hnodup hpaths stamp tree hplan
  | byType residuals =>
    have htyped : ∀ e : Entity c, residuals.get? e.type = none →
        s.keeps (E.forClass c) e ≠ true := fun e hnone hkeeps =>
      (hfaithful.1 e).2 hnone (Searcher.keeps_eq_true.1 hkeeps)
    match residuals, Searcher.length_residuals s hplan with
    | [], _ =>
      have hdivide : divide owners c s = .ok [] := by
        rw [divide, hpaths, hplan]
        rfl
      exact searchesPieces_of_no_owner stamp tree hdivide
        (List.filter_eq_nil_iff.2 fun e _ => htyped e rfl)
    | [(type, r)], _ =>
      refine h.search_byType hE hstores hnodup hpaths stamp tree hplan
        (Searcher.checkPaths_residual hpaths (hkeepsPaths type r (by simp [Entries.get?])))
        (fun e htype => (hfaithful.1 e).1 r (by simp [Entries.get?, htype])) fun e htype => ?_
      exact htyped e (by simp [Entries.get?, Ne.symm htype])

end Pieces

/-- Where a searcher can filter the pieces of all routes, a search finds what it keeps of them. -/
theorem Held.run_search (h : Held stores members owners) (hE : E.Blind)
    (hstores : ∀ name, (stores name).evaluators = E)
    (hnodup : (Entries.keys (owners.table c)).Nodup) {s : Searcher} {kept : List (Entity c)}
    (hkept : s.filter (E.forClass c) ((owners.table c).flatMap (piece members c)) = .ok kept) :
    (Suite.answer stamp (.dispatcher members owners) (.search c s)).run tree
      = ((.ok kept, .dispatcher members owners), tree) := by
  obtain ⟨hpaths, hall, rfl⟩ := Searcher.filter_eq_ok_iff.1 hkept
  obtain ⟨routes, hsub, hrun, hsame⟩ := h.search_pieces hE hstores hnodup hpaths stamp tree
  have hpieces : ∀ route ∈ routes, s.filter (E.forClass c) (piece members c route)
      = .ok ((piece members c route).filter (s.keeps (E.forClass c))) := by
    intro route hroute
    refine Searcher.filter_eq_ok_iff.2 ⟨hpaths, fun e he => hall e ?_, rfl⟩
    exact List.mem_flatMap.2 ⟨route, hsub.subset hroute, he⟩
  rw [hrun, ← hsame, List.filter_flatMap,
    List.map_congr_left fun route hroute => congrArg (Prod.mk _) (hpieces route hroute)]
  rw [gather_of_ok (fun route : String × String => namedPrompt members route.2)
    fun route => (piece members c route).filter (s.keeps (E.forClass c))]
  rfl

/-! ## A sample -/

/-- Two stores, one for people and one for documents. -/
def sampleRegistrations : List Registration :=
  [⟨"people", .store .blank, ["Person", "Team"], ["Knows"]⟩,
    ⟨"docs", .store .blank, ["Doc"], ["Cites"]⟩]

/-- The owners that the two stores make. -/
def sampleOwners : Owners where
  nodes := [("Person", "people"), ("Team", "people"), ("Doc", "docs")]
  relationships := [("Knows", "people"), ("Cites", "docs")]

theorem build_sampleRegistrations : (Assembly.ofList sampleRegistrations).dispatcher
    = .ok (.dispatcher (Registration.members sampleRegistrations) sampleOwners) := by
  rfl

end PropertyGraph.Suite
