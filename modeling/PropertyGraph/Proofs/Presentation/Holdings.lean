/-
  PropertyGraph.Proofs.Presentation.Holdings

  What a graph in memory holds under a type.  A store and a dispatcher over stores are seen alike:
  as lists of entities, one for each class and type.  A search for a type keeps some of its list; a
  lookup finds what stands in a list; a creation puts an entity at the end of one; and a call leaves
  a list as it is unless the call touches the type.
-/
import PropertyGraph.Proofs.Presentation.Lookup
import PropertyGraph.Proofs.Routing.Exactness
import PropertyGraph.Proofs.Routing.Members

namespace PropertyGraph

open Engine (Step)

variable {c c' : EntityClass} {s : GraphState} {kept : Store} {stamp : Stamp} {tree : FileTree}
  {call : Call} {used : List String} {type : String}

/-! ## Types that a call touches -/

/-- What a call may add to or take from: an entity of a type is created, or one that a lookup finds
    is removed or changed, and has the type before or after. -/
def Call.Touches (lookup : (c : EntityClass) → Id → Outcome (Option (Entity c))) (call : Call)
    (c : EntityClass) (type : String) : Prop :=
  match call with
  | .create c' body => c' = c ∧ body.type = type
  | .edit c' id patch => c' = c ∧ ∃ e, lookup c' id = .ok (some e)
      ∧ (e.type = type ∨ patch.type = some type)
  | .remove c' id => c' = c ∧ ∃ e, lookup c' id = .ok (some e) ∧ e.type = type
  | _ => False

/-! ## States -/

namespace GraphState

/-- The entities of a class and a type. -/
def ofType (s : GraphState) (c : EntityClass) (type : String) : List (Entity c) :=
  (s.entities c).values.filter fun e => e.type == type

theorem ofType_withEntities_of_ne (s : GraphState) (h : c' ≠ c) (es : Entries (Entity c))
    (type : String) : (s.withEntities c es).ofType c' type = s.ofType c' type := by
  rw [ofType, entities_withEntities_of_ne s h, ofType]

/-- A new entity comes at the end of the list of its type, and in no other one. -/
theorem ofType_insert_new {key : String} (hfresh : s.get c key = none) (e : Entity c)
    (type : String) :
    (s.insert key e).ofType c type = s.ofType c type ++ if e.type = type then [e] else [] := by
  rw [ofType, insert, entities_withEntities,
    Entries.insert_of_not_mem (Entries.get?_eq_none_iff.1 hfresh), Entries.values, List.map_append,
    List.filter_append]
  by_cases htype : e.type = type <;> simp [ofType, Entries.values, htype]

/-- A change of an entity leaves the lists of all types but those that it has before and after. -/
theorem ofType_insert_of_get {key : String} {old new : Entity c} (hget : s.get c key = some old)
    (hold : old.type ≠ type) (hnew : new.type ≠ type) :
    (s.insert key new).ofType c type = s.ofType c type := by
  rw [ofType, insert, entities_withEntities]
  exact Entries.filter_values_insert hget (by simpa using hold) (by simpa using hnew)

/-- A removal leaves the lists of all other types. -/
theorem ofType_erase {key : String} {old : Entity c} (hget : s.get c key = some old)
    (hold : old.type ≠ type) :
    (s.withEntities c (Entries.erase key (s.entities c))).ofType c type = s.ofType c type := by
  rw [ofType, entities_withEntities]
  exact Entries.filter_values_erase hget (by simpa using hold)

/-- What stands in a list stands under the key that it is known by. -/
theorem Keyed.exists_key (h : s.Keyed) {e : Entity c} (he : e ∈ s.ofType c type) :
    ∃ key, e.id = .ofString key ∧ s.get c key = some e := by
  obtain ⟨key, hget⟩ := h.mem_values_iff.1 (List.mem_filter.1 he).1
  exact ⟨key, h.id_of_get hget, hget⟩

theorem Keyed.same_iff (h : s.Keyed) {e e' : Entity c} (he : e ∈ s.ofType c type)
    (he' : e' ∈ s.ofType c type) : e.id.same e'.id = true ↔ e = e' := by
  obtain ⟨key, hid, -⟩ := h.exists_key he
  obtain ⟨key', hid', -⟩ := h.exists_key he'
  rw [hid', Catalog.same_iff ⟨key, hid⟩, ← hid']
  exact ⟨h.eq_of_id (List.mem_filter.1 he).1 (List.mem_filter.1 he').1, congrArg Entity.id⟩

end GraphState

/-- What is changed has the type that it had, or the one that the patch gives. -/
theorem Patch.type_of_apply {patch : Patch c} {old : Entity c} {time : Int}
    (h : (patch.apply old time).type = type) : old.type = type ∨ patch.type = some type := by
  cases hpatch : patch.type with
  | none => exact .inl (by simpa [Patch.apply, hpatch] using h)
  | some new =>
    obtain rfl : new = type := by simpa [Patch.apply, hpatch] using h
    exact .inr rfl

namespace Store

/-- A call leaves the entities of all types that it does not touch. -/
theorem ofType_respond (hused : kept.KeysFrom used s)
    (hfresh : ∀ unique ∈ Step.given ⟨stamp, call⟩, unique ∉ used)
    (h : ¬ call.Touches (fun c id => (kept.respond stamp s (.get c id)).1) c type) :
    (kept.respond stamp s call).2.ofType c type = s.ofType c type := by
  have hfound {c'' : EntityClass} {key : String} {e : Entity c''} (hget : s.get c'' key = some e) :
      (kept.respond stamp s (.get c'' (.ofString key))).1 = .ok (some e) :=
    congrArg Except.ok hget
  cases call with
  | get _ id => rfl
  | search _ q => rfl
  | types _ => rfl
  | create c'' body =>
    -- the other class is left alone; of this one the new entity has another type
    by_cases hclass : c = c''
    · subst hclass
      have hnew := hused.fresh (c := c) (hfresh _ (List.mem_singleton.2 rfl))
      have htype : body.type ≠ type := fun heq => h ⟨rfl, heq⟩
      exact (GraphState.ofType_insert_new hnew _ type).trans (by simp [Body.create, htype])
    · exact s.ofType_withEntities_of_ne hclass _ type
  | edit c'' id patch =>
    obtain ⟨f, hrefused⟩ | ⟨key, old, rfl, hget, hchanged⟩ :=
      Suite.respond_edit kept stamp s id patch
    · rw [hrefused]
    rw [hchanged]
    by_cases hclass : c = c''
    · subst hclass
      have htypes : ¬ (old.type = type ∨ patch.type = some type) := fun heq =>
        h ⟨rfl, old, hfound hget, heq⟩
      exact GraphState.ofType_insert_of_get hget (fun heq => htypes (.inl heq))
        fun heq => htypes (Patch.type_of_apply heq)
    · exact s.ofType_withEntities_of_ne hclass _ type
  | remove c'' id =>
    obtain ⟨f, hrefused⟩ | ⟨key, old, rfl, hget, hremoved⟩ :=
      Suite.respond_remove kept stamp s id c''
    · rw [hrefused]
    rw [hremoved]
    by_cases hclass : c = c''
    · subst hclass
      exact GraphState.ofType_erase hget fun heq => h ⟨rfl, old, hfound hget, heq⟩
    · exact s.ofType_withEntities_of_ne hclass _ type

end Store

/-! ## Searches for one type -/

namespace Searcher

/-- A searcher selects from the entities of a type those that pass, whatever extensions but
    adjacency mean. -/
structure Selects (q : Searcher) (type : String) (passes : Entity c → Bool) : Prop where
  paths : q.checkPaths = .ok ()
  plan : ∃ r, q.plan = .ok (.byType [(type, r)])
  test : ∀ kept : Store, kept.KnowsAdjacency → ∀ e : Entity c,
    q.test (kept.evaluators.forClass c) e = .ok (e.type == type && passes e)
  composed : ∀ name e, passes (Suite.compose name e) = passes e

variable {q r : Searcher} {passes : Entity c → Bool}

/-- To search for a type alone is to select all entities of the type. -/
theorem selects_typeEq (type : String) : (typeEq type).Selects type fun _ : Entity c => true where
  paths := rfl
  plan := ⟨.always, rfl⟩
  test kept hadjacency e := by
    rw [Bool.and_true]
    rfl
  composed _ _ := rfl

/-- To search for a type and something more is to select what passes. -/
theorem Selects.of_typed (hpaths : q.checkPaths = .ok ()) (hplan : q.plan = .ok (.everyType q))
    (htest : ∀ kept : Store, kept.KnowsAdjacency → ∀ e : Entity c,
      q.test (kept.evaluators.forClass c) e = .ok (passes e))
    (hcomposed : ∀ name e, passes (Suite.compose name e) = passes e) :
    (Searcher.all [.typeEq type, q]).Selects type passes where
  paths := checkPaths_residual hpaths fun p => by simp [Searcher.paths, pathsAll]
  plan := ⟨_, plan_typed type hplan⟩
  test kept hadjacency e := by
    rw [test_typed _ type hpaths, htest kept hadjacency]
    cases e.type == type <;> rfl
  composed := hcomposed

namespace Selects

variable (h : q.Selects type passes) (hadjacency : kept.KnowsAdjacency)

include h hadjacency

theorem filter (es : List (Entity c)) : q.filter (kept.evaluators.forClass c) es
    = .ok ((es.filter fun e => e.type == type).filter passes) := by
  rw [filter_eq_ok_of_test h.paths (h.test kept hadjacency), List.filter_filter]
  congr 1
  exact List.filter_congr fun e _ => Bool.and_comm ..

/-- What the plan leaves to check selects as much from the entities of the type. -/
theorem filter_residual (hplan : q.plan = .ok (.byType [(type, r)])) (es : List (Entity c)) :
    r.filter (kept.evaluators.forClass c) (es.filter fun e => e.type == type)
      = .ok ((es.filter fun e => e.type == type).filter passes) := by
  obtain ⟨plan, hplan', hkeepsPaths⟩ := plan_keepsPaths q
  obtain rfl := Except.ok.inj (hplan.symm.trans hplan')
  have hr := checkPaths_residual h.paths (hkeepsPaths type r (by simp [Entries.get?]))
  have hfaithful := plan_faithful h.paths (kept.evaluators.forClass c) hplan
  rw [filter_eq_filter h.paths hr fun e he => ?_, h.filter hadjacency, List.filter_filter]
  · simp
  · have htype : e.type = type := by simpa using (List.mem_filter.1 he).2
    exact (hfaithful.1 e).1 r (by simp [Entries.get?, htype])

end Selects

end Searcher

/-! ## Suites -/

namespace Suite

variable {suite suite' : Suite} {stores : String → Store} {members : List (String × Suite)}
  {owners : Owners} {name : String}

/-- What a suite holds of a class under a type, as it shows it. -/
def under (suite : Suite) (c : EntityClass) (type : String) : List (Entity c) :=
  match suite with
  | .store ⟨_, _, .shared s⟩ => s.ofType c type
  | .dispatcher members owners =>
    match owners.owner? c type with
    | some name => piece members c (type, name)
    | none => []
  | _ => []

/-- A suite takes entities of a type: a dispatcher those of a type that has an owner. -/
def Takes (suite : Suite) (c : EntityClass) (type : String) : Prop :=
  match suite with
  | .dispatcher _ owners => ∃ name, owners.owner? c type = some name
  | _ => True

/-- What a lookup comes to. -/
def lookup (stamp : Stamp) (state : Suite × FileTree) (c : EntityClass) (id : Id) :
    Outcome (Option (Entity c)) :=
  (backend.answer stamp (.get c id) state).1

/-- A store in memory or a dispatcher over such stores in good order, `used` being the unique texts
    that keys were made from, where adjacency means what it means to all. -/
inductive InOrder (used : List String) : Suite → Prop
  | store {kept : Store} {s : GraphState} : kept.KnowsAdjacency → s.Keyed → kept.KeysFrom used s →
    InOrder used (.store (kept.withState s))
  | dispatcher {stores : String → Store} {members : List (String × Suite)} {owners : Owners} :
    (∀ name, (stores name).KnowsAdjacency) → Held stores members owners →
    (∀ c, (Entries.keys (owners.table c)).Nodup) →
    (∀ name, (stores name).KeysFrom used (stateOf members name)) →
    InOrder used (.dispatcher members owners)

theorem under_of_owner (howner : owners.owner? c type = some name) :
    (dispatcher members owners).under c type
      = ((stateOf members name).ofType c type).map (compose name) := by
  rw [under, howner]
  rfl

theorem exists_of_under {e : Entity c} (he : e ∈ (dispatcher members owners).under c type) :
    ∃ name x, owners.owner? c type = some name ∧ x ∈ (stateOf members name).ofType c type
      ∧ e = compose name x := by
  cases howner : owners.owner? c type with
  | none =>
    rw [under, howner] at he
    cases he
  | some name =>
    rw [under_of_owner howner] at he
    obtain ⟨x, hx, rfl⟩ := List.mem_map.1 he
    exact ⟨name, x, rfl, hx, rfl⟩

/-- What a suite holds under a type is of that type. -/
theorem type_of_mem_under {e : Entity c} (he : e ∈ suite.under c type) : e.type = type := by
  have hstate {s : GraphState} {x : Entity c} (hx : x ∈ s.ofType c type) : x.type = type := by
    simpa using (List.mem_filter.1 hx).2
  match suite, he with
  | .store ⟨_, _, .shared _⟩, he => exact hstate he
  | .dispatcher _ _, he =>
    obtain ⟨name, x, -, hx, rfl⟩ := exists_of_under he
    exact (compose_type name x).trans (hstate hx)

theorem InOrder.mono (h : suite.InOrder used) {used' : List String} (hsub : used ⊆ used') :
    suite.InOrder used' := by
  cases h with
  | store hadjacency hkeyed hused => exact .store hadjacency hkeyed (hused.mono hsub)
  | dispatcher hadjacency hheld hnodup hused =>
    exact .dispatcher hadjacency hheld hnodup fun name => (hused name).mono hsub

/-! ### Calls -/

/-- A suite goes on with all that it held under types that a call does not touch. -/
structure GoesOn (used : List String) (suite : Suite) (tree : FileTree) (step : Step)
    (suite' : Suite) : Prop where
  inOrder : suite'.InOrder (used ++ step.given)
  takes : ∀ c type, suite.Takes c type → suite'.Takes c type
  spares : ∀ c type, ¬ step.call.Touches (lookup step.stamp (suite, tree)) c type →
    suite'.under c type = suite.under c type

/-- A creation leaves all types but its own. -/
theorem GoesOn.under_of_create {body : Body c}
    (h : GoesOn used suite tree ⟨stamp, .create c body⟩ suite')
    (hother : c = c' → body.type ≠ type) : suite'.under c' type = suite.under c' type :=
  h.spares c' type fun ⟨hclass, htype⟩ => hother hclass htype

theorem InOrder.goesOn (h : suite.InOrder used) (tree : FileTree) (step : Step) :
    GoesOn used suite tree step suite where
  inOrder := h.mono (List.subset_append_left ..)
  takes _ _ htakes := htakes
  spares _ _ _ := rfl

section Forwarded

variable {inner : Call} {wrap : Outcome inner.Reply → Outcome call.Reply}
  (hforwards : Forwards owners name call inner wrap)

include hforwards

theorem Forwards.given : Step.given ⟨stamp, inner⟩ = Step.given ⟨stamp, call⟩ := by
  cases hforwards <;> rfl

/-- What a forwarded call touches in the member, the call touches in the dispatcher. -/
theorem Forwards.touches (h : Held stores members owners)
    (hmember : Entries.get? name members = some suite)
    (htouches : inner.Touches
      (fun c id => ((stores name).respond stamp (stateOf members name) (.get c id)).1) c type) :
    call.Touches (lookup stamp (.dispatcher members owners, tree)) c type := by
  obtain ⟨-, hrun⟩ := h.inMemory.run hmember
  -- what the member finds under a native identity is found here under the composite
  have hlookup {c : EntityClass} {id : Id} {composite : CompositeId} {e : Entity c}
      (hid : CompositeId.ofId id = .ok composite) (hname : composite.suite = name)
      (he : ((stores name).respond stamp (stateOf members name) (.get c composite.id)).1
        = .ok (some e)) :
      lookup stamp (.dispatcher members owners, tree) c id = .ok (some (compose name e)) := by
    subst hname
    rw [lookup, backend]
    simp only [run_of_forwards (.get hid) hmember, hrun, he]
    rfl
  cases hforwards with
  | get hid => exact htouches
  | create howner => exact htouches
  | edit hid hstays =>
    obtain ⟨rfl, e, he, htype⟩ := htouches
    exact ⟨rfl, compose _ e, hlookup hid rfl he, htype⟩
  | remove hid =>
    obtain ⟨rfl, e, he, htype⟩ := htouches
    exact ⟨rfl, compose _ e, hlookup hid rfl he, htype⟩

/-- A dispatcher goes on when it has forwarded a call, and one member has answered. -/
theorem Forwards.goesOn (hadjacency : ∀ name, (stores name).KnowsAdjacency)
    (h : Held stores members owners) (hnodup : ∀ c, (Entries.keys (owners.table c)).Nodup)
    (hused : ∀ name, (stores name).KeysFrom used (stateOf members name))
    (hmember : Entries.get? name members = some suite)
    (hfresh : ∀ unique ∈ Step.given ⟨stamp, call⟩, unique ∉ used) (tree : FileTree) :
    GoesOn used (.dispatcher members owners) tree ⟨stamp, call⟩ (.dispatcher (Entries.insert name
      (.store ((stores name).withState
        ((stores name).respond stamp (stateOf members name) inner).2)) members) owners) := by
  have hkeyed := h.inMemory.keyed name
  have hgiven : Step.given ⟨stamp, inner⟩ = Step.given ⟨stamp, call⟩ := hforwards.given
  obtain ⟨hheld, -⟩ := h.insert hmember ((stores name).keyed_respond hkeyed stamp inner)
  refine ⟨.dispatcher hadjacency hheld hnodup fun other => ?_, fun _ _ htakes => htakes,
    fun c type htouches => ?_⟩
  · by_cases hother : other = name
    · subst hother
      rw [stateOf_insert_self, ← hgiven]
      exact keysFrom_respond hkeyed (hused other)
    · rw [stateOf_insert_of_ne hother]
      exact (hused other).mono (List.subset_append_left ..)
  · cases howner : owners.owner? c type with
    | none => rw [under, under, howner]
    | some owner =>
      rw [under_of_owner howner, under_of_owner howner]
      by_cases hother : owner = name
      · subst hother
        rw [stateOf_insert_self, Store.ofType_respond (hused owner) (hgiven ▸ hfresh)
          fun hinner => htouches (hforwards.touches h hmember hinner)]
      · rw [stateOf_insert_of_ne hother]

end Forwarded

/-- A store goes on when it has answered. -/
theorem goesOn_respond (hadjacency : kept.KnowsAdjacency) (hkeyed : s.Keyed)
    (hused : kept.KeysFrom used s) (hfresh : ∀ unique ∈ Step.given ⟨stamp, call⟩, unique ∉ used)
    (tree : FileTree) :
    GoesOn used (.store (kept.withState s)) tree ⟨stamp, call⟩
      (.store (kept.withState (kept.respond stamp s call).2)) := by
  refine ⟨.store hadjacency (kept.keyed_respond hkeyed stamp call) (keysFrom_respond hkeyed hused),
    fun _ _ htakes => htakes, fun c type htouches => Store.ofType_respond hused hfresh fun h => ?_⟩
  have hlookup : (fun c id => (kept.respond stamp s (.get c id)).1)
      = lookup stamp (.store (kept.withState s), tree) := by
    funext c id
    rw [lookup, backend]
    simp only [run_store, Store.run_answer_withState]
  exact htouches (hlookup ▸ h)

/-- Every call is answered, and the suite goes on. -/
theorem InOrder.advance (h : suite.InOrder used) {step : Step}
    (hfresh : ∀ unique ∈ step.given, unique ∉ used) (tree : FileTree) :
    ∃ outcome suite', (answer step.stamp suite step.call).run tree = ((outcome, suite'), tree)
      ∧ GoesOn used suite tree step suite' := by
  obtain ⟨stamp, call⟩ := step
  have hsame := h.goesOn tree ⟨stamp, call⟩
  cases h with
  | @store kept s hadjacency hkeyed hused =>
    have hrun : (answer stamp (.store (kept.withState s)) call).run tree
        = (((kept.respond stamp s call).1,
          .store (kept.withState (kept.respond stamp s call).2)), tree) := by
      rw [run_store, Store.run_answer_withState]
    exact ⟨_, _, hrun, goesOn_respond hadjacency hkeyed hused hfresh tree⟩
  | @dispatcher stores members owners hadjacency hheld hnodup hused =>
    by_cases hsingle : Single call
    · rcases dispatch_cases hheld.known hsingle with ⟨failure, -, hrun⟩
        | ⟨name, member, inner, wrap, hforwards, hmember⟩
      · exact ⟨_, _, hrun stamp tree, hsame⟩
      · obtain ⟨-, hrun⟩ := hheld.inMemory.run hmember
        exact ⟨_, _, (run_of_forwards hforwards hmember).trans (by rw [hrun]),
          hforwards.goesOn hadjacency hheld hnodup hused hmember hfresh tree⟩
    · obtain ⟨outcome, hrun⟩ := hheld.still hnodup hsingle stamp tree
      exact ⟨outcome, _, hrun, hsame⟩

/-- A creation of a type that a suite takes succeeds, and the entity comes at the end of the
    type. -/
theorem InOrder.create (h : suite.InOrder used) (hfresh : stamp.unique ∉ used) (body : Body c)
    (htakes : suite.Takes c body.type) (tree : FileTree) :
    ∃ id suite', (answer stamp suite (.create c body)).run tree
        = ((.ok (body.create id (some stamp.time)), suite'), tree)
      ∧ GoesOn used suite tree ⟨stamp, .create c body⟩ suite'
      ∧ suite'.under c body.type
        = suite.under c body.type ++ [body.create id (some stamp.time)] := by
  have hgiven : ∀ unique ∈ Step.given ⟨stamp, .create c body⟩, unique ∉ used := by
    intro unique hunique
    rwa [List.mem_singleton.1 hunique]
  obtain ⟨outcome, suite', hrun, hgoes⟩ := h.advance hgiven tree
  -- what a store creates stands under its key, where there was nothing
  have hnew (kept : Store) {s : GraphState} (hused : kept.KeysFrom used s) :
      (kept.respond stamp s (.create c body)).2.ofType c body.type = s.ofType c body.type
        ++ [body.create (.ofString (kept.keyOf stamp.unique)) (some stamp.time)] :=
    (GraphState.ofType_insert_new (hused.fresh hfresh) _ _).trans (congrArg (_ ++ ·) (if_pos rfl))
  cases h with
  | @store kept s hadjacency hkeyed hused =>
    have hanswer := hrun
    rw [run_store, Store.run_answer_withState] at hanswer
    obtain ⟨⟨rfl, rfl⟩, -⟩ := Prod.mk.inj hanswer |>.imp_left Prod.mk.inj
    exact ⟨_, _, hrun, hgoes, hnew kept hused⟩
  | @dispatcher stores members owners hadjacency hheld hnodup hused =>
    obtain ⟨name, howner⟩ := htakes
    obtain ⟨member, hmember⟩ := Entries.mem_keys_iff.1 (hheld.known c body.type name howner)
    obtain ⟨-, hanswer⟩ := hheld.inMemory.run hmember
    have hforward := (run_of_forwards (.create howner) hmember).symm.trans hrun
    rw [hanswer] at hforward
    obtain ⟨⟨rfl, rfl⟩, -⟩ := Prod.mk.inj hforward |>.imp_left Prod.mk.inj
    refine ⟨_, _, hrun, hgoes, ?_⟩
    rw [under_of_owner howner, under_of_owner howner, stateOf_insert_self, hnew _ (hused name),
      List.map_append]
    rfl

/-! ### Identities -/

/-- Two entities of a type have the same identity only if they are one. -/
theorem InOrder.same_iff (h : suite.InOrder used) {e e' : Entity c} (he : e ∈ suite.under c type)
    (he' : e' ∈ suite.under c type) : e.id.same e'.id = true ↔ e = e' := by
  cases h with
  | store hadjacency hkeyed hused => exact hkeyed.same_iff he he'
  | @dispatcher stores members owners hadjacency hheld hnodup hused =>
    obtain ⟨name, x, howner, hx, rfl⟩ := exists_of_under he
    obtain ⟨name', x', howner', hx', rfl⟩ := exists_of_under he'
    obtain rfl : name = name' := Option.some.inj (howner.symm.trans howner')
    have hkeyed := hheld.inMemory.keyed name
    have hsame : (compose name x).id.same (compose name x').id = x.id.same x'.id :=
      CompositeId.Composed.written.same_toId x.id
    rw [hsame, hkeyed.same_iff hx hx']
    refine ⟨congrArg (compose name), fun heq => ?_⟩
    have hids := CompositeId.mk.inj (CompositeId.toId_inj (congrArg Entity.id heq))
    exact hkeyed.eq_of_id (List.mem_filter.1 hx).1 (List.mem_filter.1 hx').1 hids.2

/-- An identity holds no number. -/
theorem InOrder.proper_id (h : suite.InOrder used) {e : Entity c} (he : e ∈ suite.under c type)
    (p : Number → Prop) : e.id.value.Proper p := by
  cases h with
  | store hadjacency hkeyed hused =>
    obtain ⟨key, hid, -⟩ := hkeyed.exists_key he
    rw [hid]
    trivial
  | @dispatcher stores members owners hadjacency hheld hnodup hused =>
    obtain ⟨name, x, -, hx, rfl⟩ := exists_of_under he
    obtain ⟨key, hid, -⟩ := (hheld.inMemory.keyed name).exists_key hx
    rw [compose_id, hid]
    exact ⟨by simp [Entries.keys], trivial, trivial, trivial⟩

/-! ### Looking -/

/-- What a suite holds is found under its identity. -/
theorem InOrder.finds_get (h : suite.InOrder used) {e : Entity c} (he : e ∈ suite.under c type)
    (stamp : Stamp) (tree : FileTree) :
    (SuiteTask.ask stamp (.get c e.id)).Finds (suite, tree) (.ok (some e)) := by
  cases h with
  | @store kept s hadjacency hkeyed hused =>
    obtain ⟨key, hid, hget⟩ := hkeyed.exists_key he
    exact Store.finds_get (Store.loaded_of_shared rfl tree) stamp (hid ▸ rfl) hget
  | @dispatcher stores members owners hadjacency hheld hnodup hused =>
    show (answer stamp (.dispatcher members owners) (.get c e.id)).run tree = _
    obtain ⟨name, x, howner, hx, rfl⟩ := exists_of_under he
    obtain ⟨key, hid, hget⟩ := (hheld.inMemory.keyed name).exists_key hx
    have hmember := hheld.inMemory.get?_eq (hheld.known c type name howner)
    have hcomposite : CompositeId.ofId (compose name x).id = .ok ⟨name, .ofString key⟩ := by
      rw [compose_id, hid]
      exact CompositeId.ofId_toId name key
    have hreply : (stores name).respond stamp (stateOf members name) (.get c (.ofString key))
        = (.ok (some x), stateOf members name) := by
      rw [← hget]
      rfl
    rw [run_of_forwards (.get hcomposite) hmember, run_store, Store.run_answer_withState, hreply,
      Entries.insert_of_get? hmember]
    rfl

/-- The owner of a type finds what a search selects from what is held under the type. -/
theorem Held.found_selected (h : Held stores members owners) {q r : Searcher}
    {passes : Entity c → Bool} (hq : q.Selects type passes)
    (hplan : q.plan = .ok (.byType [(type, r)])) (howner : owners.owner? c type = some name)
    (hadjacency : (stores name).KnowsAdjacency) (stamp : Stamp) (tree : FileTree) :
    Suite.found stamp members tree c ⟨name, .all [.typeEq type, r]⟩
      = .ok (((dispatcher members owners).under c type).filter passes) := by
  obtain ⟨member, hmember⟩ := Entries.mem_keys_iff.1 (h.known c type name howner)
  obtain ⟨-, hrun⟩ := h.inMemory.run hmember
  have hpasses : (((stateOf members name).ofType c type).map (compose name)).filter passes
      = (((stateOf members name).ofType c type).filter passes).map (compose name) := by
    rw [List.filter_map]
    exact congrArg _ (List.filter_congr fun e _ => hq.composed name e)
  rw [Suite.found, run_answerIn_of_some hmember, hrun, under_of_owner howner, hpasses]
  show Except.map (List.map (compose name)) (Searcher.filter _ _ (stored members name c)) = _
  rw [Searcher.filter_typed, hq.filter_residual hadjacency hplan]
  rfl

/-- A search for a type finds what it selects from what the suite holds. -/
theorem InOrder.finds_search (h : suite.InOrder used) {q : Searcher} {passes : Entity c → Bool}
    (hq : q.Selects type passes) (stamp : Stamp) (tree : FileTree) :
    (SuiteTask.ask stamp (.search c q)).Finds (suite, tree)
      (.ok ((suite.under c type).filter passes)) := by
  cases h with
  | store hadjacency hkeyed hused =>
    exact Store.finds_search (Store.loaded_of_shared rfl tree) stamp (hq.filter hadjacency _)
  | @dispatcher stores members owners hadjacency hheld hnodup hused =>
    show (answer stamp (.dispatcher members owners) (.search c q)).run tree = _
    obtain ⟨r, hplan⟩ := hq.plan
    have hdivide := divide_of_byType owners c hq.paths hplan
    cases howner : owners.owner? c type with
    | none =>
      rw [howner] at hdivide
      rw [run_search hdivide nofun, under, howner]
      rfl
    | some name =>
      rw [howner] at hdivide
      have hquiet (task : PartialSearch) (htask : task ∈ [⟨name, .all [.typeEq type, r]⟩]) :
          ((answerIn stamp members task.suite (.search c task.searcher)).run tree).2 = tree := by
        rw [List.mem_singleton.1 htask]
        exact hheld.quiet howner _
      rw [run_search hdivide hquiet, List.map_singleton,
        hheld.found_selected hq hplan howner (hadjacency name), gather_singleton]
      rfl

/-! ### Suites that hold nothing -/

/-- A store or a dispatcher over stores, all of them empty, where adjacency means what it means to
    all. -/
inductive Untouched : Suite → Prop
  | store {store : Store} : store.KnowsAdjacency → store.keeper = .shared .empty →
    Untouched (.store store)
  | dispatcher {regs : List Registration} {dispatcher : Suite} :
    (∀ r ∈ regs, ∃ store : Store, r.suite = .store store ∧ store.KnowsAdjacency
      ∧ store.keeper = .shared .empty) →
    (Assembly.ofList regs).dispatcher = .ok dispatcher → Untouched dispatcher

theorem keysFrom_empty (kept : Store) (used : List String) : kept.KeysFrom used .empty := by
  intro c key e he
  cases c <;> cases he

/-- A suite that holds nothing is in good order. -/
theorem Untouched.inOrder (h : suite.Untouched) :
    suite.InOrder [] ∧ ∀ c type, suite.under c type = [] := by
  have hempty (c : EntityClass) (type : String) : GraphState.empty.ofType c type = [] := by
    cases c <;> rfl
  cases h with
  | @store store hadjacency hkeeper =>
    rw [← Store.withState_of_keeper hkeeper]
    exact ⟨.store hadjacency GraphState.keyed_empty (keysFrom_empty _ _), hempty⟩
  | @dispatcher regs dispatcher hsuites hbuilt =>
    obtain ⟨members, owners, rfl, hassembled⟩ := Assembly.assembled_of_dispatcher hbuilt
    have hmember : ∀ name member, Entries.get? name members = some member →
        ∃ store : Store, member = .store store ∧ store.KnowsAdjacency
          ∧ store.withState .empty = store := by
      intro name member hget
      obtain ⟨r, hr, -, rfl⟩ := hassembled.get?_eq_some_iff.1 hget
      obtain ⟨store, hsuite, hadjacency, hkeeper⟩ := hsuites r hr
      exact ⟨store, hsuite, hadjacency, Store.withState_of_keeper hkeeper⟩
    -- a name that no member has stands for a store with the builtin extensions
    have hadjacency (name : String) : (storeOf members .builtin name).KnowsAdjacency := by
      rw [storeOf]
      split
      · next store hget =>
        obtain ⟨store', hstore, hadjacency, -⟩ := hmember name _ hget
        rwa [Suite.store.inj hstore]
      · exact fun _ _ => rfl
    have hstate (name : String) : stateOf members name = .empty := by
      cases hget : Entries.get? name members with
      | none => rw [stateOf, hget]
      | some member =>
        obtain ⟨store, rfl, -, hblank⟩ := hmember name member hget
        exact stateOf_of_get? (hblank ▸ hget)
    have hheld : Held (storeOf members .builtin) members owners := by
      refine ⟨fun name member hget => ?_, fun c type name => hassembled.mem_of_owner?⟩
      obtain ⟨store, rfl, -, hblank⟩ := hmember name member hget
      rw [storeOf, hget]
      exact ⟨.empty, congrArg Suite.store hblank.symm, GraphState.keyed_empty⟩
    refine ⟨.dispatcher hadjacency hheld hassembled.nodup_types fun name => ?_, fun c type => ?_⟩
    · rw [hstate]
      exact keysFrom_empty _ _
    · cases howner : owners.owner? c type with
      | none => rw [under, howner]
      | some name => rw [under_of_owner howner, hstate, hempty, List.map_nil]

end Suite

end PropertyGraph
