/-
  PropertyGraph.Proofs.Routing.OneGraph

  Several stores under a dispatcher are one graph.  A run of calls that keeps to owned types and to
  identities that were given out is answered as a single store answers it, entities being known by
  composite identities outside and by native ones inside.

  One difference remains.  A search that is divided by types does not test all entities, so that it
  may miss a fault in the arguments of an extension.
-/
import PropertyGraph.Proofs.Routing.Division

namespace PropertyGraph.Suite

open Engine (Step given)

variable {c : EntityClass} {stamp : Stamp} {tree : FileTree} {members : List (String × Suite)}
  {owners : Owners} {name : String} {used : List String} {issued : List Id} {s : GraphState}

/-! ## Searches -/

/-- What a member stores is what the state holds of its types. -/
theorem Splits.mem_stored (h : Splits members owners used issued s) {e : Entity c} :
    e ∈ stored members name c
      ↔ e ∈ (s.entities c).values ∧ owners.owner? c e.type = some name := by
  rw [stored, (h.held.inMemory.keyed name).mem_values_iff, h.keyed.mem_values_iff]
  constructor
  · rintro ⟨key, hget⟩
    obtain ⟨hhere, howner⟩ := h.of_part hget
    exact ⟨⟨key, hhere⟩, howner⟩
  · rintro ⟨⟨key, hget⟩, howner⟩
    refine ⟨key, ?_⟩
    rw [h.parts, Option.filter_eq_some_iff]
    exact ⟨hget, decide_eq_true howner⟩

/-- The pieces of all routes are the whole state, up to order. -/
theorem Splits.perm_pieces (h : Splits members owners used issued s)
    (hnodup : (Entries.keys (owners.table c)).Nodup) :
    List.Perm ((owners.table c).flatMap (piece members c))
      ((s.entities c).values.map (composed owners)) := by
  have hcomposed : ∀ e ∈ (s.entities c).values, ∃ name, owners.owner? c e.type = some name
      ∧ composed owners e = compose name e := by
    intro e he
    obtain ⟨key, hget⟩ := h.keyed.mem_values_iff.1 he
    obtain ⟨name, howner⟩ := h.owned c key e hget
    exact ⟨name, howner, composed_of_owner howner⟩
  refine (List.perm_ext_iff_of_nodup ?_ ?_).2 fun e => ?_
  · exact (nodup_pieces h.held.inMemory hnodup).of_map _
  · -- composing keeps entities apart, since it keeps their identities apart
    refine List.Nodup.map_on (fun e he e' he' hsame => ?_) ((h.keyed.nodup_ids c).of_map _)
    obtain ⟨name, -, heq⟩ := hcomposed e he
    obtain ⟨name', -, heq'⟩ := hcomposed e' he'
    rw [heq, heq'] at hsame
    have hids := CompositeId.toId_inj (congrArg Entity.id hsame)
    exact h.keyed.eq_of_id he he' (CompositeId.mk.inj hids).2
  · rw [List.mem_flatMap, List.mem_map]
    constructor
    · rintro ⟨⟨type, name⟩, hroute, he⟩
      obtain ⟨x, hx, htype, rfl⟩ := mem_piece.1 he
      obtain ⟨hmem, howner⟩ := h.mem_stored.1 hx
      exact ⟨x, hmem, composed_of_owner howner⟩
    · rintro ⟨x, hx, rfl⟩
      obtain ⟨name, howner, heq⟩ := hcomposed x hx
      refine ⟨(x.type, name), Entries.mem_of_get? howner, ?_⟩
      exact mem_piece.2 ⟨x, h.mem_stored.2 ⟨hx, howner⟩, rfl, heq⟩

theorem test_composed (q : Searcher) (e : Entity c) :
    q.test Evaluator.builtin (composed owners e) = q.test Evaluator.builtin e := by
  rw [composed]
  cases owners.owner? c e.type with
  | none => rfl
  | some name => exact Searcher.test_withId Evaluator.blind_builtin q e _

theorem keeps_composed (q : Searcher) (e : Entity c) :
    q.keeps Evaluator.builtin (composed owners e) = q.keeps Evaluator.builtin e := by
  rw [Searcher.keeps, Searcher.keeps, test_composed]

/-- A search changes nothing and gives out what members hold. -/
theorem Splits.searched (h : Splits members owners used issued s) {q : Searcher}
    {outcome : Outcome (List (Entity c))}
    (hrun : (answer stamp (.dispatcher members owners) (.search c q)).run tree
      = ((outcome, .dispatcher members owners), tree))
    (hfound : ∀ found, outcome = .ok found →
      ∀ e ∈ found, e ∈ (owners.table c).flatMap (piece members c))
    (hagrees : Agrees owners (.search c q) outcome
      (q.filter Evaluator.builtin (s.entities c).values)) :
    Continues members owners tree stamp (.search c q) used issued s := by
  have hsingle : Store.blank.respond stamp s (.search c q)
      = (q.filter Evaluator.builtin (s.entities c).values, s) := by
    cases c <;> rfl
  refine ⟨outcome, members, hrun, ?_, ?_⟩
  · show Splits _ _ _ _ (Store.blank.respond stamp s (.search c q)).2
    rw [hsingle]
    refine h.issue fun id hid => ?_
    cases outcome with
    | error failure => cases hid
    | ok found =>
      obtain ⟨e, he, rfl⟩ := List.mem_map.1 hid
      obtain ⟨route, -, hpiece⟩ := List.mem_flatMap.1 (hfound found rfl e he)
      obtain ⟨x, hx, -, rfl⟩ := mem_piece.1 hpiece
      have hkeyed := h.held.inMemory.keyed route.2
      obtain ⟨key, hget⟩ := hkeyed.mem_values_iff.1 hx
      refine ⟨route.2, c, key, x, hget, ?_⟩
      rw [compose_id, hkeyed.id_of_get hget]
  · show Agrees owners (.search c q) outcome (Store.blank.respond stamp s (.search c q)).1
    rw [hsingle]
    exact hagrees

theorem evaluators_blank (c : EntityClass) :
    Store.blank.evaluators.forClass c = Evaluator.builtin := by
  cases c <;> rfl

section Search

variable (h : Splits members owners used issued s)
  (hnodup : (Entries.keys (owners.table c)).Nodup) {q : Searcher}

include h hnodup

/-- A search that the single store answers finds the same in the members. -/
theorem Splits.search_of_ok {all : List (Entity c)}
    (hsingle : q.filter Evaluator.builtin (s.entities c).values = .ok all) :
    Continues members owners tree stamp (.search c q) used issued s := by
  have hperm := h.perm_pieces hnodup (c := c)
  obtain ⟨hpaths, hall, rfl⟩ := Searcher.filter_eq_ok_iff.1 hsingle
  have hfilter : q.filter (Evaluators.builtin.forClass c) ((owners.table c).flatMap (piece members c))
      = .ok (((owners.table c).flatMap (piece members c)).filter (q.keeps Evaluator.builtin)) := by
    rw [show Evaluators.builtin.forClass c = Evaluator.builtin from evaluators_blank c]
    refine Searcher.filter_eq_ok_iff.2 ⟨hpaths, fun e he => ?_, rfl⟩
    -- entities test alike in the members and in the state
    obtain ⟨x, hx, rfl⟩ := List.mem_map.1 (hperm.subset he)
    rw [test_composed]
    exact hall x hx
  refine h.searched (h.held.run_search Evaluators.blind_builtin (fun _ => rfl) hnodup hfilter)
    (fun found hok e he => ?_) ?_
  · obtain rfl := Except.ok.inj hok
    exact List.mem_of_mem_filter he
  · rw [hsingle]
    refine (hperm.filter _).trans (List.Perm.of_eq ?_)
    rw [List.filter_map]
    exact congrArg _ (List.filter_congr fun e _ => keeps_composed q e)

/-- A search that fails in the single store, for malformed arguments, may succeed in the members,
    which test fewer entities. -/
theorem Splits.search_of_malformed (hq : q.AdjacencyOnly c) (hpaths : q.checkPaths = .ok ())
    {x : Entity c} (hfails : q.test Evaluator.builtin x = .error .malformed)
    (hsingle : q.filter Evaluator.builtin (s.entities c).values = .error .malformed) :
    Continues members owners tree stamp (.search c q) used issued s := by
  obtain ⟨routes, hsub, hrun, -⟩ := h.held.search_pieces Evaluators.blind_builtin
    (fun _ => rfl) hnodup hpaths stamp tree
  rw [show Evaluators.builtin.forClass c = Evaluator.builtin from evaluators_blank c] at hrun
  cases hgather : gather (routes.map fun route => (namedPrompt members route.2,
      q.filter Evaluator.builtin (piece members c route))) with
  | ok found =>
    rw [hgather] at hrun
    refine h.searched hrun (fun found' hok e he => ?_) ?_
    · obtain rfl := Except.ok.inj hok
      obtain ⟨route, hroute, kept, hkept, he⟩ := exists_of_gather hgather he
      obtain ⟨-, -, rfl⟩ := Searcher.filter_eq_ok_iff.1 hkept
      exact List.mem_flatMap.2 ⟨route, hsub.subset hroute, List.mem_of_mem_filter he⟩
    · rw [hsingle]
      refine ⟨rfl, fun hwell => ?_⟩
      obtain ⟨hit, hok⟩ := hwell.test_isOk hpaths x
      rw [hok] at hfails
      cases hfails
  | error other =>
    rw [hgather] at hrun
    refine h.searched hrun (fun _ hok => by cases hok) ?_
    rw [hsingle]
    -- the members too can fail for malformed arguments only
    have hmem := mem_of_gather_eq_error hgather
    rw [List.map_map] at hmem
    obtain ⟨route, -, hkept⟩ := List.mem_map.1 hmem
    obtain ⟨e, -, hother⟩ := ((Searcher.filter_eq_error hkept).resolve_left
      fun hread => by rw [hpaths] at hread; cases hread).2
    exact hq.malformed_of_test hpaths hother

theorem Splits.search (hq : q.AdjacencyOnly c) :
    Continues members owners tree stamp (.search c q) used issued s := by
  cases hpaths : q.checkPaths with
  | error failure =>
    -- a path that cannot be read is found before anything is searched
    have hdivide : divide owners c q = .error failure := by
      rw [divide, hpaths]
      rfl
    refine h.searched (run_search_of_error hdivide) (fun _ hok => by cases hok) ?_
    rw [Searcher.filter_of_checkPaths hpaths]
    rfl
  | ok u =>
    cases hsingle : q.filter Evaluator.builtin (s.entities c).values with
    | ok all => exact h.search_of_ok hnodup hsingle
    | error failure =>
      obtain ⟨x, -, hfails⟩ := ((Searcher.filter_eq_error hsingle).resolve_left
        fun hread => by rw [hpaths] at hread; cases hread).2
      obtain rfl := hq.malformed_of_test hpaths hfails
      exact h.search_of_malformed hnodup hq hpaths hfails hsingle

end Search

/-! ## Runs -/

/-- Every call within a dispatcher continues the division. -/
theorem Splits.step (h : Splits members owners used issued s)
    (hnodup : ∀ c, (Entries.keys (owners.table c)).Nodup) {step : Step}
    (hwithin : Within owners issued step.call) (hfresh : ∀ unique ∈ step.given, unique ∉ used)
    (tree : FileTree) :
    Continues members owners tree step.stamp step.call (used ++ step.given) issued s := by
  obtain ⟨stamp, call⟩ := step
  cases call with
  | get c id =>
    rw [show Step.given ⟨stamp, .get c id⟩ = [] from rfl, List.append_nil]
    exact h.get hwithin
  | search c q =>
    rw [show Step.given ⟨stamp, .search c q⟩ = [] from rfl, List.append_nil]
    exact h.search (hnodup c) hwithin
  | create c body =>
    obtain ⟨name, howner⟩ := hwithin
    exact h.create howner (hfresh stamp.unique (List.mem_singleton.2 rfl))
  | edit c id patch =>
    rw [show Step.given ⟨stamp, .edit c id patch⟩ = [] from rfl, List.append_nil]
    exact h.edit hwithin.1 hwithin.2
  | remove c id =>
    rw [show Step.given ⟨stamp, .remove c id⟩ = [] from rfl, List.append_nil]
    exact h.remove hwithin
  | types c => exact hwithin.elim

/-- Empty stores divide the empty state. -/
theorem splits_empty {regs : List Registration} (hsuites : ∀ r ∈ regs, r.suite = .store .blank)
    (h : Assembled regs members owners) : Splits members owners [] [] .empty := by
  have hmember : ∀ name suite, Entries.get? name members = some suite → suite = .store .blank := by
    intro name suite hget
    obtain ⟨r, hr, heq⟩ := List.mem_map.1 (h.members ▸ Entries.mem_of_get? hget)
    obtain ⟨-, rfl⟩ := Prod.mk.inj heq
    exact hsuites r hr
  have hnothing : ∀ c key, GraphState.empty.get c key = none := fun c key => by cases c <;> rfl
  refine ⟨⟨fun name suite hget => ?_, fun c type name => h.mem_of_owner?⟩, GraphState.keyed_empty,
    fun c key e hget => ?_, fun c c' key e e' hget => ?_, fun c key e hget => ?_,
    fun name c key => ?_, fun id hid => absurd hid List.not_mem_nil⟩
  · exact ⟨.empty, hmember name suite hget, GraphState.keyed_empty⟩
  · rw [hnothing] at hget
    cases hget
  · rw [hnothing] at hget
    cases hget
  · rw [hnothing] at hget
    cases hget
  · have hstate : stateOf members name = .empty := by
      rw [stateOf]
      cases hget : Entries.get? name members with
      | none => rfl
      | some suite =>
        obtain rfl := hmember name suite hget
        rfl
    rw [hstate, hnothing]
    rfl

/-- After every run within a dispatcher its members divide the state of the single store. -/
theorem splits_after (hnodup : ∀ c, (Entries.keys (owners.table c)).Nodup)
    (hempty : Splits members owners [] [] .empty) {steps : List Step}
    (hruns : RunsWithin (.dispatcher members owners) owners tree steps) :
    ∃ members' s, backend.after (.dispatcher members owners, tree) steps
        = (.dispatcher members' owners, tree)
      ∧ Store.backend.after (.blank, tree) (steps.map Step.native)
        = (Store.blank.withState s, tree)
      ∧ Splits members' owners (given steps)
        (backend.issued (.dispatcher members owners, tree) steps) s := by
  -- The run grows at its end, so the division that holds so far is the hypothesis for the last
  -- call.
  induction steps using List.reverseRecOn with
  | nil => exact ⟨members, .empty, rfl, rfl, hempty⟩
  | append_singleton steps step ih =>
    obtain ⟨between, s, hafter, hsingle, hsplits⟩ := ih hruns.before
    obtain ⟨outcome, members', hrun, hsplits', -⟩ := hsplits.step hnodup
      (hruns.within steps step [] rfl)
      (fun unique hgiven => Engine.fresh_of_distinct hruns.distinct hgiven) tree
    have hreply : (backend.answer step.stamp step.call (.dispatcher between owners, tree))
        = (outcome, .dispatcher members' owners, tree) := by
      rw [backend]
      simp only [hrun]
    refine ⟨members', (Store.blank.respond step.stamp s step.call.native).2, ?_, ?_, ?_⟩
    · rw [Backend.after_append, hafter, Backend.advance, hreply]
    · rw [List.map_append, List.map_singleton, Backend.after_append, hsingle, Backend.advance,
        Store.backend]
      simp only [Store.run_answer_withState]
      rfl
    · rw [Engine.given_append, Backend.issued_append, hafter, hreply]
      exact hsplits'

/-- In every run within a dispatcher over empty stores, each call is answered as a single empty
    store answers it in native terms. -/
theorem dispatched_run_agrees {regs : List Registration}
    (hsuites : ∀ r ∈ regs, r.suite = .store .blank)
    (hbuilt : (Assembly.ofList regs).dispatcher = .ok (.dispatcher members owners))
    {steps : List Step} (hruns : RunsWithin (.dispatcher members owners) owners tree steps)
    {before after : List Step} {step : Step} (hstep : steps = before ++ step :: after) :
    Agrees owners step.call
      (backend.answer step.stamp step.call
        (backend.after (.dispatcher members owners, tree) before)).1
      (Store.backend.answer step.stamp step.call.native
        (Store.backend.after (.blank, tree) (before.map Step.native))).1 := by
  obtain ⟨members', owners', heq, hassembled⟩ := Assembly.assembled_of_dispatcher hbuilt
  obtain ⟨rfl, rfl⟩ := Suite.dispatcher.inj heq
  have hfront : RunsWithin (.dispatcher members owners) owners tree (before ++ [step]) := by
    rw [hstep, ← List.singleton_append, ← List.append_assoc] at hruns
    exact hruns.before
  obtain ⟨between, s, hafter, hsingle, hsplits⟩ := splits_after hassembled.nodup_types
    (splits_empty hsuites hassembled) hfront.before
  obtain ⟨outcome, members', hrun, -, hagrees⟩ := hsplits.step hassembled.nodup_types
    (hfront.within before step [] rfl)
    (fun unique hgiven => Engine.fresh_of_distinct hfront.distinct hgiven) tree
  rw [hafter, hsingle, backend, Store.backend]
  simp only [hrun, Store.run_answer_withState]
  exact hagrees

/-- A person is created. -/
def joinCreation : Step :=
  ⟨⟨"1", 10⟩, .create .node (Body.node "Person" [("name", .string "a")])⟩

/-- The person becomes a team. -/
def joinEdit : Step :=
  ⟨⟨"2", 11⟩, .edit .node (CompositeId.mk "people" (.ofString "1")).toId
    { type := some "Team", properties := none, ends := () }⟩

/-- Teams are searched for. -/
def joinSearch : Step := ⟨⟨"3", 12⟩, .search .node (.typeEq "Team")⟩

theorem runsWithin_join : RunsWithin
    (.dispatcher (Registration.members sampleRegistrations) sampleOwners) sampleOwners .sample
    [joinCreation, joinEdit, joinSearch] := by
  have hcreation : RunsWithin
      (.dispatcher (Registration.members sampleRegistrations) sampleOwners) sampleOwners .sample
      [joinCreation] :=
    (runsWithin_nil _ _ _).append (by decide) ⟨"people", rfl⟩
  have hedit : RunsWithin
      (.dispatcher (Registration.members sampleRegistrations) sampleOwners) sampleOwners .sample
      [joinCreation, joinEdit] := by
    have hissued : Issued (backend.issued
        (.dispatcher (Registration.members sampleRegistrations) sampleOwners, .sample)
        [joinCreation]) (CompositeId.mk "people" (.ofString "1")).toId :=
      ⟨_, CompositeId.ofId_toId "people" "1", List.mem_cons_self ..⟩
    refine hcreation.append nofun ⟨hissued, fun composite hid type htype => ?_⟩
    -- the new type is owned by the suite that the identity names
    obtain rfl := Except.ok.inj hid
    obtain rfl := Option.some.inj htype
    rfl
  exact hedit.append nofun trivial

/-- What is found of the person in the end, by the dispatcher and by the single store. -/
theorem dispatched_run_agrees_join :
    (∀ r ∈ sampleRegistrations, r.suite = .store .blank)
      ∧ (Assembly.ofList sampleRegistrations).dispatcher
        = .ok (.dispatcher (Registration.members sampleRegistrations) sampleOwners)
      ∧ RunsWithin (.dispatcher (Registration.members sampleRegistrations) sampleOwners)
        sampleOwners .sample [joinCreation, joinEdit, joinSearch]
      ∧ [joinCreation, joinEdit, joinSearch] = [joinCreation, joinEdit] ++ joinSearch :: []
      ∧ Agrees sampleOwners joinSearch.call
        (backend.answer joinSearch.stamp joinSearch.call (backend.after
          (.dispatcher (Registration.members sampleRegistrations) sampleOwners, .sample)
          [joinCreation, joinEdit])).1
        (Store.backend.answer joinSearch.stamp joinSearch.call.native (Store.backend.after
          (.blank, .sample) ([joinCreation, joinEdit].map Step.native))).1 := by
  have hsuites : ∀ r ∈ sampleRegistrations, r.suite = .store .blank := by
    simp [sampleRegistrations]
  exact ⟨hsuites, rfl, runsWithin_join, rfl,
    dispatched_run_agrees hsuites rfl runsWithin_join rfl⟩

/-- Two stores for relationships. -/
def linkRegistrations : List Registration :=
  [⟨"a", .store .blank, [], ["LinkA"]⟩, ⟨"b", .store .blank, [], ["LinkB"]⟩]

/-- The owners that the two stores make. -/
def linkOwners : Owners := ⟨[], [("LinkA", "a"), ("LinkB", "b")]⟩

/-- A relationship in the first store. -/
def linkCreation : Step :=
  ⟨⟨"1", 10⟩, .create .relationship (Body.relationship "LinkA" [] (.ofString "x") (.ofString "y"))⟩

/-- A search with malformed arguments, and then for the type of the second store. -/
def linkSearch : Step :=
  ⟨⟨"2", 11⟩, .search .relationship
    (.all [.extension Searcher.adjacencyName .null, .typeEq "LinkB"])⟩

/-- The dispatcher asks the second store only, which has nothing to test; the single store tests
    the relationship of the other type and meets the malformed arguments. -/
theorem malformed_adjacency_differs :
    (Assembly.ofList linkRegistrations).dispatcher
        = .ok (.dispatcher (Registration.members linkRegistrations) linkOwners)
      ∧ RunsWithin (.dispatcher (Registration.members linkRegistrations) linkOwners) linkOwners
        .sample [linkCreation, linkSearch]
      ∧ (backend.answer linkSearch.stamp linkSearch.call (backend.after
          (.dispatcher (Registration.members linkRegistrations) linkOwners, .sample)
          [linkCreation])).1 = .ok []
      ∧ (Store.backend.answer linkSearch.stamp linkSearch.call.native (Store.backend.after
          (.blank, .sample) ([linkCreation].map Step.native))).1 = .error .malformed := by
  have hcreation : RunsWithin
      (.dispatcher (Registration.members linkRegistrations) linkOwners) linkOwners .sample
      [linkCreation] :=
    (runsWithin_nil _ _ _).append (by decide) ⟨"a", rfl⟩
  exact ⟨rfl, hcreation.append nofun ⟨⟨rfl, rfl⟩, trivial, trivial⟩, rfl, rfl⟩

end PropertyGraph.Suite
