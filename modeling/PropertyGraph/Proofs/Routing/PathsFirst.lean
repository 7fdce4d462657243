/-
  PropertyGraph.Proofs.Routing.PathsFirst

  Searches look at paths first.  Stores, graphs in documents and dispatchers over such graphs, to
  any depth, report the first path of a searcher that cannot be read, and they report no other
  path: not one that was hidden by the plan, not one of the searchers that a dispatcher makes for
  its members, and none while entities are tested.  Each kind of graph checks the paths before it
  looks at anything, so the state and the files do not matter.
-/
import PropertyGraph.Proofs.Memory.Bounded
import PropertyGraph.Proofs.Routing.Succession
import PropertyGraph.Proofs.Storage.SearchFailures

namespace PropertyGraph

variable {c : EntityClass} {s : Searcher} {failure : Failure}

@[simp] theorem Evaluators.forClass_builtin (c : EntityClass) :
    Evaluators.builtin.forClass c = Evaluator.builtin := by
  cases c <;> rfl

/-! ## Stores -/

/-- No entity of a list makes a compiled searcher fail for a path. -/
theorem CompiledSearcher.not_ofPath_of_filter {m : CompiledSearcher c}
    (hm : s.compile Evaluator.builtin = .ok m) {es : List (Entity c)}
    (h : m.filter es = .error failure) : ¬ failure.OfPath := by
  have hfilter : s.filter Evaluator.builtin es = .error failure := by
    rw [Searcher.filter, hm]
    exact h
  obtain hpaths | ⟨-, e, -, htest⟩ := Searcher.filter_eq_error hfilter
  · rw [Searcher.checkPaths_of_compile hm] at hpaths
    cases hpaths
  · rw [← Searcher.compile_test hm] at htest
    exact not_ofPath_of_test hm htest

namespace Store

variable {store : Store}

/-- A look at the state leaves everything as it is, and fails as the look does or for the file. -/
theorem run_look_cases {α : Type} (f : GraphState → Outcome α) (tree : FileTree) :
    ∃ outcome, (store.look f).run tree = ((outcome, store), tree)
      ∧ ∀ failure, outcome = .error failure → failure.OfFiles ∨ ∃ s, f s = .error failure := by
  cases hkeeper : store.keeper with
  | shared s =>
    refine ⟨f s, ?_, fun failure h => .inr ⟨s, h⟩⟩
    rw [look, hkeeper]
    rfl
  | snapshot path =>
    refine ⟨_, run_look hkeeper f tree, fun failure h => ?_⟩
    obtain ⟨s, -, hload⟩ | ⟨other, hfiles, hload⟩ := exec_load_cases path tree
    · rw [hload] at h
      exact .inr ⟨s, h⟩
    · rw [hload] at h
      rw [← Except.error.inj h]
      exact .inl hfiles

/-- A search in a store leaves everything as it is, and it fails for a path exactly when its paths
    fail the check. -/
theorem run_search (hbuiltin : store.evaluators = .builtin) (stamp : Stamp) (tree : FileTree) :
    ∃ outcome, (store.answer stamp (.search c s)).run tree = ((outcome, store), tree)
      ∧ ∀ failure, failure.OfPath →
        (outcome = .error failure ↔ s.checkPaths = .error failure) := by
  rw [answer, hbuiltin, Evaluators.forClass_builtin]
  -- a searcher that cannot be compiled ends the search before the state is loaded
  cases hcompile : s.compile (Evaluator.builtin (c := c)) with
  | error other =>
    refine ⟨.error other, rfl, fun failure _ => ?_⟩
    rw [Searcher.compile_eq_error_iff.1 hcompile]
    exact error_eq_error_iff
  | ok m =>
    obtain ⟨outcome, hrun, hfails⟩ :=
      store.run_look_cases (fun s => m.filter (s.entities c).values) tree
    refine ⟨outcome, hrun, fun failure hpath => ⟨fun h => ?_, fun h => ?_⟩⟩
    · obtain hfiles | ⟨state, hfilter⟩ := hfails failure h
      · exact absurd hpath hfiles.not_ofPath
      · exact absurd hpath (CompiledSearcher.not_ofPath_of_filter hcompile hfilter)
    · rw [Searcher.checkPaths_of_compile hcompile] at h
      cases h

end Store

/-! ## Dispatchers -/

namespace Suite

variable {members : List (String × Suite)} {owners : Owners} {tree : FileTree} {stamp : Stamp}

/-- A search is not divided exactly when its paths fail the check. -/
theorem divide_eq_error_iff :
    divide owners c s = .error failure ↔ s.checkPaths = .error failure := by
  rw [divide]
  cases s.checkPaths with
  | error other =>
    exact error_eq_error_iff
  | ok u =>
    obtain ⟨plan, hplan, -⟩ := Searcher.plan_keepsPaths s
    rw [hplan]
    cases plan <;> constructor <;> (intro h; cases h)

/-- The searches that a search divides into have paths that can be read. -/
theorem checkPaths_of_divide {tasks : List PartialSearch} (h : divide owners c s = .ok tasks)
    {task : PartialSearch} (htask : task ∈ tasks) : task.searcher.checkPaths = .ok () := by
  have hpaths : s.checkPaths = .ok () := by
    cases hcheck : s.checkPaths with
    | ok u => rfl
    | error failure =>
      rw [divide_eq_error_iff.2 hcheck] at h
      cases h
  obtain ⟨plan, hplan, -⟩ := Searcher.plan_keepsPaths s
  -- asking for the type as well adds no path
  have htyped : ∀ type (r : Searcher), r.checkPaths = .ok () →
      (Searcher.all [.typeEq type, r]).checkPaths = .ok () := by
    intro type r hr
    refine Searcher.checkPaths_residual hr fun p => ?_
    simp [Searcher.paths, Searcher.pathsAll]
  rw [divide, hpaths, hplan] at h
  cases plan with
  | everyType whole =>
    obtain rfl := Searcher.eq_of_plan_everyType hplan
    obtain rfl := Except.ok.inj h
    obtain ⟨route, -, rfl⟩ := List.mem_map.1 htask
    exact htyped route.1 whole hpaths
  | byType residuals =>
    obtain rfl := Except.ok.inj h
    obtain ⟨⟨type, residual⟩, hmem, howner⟩ := List.mem_filterMap.1 htask
    obtain ⟨name, -, rfl⟩ := Option.map_eq_some_iff.1 howner
    exact htyped type residual (Searcher.checkPaths_of_mem_residuals hpaths hplan hmem)

/-- A graph of stores, graphs in documents and dispatchers over such graphs, in which extensions
    mean what they mean everywhere. -/
inductive Builtin : Suite → Prop
  | store {store : Store} : store.evaluators = .builtin → Builtin (.store store)
  | engine {g : Engine} : g.evaluators = .builtin → Builtin (.engine g)
  | dispatcher {members : List (String × Suite)} {owners : Owners} :
    (∀ member ∈ members, Builtin member.2) → Builtin (.dispatcher members owners)

/-- A search leaves everything as it is, and it fails for a path exactly when its paths fail the
    check. -/
def ChecksPaths (suite : Suite) : Prop :=
  ∀ stamp tree c s, ∃ outcome,
    (answer stamp suite (.search c s)).run tree = ((outcome, suite), tree)
      ∧ ∀ failure, failure.OfPath →
        (outcome = .error failure ↔ s.checkPaths = .error failure)

/-- A search among members that check paths leaves the files as they are, and does not fail for a
    path if its paths can be read. -/
theorem run_answerIn_of_checksPaths (h : ∀ member ∈ members, ChecksPaths member.2)
    (name : String) (hpaths : s.checkPaths = .ok ()) :
    ((answerIn stamp members name (.search c s)).run tree).2 = tree
      ∧ ∀ failure, ((answerIn stamp members name (.search c s)).run tree).1.1 = .error failure →
        ¬ failure.OfPath := by
  cases hmember : Entries.get? name members with
  | none =>
    rw [run_answerIn_of_none hmember]
    refine ⟨rfl, fun failure hfails => ?_⟩
    rw [← Except.error.inj hfails]
    rintro ⟨p, fault, hpath⟩
    cases hpath
  | some suite =>
    obtain ⟨outcome, hrun, hiff⟩ := h _ (Entries.mem_of_get? hmember) stamp tree c s
    rw [run_answerIn_of_some hmember, hrun]
    refine ⟨rfl, fun failure hfails hpath => ?_⟩
    rw [(hiff failure hpath).1 hfails] at hpaths
    cases hpaths

theorem checksPaths_dispatcher (h : ∀ member ∈ members, ChecksPaths member.2) (owners : Owners) :
    ChecksPaths (.dispatcher members owners) := by
  intro stamp tree c s
  cases hdivide : divide owners c s with
  | error other =>
    refine ⟨.error other, run_search_of_error hdivide, fun failure _ => ?_⟩
    rw [divide_eq_error_iff.1 hdivide]
    exact error_eq_error_iff
  | ok tasks =>
    have hmember : ∀ task ∈ tasks,
        ((answerIn stamp members task.suite (.search c task.searcher)).run tree).2 = tree
          ∧ ∀ failure, ((answerIn stamp members task.suite
              (.search c task.searcher)).run tree).1.1 = .error failure → ¬ failure.OfPath :=
      fun task htask => run_answerIn_of_checksPaths h task.suite
        (checkPaths_of_divide hdivide htask)
    refine ⟨_, run_search hdivide fun task htask => (hmember task htask).1, ?_⟩
    refine fun failure hpath => ⟨fun hfails => ?_, fun hfails => ?_⟩
    · -- the failure is that of a member, in a search whose paths can be read
      obtain ⟨pair, hpair, hfound⟩ := List.mem_map.1 (mem_of_gather_eq_error hfails)
      obtain ⟨task, htask, rfl⟩ := List.mem_map.1 hpair
      refine absurd hpath ((hmember task htask).2 failure ?_)
      rw [found] at hfound
      cases houtcome : ((answerIn stamp members task.suite
          (.search c task.searcher)).run tree).1.1 with
      | ok es =>
        rw [houtcome] at hfound
        cases hfound
      | error other =>
        rw [houtcome] at hfound
        exact error_eq_error_iff.1 hfound
    · rw [divide_eq_error_iff.2 hfails] at hdivide
      cases hdivide

theorem Builtin.checksPaths {suite : Suite} (h : suite.Builtin) : suite.ChecksPaths := by
  induction h with
  | store hbuiltin =>
    intro stamp tree c s
    obtain ⟨outcome, hrun, hiff⟩ := Store.run_search (s := s) (c := c) hbuiltin stamp tree
    exact ⟨outcome, by rw [run_store, hrun], hiff⟩
  | @engine g hbuiltin =>
    intro stamp tree c s
    refine ⟨((g.search c s).exec tree).1, ?_, fun failure hpath => ?_⟩
    · rw [run_engine]
      exact congrArg _ (g.exec_search_unchanged c s tree)
    · refine g.exec_search_ofPath_iff ?_ tree hpath
      rw [hbuiltin, Evaluators.forClass_builtin]
  | dispatcher _ ih => exact checksPaths_dispatcher ih _

/-- A call leaves extensions what they mean. -/
theorem Builtin.run {suite : Suite} (h : suite.Builtin) (stamp : Stamp) (call : Call)
    (tree : FileTree) : ((answer stamp suite call).run tree).1.2.Builtin := by
  induction h generalizing call with
  | @store store hbuiltin =>
    rw [run_store]
    exact .store ((store.evaluators_run stamp call tree).trans hbuiltin)
  | engine hbuiltin =>
    rw [run_engine]
    exact .engine hbuiltin
  | @dispatcher members owners hmembers ih =>
    obtain ⟨members', hbecame, hsucceed⟩ := run_dispatcher members owners stamp call tree
    rw [hbecame]
    exact .dispatcher (hsucceed.all fun member hmem => ⟨hmembers member hmem, ih member hmem⟩)

/-- Searches look at paths first.  In a graph of stores, graphs in documents and dispatchers, over
    any files and after any calls, a search fails for a path exactly when its searcher has one
    anywhere that cannot be read, and then for the first of them.  Compiling a searcher fails for
    the same path.  A searcher that has been compiled tests an entity as reading every path afresh
    would; it fails exactly where the evaluation from left to right comes to an extension that
    fails, and with the built-in extensions never for a path. -/
theorem search_checks_paths_first :
    (∀ suite : Suite, suite.Builtin → ∀ tree steps stamp c s,
      ∃ outcome : Outcome (List (Entity c)),
      (backend.answer stamp (.search c s) (backend.after (suite, tree) steps)).1 = outcome
      ∧ ((∃ p fault, outcome = .error (.path p fault))
        ↔ ∃ p ∈ s.paths, ¬ ∃ path, PropertyPath.read p = .ok path)
      ∧ ∀ p fault, outcome = .error (.path p fault) ↔ s.FirstUnreadable p fault)
    ∧ ∀ (c : EntityClass) (evaluator : Evaluator c) (s : Searcher),
      (∀ failure, s.compile evaluator = .error failure
        ↔ ∃ p fault, failure = .path p fault ∧ s.FirstUnreadable p fault)
      ∧ ∀ m, s.compile evaluator = .ok m → ∀ e : Entity c,
        m.test e = s.holds evaluator e
        ∧ (∀ failure, m.test e = .error failure
          ↔ ∃ name args, s.Reaches evaluator e name args ∧ evaluator name args e = .error failure)
        ∧ (evaluator = Evaluator.builtin → ∀ p fault, m.test e ≠ .error (.path p fault)) := by
  constructor
  · intro suite hbuiltin tree steps stamp c s
    have hafter : (backend.after (suite, tree) steps).1.Builtin :=
      after_of_answer (fun _ h => h.run) hbuiltin tree steps
    obtain ⟨outcome, hrun, hiff⟩ :=
      hafter.checksPaths stamp (backend.after (suite, tree) steps).2 c s
    -- both are first in the same list of paths, so there is one such path
    have hfirst : ∀ p fault, outcome = .error (.path p fault) ↔ s.FirstUnreadable p fault := by
      intro p fault
      rw [hiff _ ⟨p, fault, rfl⟩, Searcher.checkPaths_eq_error_iff]
      constructor
      · rintro ⟨p', fault', heq, hunreadable⟩
        obtain ⟨rfl, rfl⟩ := Failure.path.inj heq
        exact hunreadable
      · exact fun hunreadable => ⟨p, fault, rfl, hunreadable⟩
    refine ⟨outcome, congrArg (fun reply => reply.1.1) hrun, ?_, hfirst⟩
    rw [← Searcher.exists_firstUnreadable_iff]
    exact exists_congr fun p => exists_congr fun fault => hfirst p fault
  · intro c evaluator s
    refine ⟨fun failure => ?_, fun m hm e => ?_⟩
    · rw [Searcher.compile_eq_error_iff, Searcher.checkPaths_eq_error_iff]
    · obtain ⟨hholds, hfails⟩ := Searcher.compile_meaning hm e
      refine ⟨hholds, hfails, ?_⟩
      rintro rfl p fault htest
      exact CompiledSearcher.not_ofPath_of_test hm htest ⟨p, fault, rfl⟩

/-- A dispatcher over an empty store and an empty graph in documents. -/
def mixedGraph : Suite :=
  .dispatcher [("mem", .store Store.blank), ("fs", .engine (Engine.sample []))]
    ⟨[("Doc", "mem"), ("Note", "fs")], []⟩

/-- A searcher that holds of nothing and narrows to no type, with bad paths where no evaluation
    comes to. -/
def hiddenPaths : Searcher :=
  .all [.never, .typeEq "Doc", .typeEq "Note",
    .any [.always, .propertyEq "$.a[x]" .null, .propertyEq "$.." .null]]

/-- After a node has been created, the dispatcher still reports the first of the hidden paths; a
    searcher with an extension that nothing knows tests no entity with a failure for a path. -/
theorem search_checks_paths_first_hidden :
    mixedGraph.Builtin
      ∧ (∃ outcome : Outcome (List Node),
        (backend.answer ⟨"2", 11⟩ (.search .node hiddenPaths)
          (backend.after (mixedGraph, .sample)
            [⟨⟨"1", 10⟩, .create .node (Body.node "Doc" [])⟩])).1 = outcome
          ∧ outcome = .error (.path "$.a[x]" .badIndex))
      ∧ ∃ m : CompiledSearcher .node,
        (Searcher.any [.propertyEq "$.a" .null, .extension "other" .null]).compile .builtin = .ok m
          ∧ ∀ e p fault, m.test e ≠ .error (.path p fault) := by
  have hbuiltin : mixedGraph.Builtin := by
    refine .dispatcher fun member hmember => ?_
    obtain rfl | hmember := List.mem_cons.1 hmember
    · exact .store rfl
    · rw [List.mem_singleton.1 hmember]
      exact .engine rfl
  have hfirst : hiddenPaths.FirstUnreadable "$.a[x]" .badIndex :=
    ⟨[], ["$.."], rfl, fun _ hmem => absurd hmem List.not_mem_nil, by cbv⟩
  obtain ⟨m, hm⟩ : ∃ m : CompiledSearcher .node,
      (Searcher.any [.propertyEq "$.a" .null, .extension "other" .null]).compile .builtin = .ok m :=
    Searcher.compile_isOk _ (by cbv)
  refine ⟨hbuiltin, ?_, m, hm, fun e => ?_⟩
  · obtain ⟨outcome, hrun, -, houtcome⟩ :=
      search_checks_paths_first.1 mixedGraph hbuiltin .sample
        [⟨⟨"1", 10⟩, .create .node (Body.node "Doc" [])⟩] ⟨"2", 11⟩ .node hiddenPaths
    exact ⟨outcome, hrun, (houtcome _ _).2 hfirst⟩
  · exact ((search_checks_paths_first.2 .node .builtin _).2 m hm e).2.2 rfl

end Suite

end PropertyGraph
