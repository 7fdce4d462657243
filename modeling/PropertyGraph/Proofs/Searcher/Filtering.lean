/-
  PropertyGraph.Proofs.Searcher.Filtering

  What filtering a list comes to.  It succeeds exactly when all paths can be read and every
  entity of the list can be tested, and then keeps those that match.  A searcher that first
  asks for a type filters the entities of that type, and where extensions see nothing of
  identities, entities under other identities are filtered alike.
-/
import PropertyGraph.Proofs.Searcher.PlanSound
import PropertyGraph.Call

namespace PropertyGraph

variable {c : EntityClass} {evaluator : Evaluator c} {s : Searcher}

/-! ## Success -/

/-- Whether an entity can be tested and matches. -/
def Searcher.keeps (evaluator : Evaluator c) (s : Searcher) (e : Entity c) : Bool :=
  match s.test evaluator e with
  | .ok hit => hit
  | .error _ => false

theorem Searcher.keeps_eq_true {e : Entity c} :
    s.keeps evaluator e = true ↔ s.test evaluator e = .ok true := by
  rw [keeps]
  cases s.test evaluator e with
  | error failure => simp
  | ok hit => simp

/-- Whether an entity can be tested and matches. -/
def CompiledSearcher.keeps (m : CompiledSearcher c) (e : Entity c) : Bool :=
  match m.test e with
  | .ok hit => hit
  | .error _ => false

/-- A compiled searcher filters a list of which it can test every entity, and keeps those that
    match. -/
theorem CompiledSearcher.filter_eq_ok_iff {m : CompiledSearcher c} {es kept : List (Entity c)} :
    m.filter es = .ok kept
      ↔ (∀ e ∈ es, ∃ hit, m.test e = .ok hit) ∧ kept = es.filter m.keeps := by
  induction es generalizing kept with
  | nil => simp [filter, eq_comm]
  | cons e rest ih =>
    rw [filter, List.forall_mem_cons]
    cases htest : m.test e with
    | error failure => simp
    | ok hit =>
      have hkeeps : m.keeps e = hit := by rw [keeps, htest]
      simp only [List.filter_cons, hkeeps]
      constructor
      · intro h
        cases hmore : m.filter rest with
        | error failure => rw [hmore] at h; cases h
        | ok more =>
          obtain ⟨hall, rfl⟩ := ih.1 hmore
          rw [hmore] at h
          exact ⟨⟨⟨hit, rfl⟩, hall⟩, (Except.ok.inj h).symm⟩
      · rintro ⟨⟨-, hall⟩, rfl⟩
        rw [ih.2 ⟨hall, rfl⟩]

/-- When a list can be filtered, and what is kept of it. -/
theorem Searcher.filter_eq_ok_iff {es kept : List (Entity c)} :
    s.filter evaluator es = .ok kept ↔ s.checkPaths = .ok ()
      ∧ (∀ e ∈ es, ∃ hit, s.test evaluator e = .ok hit) ∧ kept = es.filter (s.keeps evaluator) := by
  cases hpaths : readPaths s.paths with
  | error failure =>
    have hcheck : s.checkPaths = .error failure := by rw [checkPaths, hpaths]; rfl
    have hfilter : s.filter evaluator es = .error failure := by
      rw [filter, compile, hpaths]
      rfl
    simp [hcheck, hfilter]
  | ok table =>
    have hcheck : s.checkPaths = .ok () := by rw [checkPaths, hpaths]; rfl
    have hfilter : s.filter evaluator es
        = CompiledSearcher.filter ⟨s, table, evaluator⟩ es := by
      rw [filter, compile, hpaths]
      rfl
    have htest : ∀ e, CompiledSearcher.test ⟨s, table, evaluator⟩ e = s.test evaluator e := by
      intro e
      rw [test, compile, hpaths]
      rfl
    have hkeeps : CompiledSearcher.keeps ⟨s, table, evaluator⟩ = s.keeps evaluator := by
      funext e
      rw [keeps, CompiledSearcher.keeps, htest]
    simp only [hcheck, hfilter, CompiledSearcher.filter_eq_ok_iff, htest, hkeeps, true_and]

/-- Of the entities of open types is kept what is kept of all. -/
theorem Plan.filter_keeps_open {plan : Plan} (h : plan.Faithful evaluator s)
    (es : List (Entity c)) :
    (es.filter fun e => plan.opens e.type).filter (s.keeps evaluator)
      = es.filter (s.keeps evaluator) := by
  rw [List.filter_filter]
  refine List.filter_congr fun e _ => ?_
  cases hkeeps : s.keeps evaluator e with
  | false => rw [Bool.false_and]
  | true => rw [opens_of_test h (Searcher.keeps_eq_true.1 hkeeps), Bool.true_and]

/-- A searcher whose paths cannot be read filters nothing. -/
theorem Searcher.filter_of_checkPaths {failure : Failure} (h : s.checkPaths = .error failure)
    (es : List (Entity c)) : s.filter evaluator es = .error failure := by
  rw [checkPaths] at h
  rw [filter, compile]
  cases hpaths : readPaths s.paths with
  | ok table => rw [hpaths] at h; cases h
  | error other =>
    rw [hpaths] at h
    obtain rfl : other = failure := Except.error.inj h
    rfl

/-! ## One type -/

/-- A searcher for one type and something more filters the entities of that type. -/
theorem Searcher.filter_typed (evaluator : Evaluator c) (type : String) (r : Searcher)
    (es : List (Entity c)) :
    Searcher.filter evaluator (.all [.typeEq type, r]) es
      = r.filter evaluator (es.filter fun e => e.type == type) := by
  have hpaths : (Searcher.all [.typeEq type, r]).paths = r.paths := by
    simp [paths, pathsAll]
  rw [filter, filter, compile, compile, hpaths]
  cases readPaths r.paths with
  | error failure => rfl
  | ok table =>
    show CompiledSearcher.filter ⟨.all [.typeEq type, r], table, evaluator⟩ es
      = CompiledSearcher.filter ⟨r, table, evaluator⟩ (es.filter fun e => e.type == type)
    induction es with
    | nil => rfl
    | cons e rest ih =>
      rw [CompiledSearcher.filter, ih, CompiledSearcher.test, CompiledSearcher.eval,
        CompiledSearcher.evalAll, CompiledSearcher.eval, List.filter_cons]
      -- entities of other types are passed over, before anything else is asked
      cases htype : e.type == type with
      | false =>
        simp only [Bool.false_eq_true, if_false]
        cases CompiledSearcher.filter ⟨r, table, evaluator⟩
          (rest.filter fun e => e.type == type) <;> rfl
      | true =>
        simp only [if_true, CompiledSearcher.evalAll, CompiledSearcher.filter,
          CompiledSearcher.test]
        rcases CompiledSearcher.eval evaluator table e r with failure | (_ | _) <;> rfl

/-- A searcher for one type and something more asks for more only where the type is right. -/
theorem Searcher.test_typed (evaluator : Evaluator c) (type : String) {r : Searcher}
    (hpaths : r.checkPaths = .ok ()) (e : Entity c) :
    Searcher.test evaluator (.all [.typeEq type, r]) e
      = if e.type == type then r.test evaluator e else .ok false := by
  have htyped : (Searcher.all [.typeEq type, r]).checkPaths = .ok () :=
    checkPaths_residual hpaths fun p => by simp [paths, pathsAll]
  rw [test_eq_holds evaluator htyped, test_eq_holds evaluator hpaths, holds, holdsAll, holds]
  cases e.type == type with
  | false => rfl
  | true =>
    simp only [if_true, holdsAll]
    rcases r.holds evaluator e with failure | (_ | _) <;> rfl

/-- Its plan is to look at that type. -/
theorem Searcher.plan_typed (type : String) {r : Searcher} (hplan : r.plan = .ok (.everyType r)) :
    (Searcher.all [.typeEq type, r]).plan = .ok (.byType [(type, .all [.always, r])]) := by
  rw [plan, planEach, planEach, planEach, hplan, plan]
  simp [Plan.ofAll, Plan.residuals?, Entries.keys, Plan.conjoin, Plan.residualsFor, Entries.get?,
    bind, Except.bind]

/-! ## Other identities -/

/-- Sees nothing of the identity of an entity. -/
def Evaluator.Blind (evaluator : Evaluator c) : Prop :=
  ∀ name args (e : Entity c) (id : Id),
    evaluator name args { e with id } = evaluator name args e

/-- Extensions see nothing of identities. -/
def Evaluators.Blind (evaluators : Evaluators) : Prop :=
  ∀ c, (evaluators.forClass c).Blind

theorem Evaluator.blind_builtin : (Evaluator.builtin : Evaluator c).Blind := by
  intro name args e id
  cases c <;> rfl

theorem Evaluator.blind_hasKey : (Evaluator.hasKey : Evaluator c).Blind := by
  intro name args e id
  rw [hasKey.eq_def, hasKey.eq_def, blind_builtin name args e id]

theorem Evaluators.blind_builtin : Evaluators.builtin.Blind := by
  intro c
  cases c <;> exact Evaluator.blind_builtin

mutual

theorem CompiledSearcher.eval_withId (h : evaluator.Blind) (table : Entries PropertyPath)
    (e : Entity c) (id : Id) : (s : Searcher) →
      CompiledSearcher.eval evaluator table { e with id } s
        = CompiledSearcher.eval evaluator table e s
  | .always => rfl
  | .never => rfl
  | .typeEq _ => rfl
  | .propertyEq _ _ => rfl
  | .extension name args => h name args e id
  | .all searchers => CompiledSearcher.evalAll_withId h table e id searchers
  | .any searchers => CompiledSearcher.evalAny_withId h table e id searchers
  | .not searcher => by
    rw [eval, eval, CompiledSearcher.eval_withId h table e id searcher]

theorem CompiledSearcher.evalAll_withId (h : evaluator.Blind) (table : Entries PropertyPath)
    (e : Entity c) (id : Id) : (ss : List Searcher) →
      CompiledSearcher.evalAll evaluator table { e with id } ss
        = CompiledSearcher.evalAll evaluator table e ss
  | [] => rfl
  | s :: rest => by
    rw [evalAll, evalAll, CompiledSearcher.eval_withId h table e id s,
      CompiledSearcher.evalAll_withId h table e id rest]

theorem CompiledSearcher.evalAny_withId (h : evaluator.Blind) (table : Entries PropertyPath)
    (e : Entity c) (id : Id) : (ss : List Searcher) →
      CompiledSearcher.evalAny evaluator table { e with id } ss
        = CompiledSearcher.evalAny evaluator table e ss
  | [] => rfl
  | s :: rest => by
    rw [evalAny, evalAny, CompiledSearcher.eval_withId h table e id s,
      CompiledSearcher.evalAny_withId h table e id rest]

end

/-- An entity under another identity is tested as it is under its own. -/
theorem Searcher.test_withId (h : evaluator.Blind) (s : Searcher) (e : Entity c) (id : Id) :
    s.test evaluator { e with id } = s.test evaluator e := by
  rw [test, test, compile]
  cases readPaths s.paths with
  | error failure => rfl
  | ok table => exact CompiledSearcher.eval_withId h table e id s

/-- Entities under other identities are filtered as they are under their own. -/
theorem Searcher.filter_withId (h : evaluator.Blind) (s : Searcher) (name : Entity c → Id)
    (es : List (Entity c)) :
    s.filter evaluator (es.map fun e => { e with id := name e })
      = (s.filter evaluator es).map (List.map fun e => { e with id := name e }) := by
  rw [filter, filter, compile]
  cases readPaths s.paths with
  | error failure => rfl
  | ok table =>
    show CompiledSearcher.filter ⟨s, table, evaluator⟩ _
      = (CompiledSearcher.filter ⟨s, table, evaluator⟩ es).map _
    induction es with
    | nil => rfl
    | cons e rest ih =>
      rw [List.map_cons, CompiledSearcher.filter, CompiledSearcher.filter, ih,
        CompiledSearcher.test, CompiledSearcher.test, CompiledSearcher.eval_withId h]
      rcases CompiledSearcher.eval evaluator table e s with failure | (_ | _)
      · rfl
      all_goals
        cases CompiledSearcher.filter ⟨s, table, evaluator⟩ rest <;> rfl

end PropertyGraph
