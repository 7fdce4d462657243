/-
  PropertyGraph.Proofs.Searcher.Failures

  Where a searcher fails.  There are two kinds of failure and they do not mix.  A path that cannot
  be read is reported when the searcher is compiled, the first of them in the order in which the
  searcher lists its paths, whatever stands around it.  Once compiled, a searcher fails only at an
  extension that the evaluation comes to: all that a conjunction has to its left held, and nothing
  that a disjunction has to its left did.
-/
import PropertyGraph.Proofs.Searcher.Extensions

namespace PropertyGraph

variable {c : EntityClass} {evaluator : Evaluator c} {e : Entity c} {s : Searcher}
  {failure : Failure}

/-! ## Failures about paths -/

/-- Two outcomes with the same failure fail alike, whatever they are outcomes of. -/
theorem error_eq_error_iff {α β : Type} {other : Failure} :
    (Except.error other : Outcome α) = .error failure
      ↔ (Except.error other : Outcome β) = .error failure := by
  simp

/-- A failure about a path. -/
def Failure.OfPath (failure : Failure) : Prop := ∃ p fault, failure = .path p fault

/-- A path that cannot be read is reported by its own text. -/
theorem PropertyPath.ofPath_of_read {p : String} (h : PropertyPath.read p = .error failure) :
    ∃ fault, failure = .path p fault := by
  rw [PropertyPath.read] at h
  split at h
  · cases h
  · next fault _ => exact ⟨fault, (Except.error.inj h).symm⟩

namespace Searcher

/-! ## Compiling -/

/-- Reading paths one by one fails at the first that cannot be read. -/
theorem readPaths_eq_error_iff {ps : List String} :
    readPaths ps = .error failure ↔ ∃ before p after, ps = before ++ p :: after
      ∧ (∀ q ∈ before, ∃ path, PropertyPath.read q = .ok path)
      ∧ PropertyPath.read p = .error failure := by
  constructor
  · intro h
    induction ps with
    | nil => cases h
    | cons p rest ih =>
      cases hp : PropertyPath.read p with
      | error other =>
        rw [readPaths, hp] at h
        rw [Except.error.inj h] at hp
        exact ⟨[], p, rest, rfl, fun _ hmem => absurd hmem List.not_mem_nil, hp⟩
      | ok path =>
        have hrest : readPaths rest = .error failure := by
          rw [readPaths, hp] at h
          cases hmore : readPaths rest with
          | error other =>
            rw [hmore] at h
            rw [Except.error.inj h]
          | ok more =>
            rw [hmore] at h
            cases h
        -- this path can be read, so it stands before the first that cannot
        obtain ⟨before, q, after, rfl, hbefore, hq⟩ := ih hrest
        exact ⟨p :: before, q, after, rfl, List.forall_mem_cons.2 ⟨⟨path, hp⟩, hbefore⟩, hq⟩
  · rintro ⟨before, p, after, rfl, hbefore, hp⟩
    induction before with
    | nil =>
      rw [List.nil_append, readPaths, hp]
      rfl
    | cons q before ih =>
      obtain ⟨⟨path, hq⟩, hbefore⟩ := List.forall_mem_cons.1 hbefore
      rw [List.cons_append, readPaths, hq]
      show (readPaths (before ++ p :: after) >>= _) = _
      rw [ih hbefore]
      rfl

/-- The first path of a searcher that cannot be read, and why it cannot. -/
def FirstUnreadable (s : Searcher) (p : String) (fault : PathFault) : Prop :=
  ∃ before after, s.paths = before ++ p :: after
    ∧ (∀ q ∈ before, ∃ path, PropertyPath.read q = .ok path)
    ∧ PropertyPath.read p = .error (.path p fault)

/-- Reading the paths of a searcher fails for the first that cannot be read and for nothing
    else. -/
theorem readPaths_paths_eq_error_iff :
    readPaths s.paths = .error failure
      ↔ ∃ p fault, failure = .path p fault ∧ s.FirstUnreadable p fault := by
  rw [readPaths_eq_error_iff]
  constructor
  · rintro ⟨before, p, after, hpaths, hbefore, hp⟩
    obtain ⟨fault, rfl⟩ := PropertyPath.ofPath_of_read hp
    exact ⟨p, fault, rfl, before, after, hpaths, hbefore, hp⟩
  · rintro ⟨p, fault, rfl, before, after, hpaths, hbefore, hp⟩
    exact ⟨before, p, after, hpaths, hbefore, hp⟩

theorem checkPaths_eq_error_iff :
    s.checkPaths = .error failure
      ↔ ∃ p fault, failure = .path p fault ∧ s.FirstUnreadable p fault := by
  rw [← readPaths_paths_eq_error_iff, checkPaths]
  cases readPaths s.paths with
  | error other => exact error_eq_error_iff
  | ok table => constructor <;> (intro h; cases h)

/-- Compiling fails where checking the paths does, and for the same reason. -/
theorem compile_eq_error_iff :
    s.compile evaluator = .error failure ↔ s.checkPaths = .error failure := by
  rw [compile, checkPaths]
  cases readPaths s.paths with
  | error other => exact error_eq_error_iff
  | ok table => constructor <;> (intro h; cases h)

theorem checkPaths_of_compile {m : CompiledSearcher c} (h : s.compile evaluator = .ok m) :
    s.checkPaths = .ok () := by
  cases hpaths : s.checkPaths with
  | ok u => rfl
  | error other =>
    rw [compile_eq_error_iff.2 hpaths] at h
    cases h

/-- A searcher has a first path that cannot be read as soon as it has one at all. -/
theorem exists_firstUnreadable_iff :
    (∃ p fault, s.FirstUnreadable p fault)
      ↔ ∃ p ∈ s.paths, ¬ ∃ path, PropertyPath.read p = .ok path := by
  constructor
  · rintro ⟨p, fault, before, after, hpaths, -, hp⟩
    refine ⟨p, hpaths ▸ List.mem_append_right _ (List.mem_cons_self ..), ?_⟩
    rintro ⟨path, hpath⟩
    rw [hp] at hpath
    cases hpath
  · rintro ⟨p, hmem, hp⟩
    cases hpaths : s.checkPaths with
    | ok u => exact absurd ((checkPaths_ok_iff s).1 hpaths p hmem) hp
    | error other =>
      obtain ⟨q, fault, -, hfirst⟩ := checkPaths_eq_error_iff.1 hpaths
      exact ⟨q, fault, hfirst⟩

/-- A plan that leaves all types open keeps the searcher. -/
theorem eq_of_plan_everyType {whole : Searcher} (hplan : s.plan = .ok (.everyType whole)) :
    whole = s := by
  obtain ⟨plan, hplan', hkeeps⟩ := plan_keepsPaths s
  obtain rfl : plan = .everyType whole := Except.ok.inj (hplan'.symm.trans hplan)
  exact hkeeps

/-- A plan that names types leaves searchers to be checked whose paths can be read, if those of
    the searcher can. -/
theorem checkPaths_of_mem_residuals {residuals : Entries Searcher} (hpaths : s.checkPaths = .ok ())
    (hplan : s.plan = .ok (.byType residuals)) {type : String} {residual : Searcher}
    (hmem : (type, residual) ∈ residuals) : residual.checkPaths = .ok () := by
  obtain ⟨plan, hplan', hkeeps⟩ := plan_keepsPaths s
  obtain rfl : plan = .byType residuals := Except.ok.inj (hplan'.symm.trans hplan)
  -- there is one residual at most, so that its type finds it
  obtain rfl : residuals = [(type, residual)] := by
    match residuals, length_residuals s hplan with
    | [only], _ => rw [List.mem_singleton.1 hmem]
  exact checkPaths_residual hpaths (hkeeps type residual (by simp [Entries.get?]))

/-! ## Evaluating -/

/-- Evaluation from left to right, which stops where the result is known, comes to an
    extension. -/
inductive Reaches (evaluator : Evaluator c) (e : Entity c) : Searcher → String → Json → Prop
  | extension {name : String} {args : Json} : Reaches evaluator e (.extension name args) name args
  | not {s : Searcher} {name : String} {args : Json} :
    Reaches evaluator e s name args → Reaches evaluator e (.not s) name args
  /-- everything to the left of the part that is reached holds -/
  | all {before after : List Searcher} {s : Searcher} {name : String} {args : Json} :
    (∀ t ∈ before, t.holds evaluator e = .ok true) → Reaches evaluator e s name args →
    Reaches evaluator e (.all (before ++ s :: after)) name args
  /-- nothing to the left of the part that is reached holds -/
  | any {before after : List Searcher} {s : Searcher} {name : String} {args : Json} :
    (∀ t ∈ before, t.holds evaluator e = .ok false) → Reaches evaluator e s name args →
    Reaches evaluator e (.any (before ++ s :: after)) name args

/-- A list of searchers that is gone through while they answer `goOn` fails at the first that
    fails. -/
theorem eq_error_iff_of_cons {run : List Searcher → Outcome Bool} {goOn : Bool}
    (hnil : ∀ failure, run [] ≠ .error failure)
    (hfails : ∀ s rest failure, s.holds evaluator e = .error failure →
      run (s :: rest) = .error failure)
    (hgoes : ∀ s rest, s.holds evaluator e = .ok goOn → run (s :: rest) = run rest)
    (hstops : ∀ s rest failure, s.holds evaluator e = .ok (!goOn) →
      run (s :: rest) ≠ .error failure) {ss : List Searcher} :
    run ss = .error failure ↔ ∃ before s after, ss = before ++ s :: after
      ∧ (∀ t ∈ before, t.holds evaluator e = .ok goOn)
      ∧ s.holds evaluator e = .error failure := by
  constructor
  · intro h
    induction ss with
    | nil => exact absurd h (hnil failure)
    | cons first rest ih =>
      cases hfirst : first.holds evaluator e with
      | error other =>
        rw [hfails first rest other hfirst] at h
        rw [Except.error.inj h] at hfirst
        exact ⟨[], first, rest, rfl, fun _ hmem => absurd hmem List.not_mem_nil, hfirst⟩
      | ok hit =>
        by_cases hhit : hit = goOn
        · subst hhit
          rw [hgoes first rest hfirst] at h
          obtain ⟨before, s, after, rfl, hbefore, hs⟩ := ih h
          exact ⟨first :: before, s, after, rfl, List.forall_mem_cons.2 ⟨hfirst, hbefore⟩, hs⟩
        · -- the result was known here, and nothing behind was evaluated
          rw [Bool.eq_not.2 hhit] at hfirst
          exact absurd h (hstops first rest failure hfirst)
  · rintro ⟨before, s, after, rfl, hbefore, hs⟩
    induction before with
    | nil => exact hfails s after failure hs
    | cons first before ih =>
      obtain ⟨hfirst, hbefore⟩ := List.forall_mem_cons.1 hbefore
      rw [List.cons_append, hgoes first _ hfirst]
      exact ih hbefore

/-- A conjunction fails at a part that it comes to, all parts before having held. -/
theorem holdsAll_eq_error_iff {ss : List Searcher} :
    holdsAll evaluator e ss = .error failure ↔ ∃ before s after, ss = before ++ s :: after
      ∧ (∀ t ∈ before, t.holds evaluator e = .ok true)
      ∧ s.holds evaluator e = .error failure := by
  refine eq_error_iff_of_cons (fun _ h => by cases h) ?_ ?_ ?_
  · intro s rest failure hs
    rw [holdsAll, hs]
  · intro s rest hs
    rw [holdsAll, hs]
  · intro s rest failure hs
    rw [holdsAll, hs]
    nofun

/-- A disjunction fails at a part that it comes to, no part before having held. -/
theorem holdsAny_eq_error_iff {ss : List Searcher} :
    holdsAny evaluator e ss = .error failure ↔ ∃ before s after, ss = before ++ s :: after
      ∧ (∀ t ∈ before, t.holds evaluator e = .ok false)
      ∧ s.holds evaluator e = .error failure := by
  refine eq_error_iff_of_cons (fun _ h => by cases h) ?_ ?_ ?_
  · intro s rest failure hs
    rw [holdsAny, hs]
  · intro s rest hs
    rw [holdsAny, hs]
  · intro s rest failure hs
    rw [holdsAny, hs]
    nofun

theorem holds_not_eq_error_iff :
    (Searcher.not s).holds evaluator e = .error failure ↔ s.holds evaluator e = .error failure := by
  rw [holds]
  cases s.holds evaluator e with
  | error other => exact Iff.rfl
  | ok hit => exact ⟨nofun, nofun⟩

theorem mem_pathsAll {ss : List Searcher} (hs : s ∈ ss) {p : String} (hp : p ∈ s.paths) :
    p ∈ pathsAll ss := by
  induction ss with
  | nil => cases hs
  | cons first rest ih =>
    obtain rfl | hrest := List.mem_cons.1 hs
    · exact List.mem_append_left _ hp
    · exact List.mem_append_right _ (ih hrest)

/-- A searcher whose paths can be read comes to an extension wherever it fails. -/
theorem reaches_of_holds (s : Searcher)
    (hpaths : ∀ p ∈ s.paths, ∃ path, PropertyPath.read p = .ok path)
    (h : s.holds evaluator e = .error failure) :
    ∃ name args, s.Reaches evaluator e name args ∧ evaluator name args e = .error failure := by
  match s with
  | .always => cases h
  | .never => cases h
  | .typeEq type => cases h
  | .propertyEq path value =>
    -- only the path of a comparison can make it fail, and that can be read
    obtain ⟨p, hread⟩ := hpaths path (List.mem_singleton.2 rfl)
    rw [holds, hread] at h
    cases h
  | .extension name args => exact ⟨name, args, .extension, h⟩
  | .not searcher =>
    obtain ⟨name, args, hreaches, hfails⟩ :=
      reaches_of_holds searcher hpaths (holds_not_eq_error_iff.1 h)
    exact ⟨name, args, .not hreaches, hfails⟩
  | .all searchers =>
    obtain ⟨before, t, after, heq, hbefore, ht⟩ := holdsAll_eq_error_iff.1 h
    have hmem : t ∈ searchers := heq ▸ List.mem_append_right _ (List.mem_cons_self ..)
    obtain ⟨name, args, hreaches, hfails⟩ :=
      reaches_of_holds t (fun p hp => hpaths p (mem_pathsAll hmem hp)) ht
    exact ⟨name, args, heq ▸ .all hbefore hreaches, hfails⟩
  | .any searchers =>
    obtain ⟨before, t, after, heq, hbefore, ht⟩ := holdsAny_eq_error_iff.1 h
    have hmem : t ∈ searchers := heq ▸ List.mem_append_right _ (List.mem_cons_self ..)
    obtain ⟨name, args, hreaches, hfails⟩ :=
      reaches_of_holds t (fun p hp => hpaths p (mem_pathsAll hmem hp)) ht
    exact ⟨name, args, heq ▸ .any hbefore hreaches, hfails⟩
termination_by s

/-- An extension that is reached and fails makes the searcher fail. -/
theorem Reaches.holds_eq_error {name : String} {args : Json} (h : s.Reaches evaluator e name args)
    (hfails : evaluator name args e = .error failure) : s.holds evaluator e = .error failure := by
  induction h with
  | extension => exact hfails
  | not _ ih => exact holds_not_eq_error_iff.2 (ih hfails)
  | all hbefore _ ih => exact holdsAll_eq_error_iff.2 ⟨_, _, _, rfl, hbefore, ih hfails⟩
  | any hbefore _ ih => exact holdsAny_eq_error_iff.2 ⟨_, _, _, rfl, hbefore, ih hfails⟩

/-- A compiled searcher tests an entity as the searcher means it, and fails exactly at an extension
    that the evaluation comes to, as that extension does. -/
theorem compile_meaning {m : CompiledSearcher c} (h : s.compile evaluator = .ok m) (e : Entity c) :
    m.test e = s.holds evaluator e
      ∧ ∀ failure, m.test e = .error failure
        ↔ ∃ name args, s.Reaches evaluator e name args
          ∧ evaluator name args e = .error failure := by
  have hpaths := checkPaths_of_compile h
  have htest : m.test e = s.holds evaluator e :=
    (compile_test h e).trans (test_eq_holds evaluator hpaths e)
  refine ⟨htest, fun failure => ?_⟩
  rw [htest]
  constructor
  · exact reaches_of_holds s ((checkPaths_ok_iff s).1 hpaths)
  · rintro ⟨name, args, hreaches, hfails⟩
    exact hreaches.holds_eq_error hfails

end Searcher

/-! ## The built-in extensions -/

/-- An extension that is built in fails for its name, its class or its arguments. -/
theorem Evaluator.not_ofPath_of_builtin {name : String} {args : Json}
    (h : Evaluator.builtin name args e = .error failure) : ¬ failure.OfPath := by
  rintro ⟨p, fault, rfl⟩
  rw [Evaluator.builtin] at h
  split at h
  · split at h
    · cases h
    · split at h <;> cases h
  · cases h

/-- No entity makes a compiled searcher with the built-in extensions fail for a path. -/
theorem CompiledSearcher.not_ofPath_of_test {m : CompiledSearcher c}
    (h : s.compile Evaluator.builtin = .ok m) (htest : m.test e = .error failure) :
    ¬ failure.OfPath := by
  obtain ⟨-, hfails⟩ := Searcher.compile_meaning h e
  obtain ⟨name, args, -, hbuiltin⟩ := (hfails failure).1 htest
  exact Evaluator.not_ofPath_of_builtin hbuiltin

end PropertyGraph
