/-
  PropertyGraph.Proofs.Searcher.Extensions

  Why testing an entity can fail at all.  Once the paths of a searcher can be read, only its
  extensions are left to fail.  Where they all are adjacency, tested on relationships, malformed
  arguments are the only reason; where the arguments are well-formed besides, nothing fails.
-/
import PropertyGraph.Proofs.Searcher.Filtering

namespace PropertyGraph

variable {c : EntityClass} {evaluator : Evaluator c} {s : Searcher}

namespace Searcher

/-! ## Extensions of a kind -/

mutual

/-- All extensions in a searcher are of some kind. -/
def Extends (kind : String → Json → Prop) : Searcher → Prop
  | .extension name args => kind name args
  | .all searchers => ExtendsEach kind searchers
  | .any searchers => ExtendsEach kind searchers
  | .not searcher => Extends kind searcher
  | _ => True

/-- All extensions in several searchers are of some kind. -/
def ExtendsEach (kind : String → Json → Prop) : List Searcher → Prop
  | [] => True
  | s :: rest => Extends kind s ∧ ExtendsEach kind rest

end

/-- All extensions are adjacency, in a searcher for relationships. -/
def AdjacencyOnly (c : EntityClass) (s : Searcher) : Prop :=
  s.Extends fun name _ => c = .relationship ∧ name = adjacencyName

/-- All extensions are adjacency, in a searcher for relationships, with arguments that can be
    read. -/
def WellFormed (c : EntityClass) (s : Searcher) : Prop :=
  s.Extends fun name args =>
    c = .relationship ∧ name = adjacencyName ∧ ∃ a, Adjacency.decode (.ofJson args) = .ok a

/-! ## Failures of a test -/

section Failures

variable {kind : String → Json → Prop} {cause : Failure → Prop} {e : Entity c}

/-- Extensions of a kind fail for certain causes only. -/
def FailsFor (evaluator : Evaluator c) (e : Entity c) (kind : String → Json → Prop)
    (cause : Failure → Prop) : Prop :=
  ∀ name args failure, kind name args → evaluator name args e = .error failure → cause failure

mutual

/-- With paths that can be read, a searcher fails for no other causes than its extensions. -/
theorem cause_of_holds (h : FailsFor evaluator e kind cause) : (s : Searcher) →
    (∀ p ∈ s.paths, ∃ path, PropertyPath.read p = .ok path) → s.Extends kind →
    ∀ failure, s.holds evaluator e = .error failure → cause failure
  | .always, _, _, _, hfails => by cases hfails
  | .never, _, _, _, hfails => by cases hfails
  | .typeEq _, _, _, _, hfails => by cases hfails
  | .propertyEq path value, hpaths, _, _, hfails => by
    obtain ⟨p, hread⟩ := hpaths path (by simp [paths])
    rw [holds, hread] at hfails
    cases hfails
  | .all searchers, hpaths, hkind, failure, hfails =>
    cause_of_holdsAll h searchers hpaths hkind failure hfails
  | .any searchers, hpaths, hkind, failure, hfails =>
    cause_of_holdsAny h searchers hpaths hkind failure hfails
  | .not searcher, hpaths, hkind, failure, hfails => by
    refine cause_of_holds h searcher hpaths hkind failure ?_
    rw [holds] at hfails
    cases hheld : searcher.holds evaluator e with
    | ok hit => rw [hheld] at hfails; cases hfails
    | error other =>
      rw [hheld] at hfails
      exact congrArg Except.error (Except.error.inj hfails)
  | .extension name args, _, hkind, failure, hfails => h name args failure hkind hfails

theorem cause_of_holdsAll (h : FailsFor evaluator e kind cause) : (ss : List Searcher) →
    (∀ p ∈ pathsAll ss, ∃ path, PropertyPath.read p = .ok path) → ExtendsEach kind ss →
    ∀ failure, holdsAll evaluator e ss = .error failure → cause failure
  | [], _, _, _, hfails => by cases hfails
  | s :: rest, hpaths, hkind, failure, hfails => by
    rw [holdsAll] at hfails
    rcases hheld : s.holds evaluator e with other | (_ | _)
    · rw [hheld] at hfails
      refine cause_of_holds h s (fun p hp => hpaths p ?_) hkind.1 failure (hheld.trans hfails)
      exact List.mem_append_left _ hp
    · rw [hheld] at hfails
      cases hfails
    · rw [hheld] at hfails
      refine cause_of_holdsAll h rest (fun p hp => hpaths p ?_) hkind.2 failure hfails
      exact List.mem_append_right _ hp

theorem cause_of_holdsAny (h : FailsFor evaluator e kind cause) : (ss : List Searcher) →
    (∀ p ∈ pathsAll ss, ∃ path, PropertyPath.read p = .ok path) → ExtendsEach kind ss →
    ∀ failure, holdsAny evaluator e ss = .error failure → cause failure
  | [], _, _, _, hfails => by cases hfails
  | s :: rest, hpaths, hkind, failure, hfails => by
    rw [holdsAny] at hfails
    rcases hheld : s.holds evaluator e with other | (_ | _)
    · rw [hheld] at hfails
      refine cause_of_holds h s (fun p hp => hpaths p ?_) hkind.1 failure (hheld.trans hfails)
      exact List.mem_append_left _ hp
    · rw [hheld] at hfails
      refine cause_of_holdsAny h rest (fun p hp => hpaths p ?_) hkind.2 failure hfails
      exact List.mem_append_right _ hp
    · rw [hheld] at hfails
      cases hfails

end

/-- With paths that can be read, a test fails for no other causes than the extensions. -/
theorem cause_of_test (cause : Failure → Prop) (h : FailsFor evaluator e kind cause) (hpaths : s.checkPaths = .ok ())
    (hkind : s.Extends kind) {failure : Failure} (hfails : s.test evaluator e = .error failure) :
    cause failure := by
  rw [test_eq_holds evaluator hpaths] at hfails
  exact cause_of_holds h s ((checkPaths_ok_iff s).1 hpaths) hkind failure hfails

end Failures

/-- A filter that fails does so at a path or at one of the entities. -/
theorem filter_eq_error {es : List (Entity c)} {failure : Failure}
    (h : s.filter evaluator es = .error failure) :
    s.checkPaths = .error failure
      ∨ s.checkPaths = .ok () ∧ ∃ e ∈ es, s.test evaluator e = .error failure := by
  cases hpaths : s.checkPaths with
  | error other =>
    rw [filter_of_checkPaths hpaths] at h
    exact .inl (congrArg Except.error (Except.error.inj h))
  | ok u =>
    refine .inr ⟨rfl, ?_⟩
    obtain ⟨m, hm⟩ := compile_isOk evaluator hpaths
    have hfilter : m.filter es = .error failure := by
      rw [filter, hm] at h
      exact h
    -- from here on nothing depends on how the searcher was compiled
    have htest : ∀ e, m.test e = s.test evaluator e := compile_test hm
    clear h
    induction es with
    | nil => cases hfilter
    | cons e rest ih =>
      rw [CompiledSearcher.filter, htest e] at hfilter
      cases hfirst : s.test evaluator e with
      | error other =>
        rw [hfirst] at hfilter
        obtain rfl : other = failure := Except.error.inj hfilter
        exact ⟨e, List.mem_cons_self .., hfirst⟩
      | ok hit =>
        cases hmore : m.filter rest with
        | error other =>
          rw [hfirst, hmore] at hfilter
          obtain rfl : other = failure := Except.error.inj hfilter
          obtain ⟨x, hx, hfails⟩ := ih hmore
          exact ⟨x, List.mem_cons_of_mem _ hx, hfails⟩
        | ok more =>
          rw [hfirst, hmore] at hfilter
          cases hfilter

/-! ## Adjacency -/

/-- Adjacency fails on a relationship only when its arguments cannot be read. -/
theorem builtin_adjacency {args : Json} {e : Entity c} (hclass : c = .relationship)
    {failure : Failure} (h : Evaluator.builtin adjacencyName args e = .error failure) :
    failure = .malformed ∧ ¬ ∃ a, Adjacency.decode (.ofJson args) = .ok a := by
  subst hclass
  rw [Evaluator.builtin, if_pos rfl] at h
  simp only [Entity.endpoints?] at h
  split at h
  · cases h
  · next hfault =>
    obtain rfl := Except.error.inj h
    refine ⟨rfl, ?_⟩
    rintro ⟨a, ha⟩
    rw [ha] at hfault
    cases hfault

/-- With paths that can be read and adjacency only, malformed arguments are the only reason for a
    test to fail. -/
theorem AdjacencyOnly.malformed_of_test (h : s.AdjacencyOnly c) (hpaths : s.checkPaths = .ok ())
    {e : Entity c} {failure : Failure} (hfails : s.test Evaluator.builtin e = .error failure) :
    failure = .malformed := by
  refine cause_of_test (· = .malformed) ?_ hpaths h hfails
  rintro name args failure ⟨hclass, rfl⟩ hbuiltin
  exact (builtin_adjacency hclass hbuiltin).1

/-- With paths that can be read and well-formed adjacency, every entity can be tested. -/
theorem WellFormed.test_isOk (h : s.WellFormed c) (hpaths : s.checkPaths = .ok ())
    (e : Entity c) : ∃ hit, s.test Evaluator.builtin e = .ok hit := by
  cases htest : s.test Evaluator.builtin e with
  | ok hit => exact ⟨hit, rfl⟩
  | error failure =>
    refine (cause_of_test (fun _ => False) ?_ hpaths h htest).elim
    rintro name args failure ⟨hclass, rfl, hread⟩ hbuiltin
    exact (builtin_adjacency hclass hbuiltin).2 hread

/-- A well-formed searcher filters every list. -/
theorem WellFormed.filter_eq (h : s.WellFormed c) (hpaths : s.checkPaths = .ok ())
    (es : List (Entity c)) :
    s.filter Evaluator.builtin es = .ok (es.filter (s.keeps Evaluator.builtin)) :=
  filter_eq_ok_iff.2 ⟨hpaths, fun e _ => h.test_isOk hpaths e, rfl⟩

end Searcher

end PropertyGraph
