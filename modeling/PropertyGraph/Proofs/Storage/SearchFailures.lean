/-
  PropertyGraph.Proofs.Storage.SearchFailures

  Why a search in documents fails.  Its paths are checked before any document is opened, and what
  comes after that has other failures only: files that are refused or malformed, types that name
  no file, extensions.  In particular the residuals of the plan, which are compiled document by
  document, have no paths but those that were checked.
-/
import PropertyGraph.Proofs.Searcher.Failures
import PropertyGraph.Proofs.Storage.FailureCauses

namespace PropertyGraph

variable {α β : Type} {c : EntityClass} {failure : Failure}

theorem Failure.OfFiles.not_ofPath (h : failure.OfFiles) : ¬ failure.OfPath := by
  rintro ⟨p, fault, rfl⟩
  exact h

/-! ## Tasks that do not fail for a path -/

/-- A task fails for no path, whatever the tree. -/
def FileTask.Pathless (task : FileTask α) : Prop :=
  ∀ tree failure, (task.exec tree).1 = .error failure → ¬ failure.OfPath

namespace FileTask

theorem pathless_pure (a : α) : (pure a : FileTask α).Pathless := failsOnly_pure a

theorem Pathless.bind {task : FileTask α} {next : α → FileTask β} (h : task.Pathless)
    (hnext : ∀ a, (next a).Pathless) : (task >>= next).Pathless := FailsOnly.bind h hnext

/-- A known outcome that is no failure about a path, and a task that goes on with it. -/
theorem pathless_ofOutcome_bind {o : Outcome α} {next : α → FileTask β}
    (h : ∀ failure, o = .error failure → ¬ failure.OfPath)
    (hnext : ∀ a, o = .ok a → (next a).Pathless) : (ofOutcome o >>= next).Pathless :=
  failsOnly_ofOutcome_bind h hnext

end FileTask

open FileTask

/-- A document is refused or malformed. -/
theorem Document.pathless_read (path : String) (payload : Json.Tree → Json.Decoded α) (absent : α) :
    (Document.read path payload absent).Pathless :=
  (Document.failsOnly_read path payload absent).mono fun _ h => h.not_ofPath

theorem Catalog.pathless_load (root : String) (c : EntityClass) (type : String) :
    (Catalog.load root c type).Pathless := by
  refine pathless_ofOutcome_bind (fun failure hfails => ?_) fun _ _ => Document.pathless_read _ _ _
  rw [Naming.checkType] at hfails
  split at hfails
  · cases hfails
  · rw [← Except.error.inj hfails]
    rintro ⟨p, fault, hpath⟩
    cases hpath

/-! ## Searches -/

namespace Engine

variable (g : Engine) {s : Searcher}

theorem pathless_view (e : Entity c) : (g.view e).Pathless :=
  g.failsOnly_view (show ¬ Failure.io.OfPath from Failure.OfFiles.not_ofPath trivial) e

/-- Looking through the entities of a document fails for no path, unless testing one does. -/
theorem pathless_keep {m : CompiledSearcher c}
    (hm : ∀ e failure, m.test e = .error failure → ¬ failure.OfPath) (entities : List (Entity c)) :
    (g.keep m entities).Pathless := by
  induction entities with
  | nil => exact pathless_pure _
  | cons e rest ih =>
    rw [keep]
    refine (g.pathless_view e).bind fun seen => ?_
    refine pathless_ofOutcome_bind (hm seen) fun hit _ => ?_
    exact ih.bind fun more => pathless_pure _

/-- Going through documents fails for no path, if the paths of all residuals can be read. -/
theorem pathless_scan (hbuiltin : g.evaluators.forClass c = Evaluator.builtin)
    {documents : List (String × Searcher)}
    (hpaths : ∀ document ∈ documents, document.2.checkPaths = .ok ()) :
    (g.scan c documents).Pathless := by
  induction documents with
  | nil => exact pathless_pure _
  | cons document rest ih =>
    obtain ⟨type, residual⟩ := document
    obtain ⟨hresidual, hrest⟩ := List.forall_mem_cons.1 hpaths
    rw [scan, hbuiltin]
    refine pathless_ofOutcome_bind (fun failure hfails => ?_) fun m hm => ?_
    · rw [Searcher.compile_eq_error_iff, hresidual] at hfails
      cases hfails
    · refine (Catalog.pathless_load g.root c type).bind fun entities => ?_
      have htest : ∀ e failure, m.test e = .error failure → ¬ failure.OfPath :=
        fun e failure => CompiledSearcher.not_ofPath_of_test hm
      refine (g.pathless_keep htest entities).bind fun found => ?_
      exact (ih hrest).bind fun more => pathless_pure _

/-- What a plan leaves to check has paths that can be read, if the searcher has. -/
theorem checkPaths_of_mem_documents {known : List String} {plan : Plan}
    (hpaths : s.checkPaths = .ok ()) (hplan : s.plan = .ok plan) {document : String × Searcher}
    (hmem : document ∈ documents known plan) : document.2.checkPaths = .ok () := by
  obtain ⟨type, residual⟩ := document
  cases plan with
  | everyType whole =>
    obtain rfl := Searcher.eq_of_plan_everyType hplan
    obtain ⟨known', -, heq⟩ := List.mem_map.1 hmem
    rw [← (Prod.mk.inj heq).2]
    exact hpaths
  | byType residuals =>
    exact Searcher.checkPaths_of_mem_residuals hpaths hplan (List.mem_filter.1 hmem).1

/-- A search in documents fails for a path exactly when its paths fail the check, and for the same
    path. -/
theorem exec_search_ofPath_iff (hbuiltin : g.evaluators.forClass c = Evaluator.builtin)
    (tree : FileTree) (hpath : failure.OfPath) :
    ((g.search c s).exec tree).1 = .error failure ↔ s.checkPaths = .error failure := by
  cases hpaths : s.checkPaths with
  | error other =>
    rw [search, hpaths]
    exact error_eq_error_iff
  | ok u =>
    obtain ⟨plan, hplan, -⟩ := Searcher.plan_keepsPaths s
    -- with paths that can be read, no step of the search has a path to complain of
    have hpathless : (g.search c s).Pathless := by
      rw [search, hpaths, hplan]
      refine pathless_ofOutcome_bind (fun _ h => by cases h) fun _ _ => ?_
      refine pathless_ofOutcome_bind (fun _ h => by cases h) fun plan' hplan' => ?_
      obtain rfl := Except.ok.inj hplan'
      split
      · exact pathless_pure _
      · refine (Document.pathless_read _ _ _).bind fun known => ?_
        exact g.pathless_scan hbuiltin fun _ => checkPaths_of_mem_documents hpaths hplan
    constructor
    · intro hfails
      exact absurd hpath (hpathless tree failure hfails)
    · intro h
      cases h

end Engine

end PropertyGraph
