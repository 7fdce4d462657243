/-
  PropertyGraph.Proofs.Backend

  Graphs as seen from outside: what a graph replies to a call, and the state that it is left
  in.  The state of the file engine is the file tree; that of a store in memory is the store
  with the file tree of its snapshot.
-/
import PropertyGraph.Memory.Store
import PropertyGraph.Proofs.Storage.Run

namespace PropertyGraph

open Engine (Step given)

/-- A graph with states of some type. -/
structure Backend (σ : Type) where
  answer : Stamp → (call : Call) → σ → Outcome call.Reply × σ

namespace Backend

variable {σ : Type}

/-- The state after a call, whatever the reply. -/
def advance (b : Backend σ) (s : σ) (step : Step) : σ := (b.answer step.stamp step.call s).2

/-- The state after a run of calls. -/
def after (b : Backend σ) (s : σ) (steps : List Step) : σ := steps.foldl b.advance s

theorem after_append (b : Backend σ) (s : σ) (steps : List Step) (step : Step) :
    b.after s (steps ++ [step]) = b.advance (b.after s steps) step := by
  simp [after, List.foldl_append]

end Backend

/-- The file engine from outside. -/
def Engine.backend (g : Engine) : Backend FileTree where
  answer stamp call tree := (g.answer stamp call).exec tree

/-- A store in memory from outside. -/
def Store.backend : Backend (Store × FileTree) where
  answer stamp call s :=
    let ((outcome, store), tree) := (s.1.answer stamp call).run s.2
    (outcome, store, tree)

/-! ## Proper runs -/

/-- The time and all values of a call are in range. -/
def Engine.Step.Proper (p : Number → Prop) (step : Step) : Prop :=
  match step.call with
  | .create _ body => TimeFits step.stamp.time ∧ body.Proper p
  | .edit _ _ patch => TimeFits step.stamp.time ∧ patch.Proper p
  | _ => True

/-- A run of proper calls that makes identities from distinct texts. -/
structure ProperRun (p : Number → Prop) (steps : List Step) : Prop where
  distinct : (given steps).Nodup
  proper : ∀ step ∈ steps, step.Proper p

variable {p : Number → Prop} {steps rest : List Step} {step : Step}

theorem ProperRun.before (h : ProperRun p (steps ++ rest)) : ProperRun p steps where
  distinct := Engine.distinct_before h.distinct
  proper other hmem := h.proper other (List.mem_append_left _ hmem)

theorem ProperRun.fresh (h : ProperRun p (steps ++ [step])) {unique : String}
    (hgiven : unique ∈ step.given) : unique ∉ given steps :=
  Engine.fresh_of_distinct h.distinct hgiven

theorem ProperRun.append (h : ProperRun p steps)
    (hfresh : ∀ unique ∈ step.given, unique ∉ given steps) (hproper : step.Proper p) :
    ProperRun p (steps ++ [step]) where
  distinct := Engine.distinct_append h.distinct hfresh
  proper other hmem := by
    rcases List.mem_append.1 hmem with hmem | hmem
    · exact h.proper other hmem
    · rw [List.mem_singleton.1 hmem]
      exact hproper

/-- Without rules every proper step is accepted. -/
theorem Engine.Step.Proper.accepts (h : step.Proper p) {g : Engine} (hrules : g.rules = []) :
    g.Accepts p step := by
  have hplain : ∀ c bag, g.PlainBag c bag := by
    intro c bag _ hsome
    exact absurd hrules hsome
  obtain ⟨stamp, call⟩ := step
  cases call with
  | create c body => exact ⟨h.1, h.2, hplain c _⟩
  | edit c id patch => exact ⟨h.1, h.2, fun _ _ => hplain c _⟩
  | _ => trivial

/-- An engine without raw texts allows every proper run. -/
theorem ProperRun.allows (h : ProperRun p steps) {g : Engine} (hrules : g.rules = []) :
    g.Allows p steps where
  distinct := h.distinct
  slashless hsome := absurd hrules hsome
  accepted step hmem := (h.proper step hmem).accepts hrules

end PropertyGraph
