/-
  PropertyGraph.Proofs.Routing.Succession

  What becomes of the members of a dispatcher.  Whatever call a dispatcher answers, it goes on as a
  dispatcher with the same owners, and each of its members is one of the members before or what a
  member before has become by answering a call itself.  So what every call leaves true of stores
  and of graphs in documents stays true throughout a graph, to any depth.
-/
import PropertyGraph.Proofs.Routing.Dispatching

namespace PropertyGraph

open Engine (Step)

variable {c : EntityClass} {stamp : Stamp} {tree : FileTree}

/-! ## Stores -/

namespace Store

/-- What a store is and remains through every change of its state it remains through every call. -/
theorem run_of_change {P : Store → Prop} {store : Store} (h : P store)
    (hchange : ∀ {α : Type} (f : GraphState → Outcome α × GraphState),
      P ((store.change f).run tree).1.2) (stamp : Stamp) (call : Call) :
    P ((store.answer stamp call).run tree).1.2 := by
  have hlook : ∀ {α : Type} (f : GraphState → Outcome α), P ((store.look f).run tree).1.2 := by
    intro α f
    rw [look, FileProgram.run_bind]
    exact h
  have hkey : ∀ {α : Type} (id : Id) (f : String → FileProgram (Outcome α × Store)),
      (∀ key, P ((f key).run tree).1.2) → P ((store.withKey id f).run tree).1.2 := by
    intro α id f hf
    rw [withKey]
    cases id.requireText with
    | error failure => exact h
    | ok key => exact hf key
  -- only the three calls that write go through a change of the state
  cases call with
  | get c id => exact hkey id _ fun key => hlook _
  | search c s =>
    rw [answer]
    cases s.compile (store.evaluators.forClass c) with
    | error failure => exact h
    | ok m => exact hlook _
  | create c body => exact hchange _
  | edit c id patch => exact hkey id _ fun key => hchange _
  | remove c id => exact hkey id _ fun key => hchange _
  | types c => exact hlook _

/-- A call leaves the evaluators of a store as they are. -/
theorem evaluators_run (store : Store) (stamp : Stamp) (call : Call) (tree : FileTree) :
    ((store.answer stamp call).run tree).1.2.evaluators = store.evaluators := by
  refine run_of_change (P := fun store' => store'.evaluators = store.evaluators) rfl ?_ stamp call
  intro α f
  rw [change, FileProgram.run_bind]
  rfl

/-- A store that keeps its state in a snapshot is the same store after a call. -/
theorem run_of_snapshot {store : Store} {path : String} (h : store.keeper = .snapshot path)
    (stamp : Stamp) (call : Call) (tree : FileTree) :
    ((store.answer stamp call).run tree).1.2 = store := by
  refine run_of_change (P := (· = store)) rfl ?_ stamp call
  intro α f
  rw [change, h, Keeper.update]
  simp only [FileProgram.run_bind, FileProgram.run_pure]
  rw [← h]

end Store

/-! ## Dispatchers -/

namespace Suite

variable {members members' : List (String × Suite)} {owners : Owners}

/-- The members keep their names, and each is one of the members before, or what one of them has
    become by a call. -/
structure Succeed (stamp : Stamp) (tree : FileTree) (members members' : List (String × Suite)) :
    Prop where
  names : Entries.keys members' = Entries.keys members
  each : ∀ member ∈ members', member ∈ members
    ∨ ∃ suite call, (member.1, suite) ∈ members
      ∧ member.2 = ((answer stamp suite call).run tree).1.2

theorem Succeed.refl (stamp : Stamp) (tree : FileTree) (members : List (String × Suite)) :
    Succeed stamp tree members members := ⟨rfl, fun _ => .inl⟩

/-- A property that calls leave to suites is left to members. -/
theorem Succeed.all (h : Succeed stamp tree members members') {P : Suite → Prop}
    (hmembers : ∀ member ∈ members, P member.2 ∧
      ∀ call, P ((answer stamp member.2 call).run tree).1.2) : ∀ member ∈ members', P member.2 := by
  intro member hmember
  obtain hold | ⟨suite, call, hsuite, hbecame⟩ := h.each member hmember
  · exact (hmembers member hold).1
  · rw [hbecame]
    exact (hmembers _ hsuite).2 call

theorem succeed_answerIn (name : String) (call : Call) :
    Succeed stamp tree members ((answerIn stamp members name call).run tree).1.2 := by
  cases hmember : Entries.get? name members with
  | none =>
    rw [run_answerIn_of_none hmember]
    exact .refl stamp tree members
  | some suite =>
    rw [run_answerIn_of_some hmember]
    refine ⟨Entries.keys_insert_of_mem (Entries.mem_keys_iff.2 ⟨suite, hmember⟩) _, ?_⟩
    intro member hmem
    obtain rfl | hold := Entries.mem_insert hmem
    · exact .inr ⟨suite, call, Entries.mem_of_get? hmember, rfl⟩
    · exact .inl hold

/-- A dispatcher goes on as a dispatcher with the same owners. -/
theorem run_dispatcher (members : List (String × Suite)) (owners : Owners) (stamp : Stamp)
    (call : Call) (tree : FileTree) : ∃ members',
      ((answer stamp (.dispatcher members owners) call).run tree).1.2 = .dispatcher members' owners
        ∧ Succeed stamp tree members members' := by
  -- a search or a list of types only asks, and any other call goes to one member
  cases call with
  | get c id =>
    rw [answer]
    split
    · exact ⟨members, rfl, .refl stamp tree members⟩
    · rw [FileProgram.run_bind]
      exact ⟨_, rfl, succeed_answerIn _ _⟩
  | search c s =>
    rw [answer]
    split
    · exact ⟨members, rfl, .refl stamp tree members⟩
    · rw [FileProgram.run_bind]
      exact ⟨members, rfl, .refl stamp tree members⟩
  | create c body =>
    rw [answer]
    split
    · exact ⟨members, rfl, .refl stamp tree members⟩
    · rw [FileProgram.run_bind]
      exact ⟨_, rfl, succeed_answerIn _ _⟩
  | edit c id patch =>
    rw [answer]
    split
    · exact ⟨members, rfl, .refl stamp tree members⟩
    · simp only
      split
      · exact ⟨members, rfl, .refl stamp tree members⟩
      · rw [FileProgram.run_bind]
        exact ⟨_, rfl, succeed_answerIn _ _⟩
  | remove c id =>
    rw [answer]
    split
    · exact ⟨members, rfl, .refl stamp tree members⟩
    · rw [FileProgram.run_bind]
      exact ⟨_, rfl, succeed_answerIn _ _⟩
  | types c =>
    rw [answer]
    exact ⟨members, rfl, .refl stamp tree members⟩

/-- What every call leaves true of a suite is true of it after every run. -/
theorem after_of_answer {P : Suite → Prop}
    (hcall : ∀ suite, P suite → ∀ stamp call tree, P ((answer stamp suite call).run tree).1.2)
    {suite : Suite} (h : P suite) (tree : FileTree) (steps : List Step) :
    P (backend.after (suite, tree) steps).1 := by
  induction steps generalizing suite tree with
  | nil => exact h
  | cons step rest ih => exact ih (hcall suite h step.stamp step.call tree) _

end Suite

end PropertyGraph
