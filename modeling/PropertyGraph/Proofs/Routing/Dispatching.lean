/-
  PropertyGraph.Proofs.Routing.Dispatching

  What a dispatcher does with a call.  A call about one entity is either refused, for what the
  dispatcher knows of names and types, or forwarded to one member; then only that member goes
  on in another state.  A search goes to members one after the other and gathers what they
  find.  The proofs about dispatchers open no call of a dispatcher but here.
-/
import PropertyGraph.Proofs.Backend
import PropertyGraph.Proofs.Routing.Assembly

namespace PropertyGraph

variable {c : EntityClass} {stamp : Stamp} {tree : FileTree}

/-! ## Composite identities -/

namespace CompositeId

/-- A composite with a text is read as it was composed. -/
theorem ofId_toId (suite key : String) :
    ofId (CompositeId.mk suite (.ofString key)).toId = .ok ⟨suite, .ofString key⟩ := by
  rfl

theorem toId_inj {first second : CompositeId} (h : first.toId = second.toId) : first = second := by
  obtain ⟨suite, ⟨value⟩⟩ := first
  obtain ⟨suite', ⟨value'⟩⟩ := second
  simpa [toId] using h

end CompositeId

namespace Suite

@[simp] theorem compose_type (name : String) (e : Entity c) : (compose name e).type = e.type := rfl

@[simp] theorem compose_id (name : String) (e : Entity c) :
    (compose name e).id = (CompositeId.mk name e.id).toId := rfl

/-! ## Programs over members -/

/-- A suite from outside. -/
def backend : Backend (Suite × FileTree) where
  answer stamp call s :=
    let ((outcome, suite), tree) := (s.1.answer stamp call).run s.2
    (outcome, suite, tree)

theorem run_store (store : Store) (stamp : Stamp) (call : Call) (tree : FileTree) :
    (answer stamp (.store store) call).run tree
      = ((((store.answer stamp call).run tree).1.1,
          .store ((store.answer stamp call).run tree).1.2),
          ((store.answer stamp call).run tree).2) := by
  rw [answer, FileProgram.run_bind]
  rfl

theorem run_engine (g : Engine) (stamp : Stamp) (call : Call) (tree : FileTree) :
    (answer stamp (.engine g) call).run tree
      = ((((g.answer stamp call).exec tree).1, .engine g), ((g.answer stamp call).exec tree).2) := by
  rw [answer, FileProgram.run_bind]
  rfl

variable {members : List (String × Suite)} {owners : Owners} {name : String} {suite : Suite}

/-- A name that no member has ends a call. -/
theorem run_answerIn_of_none (h : Entries.get? name members = none) (call : Call) :
    (answerIn stamp members name call).run tree
      = ((.error (.identity (.unknownSuite name)), members), tree) := by
  induction members with
  | nil =>
    rw [answerIn]
    rfl
  | cons member rest ih =>
    obtain ⟨n, s⟩ := member
    rw [Entries.get?] at h
    split at h
    · cases h
    next hne =>
    rw [answerIn, if_neg hne, FileProgram.run_bind, ih h]
    rfl

/-- The named member answers, and only this member goes on in another state. -/
theorem run_answerIn_of_some (h : Entries.get? name members = some suite) (call : Call) :
    (answerIn stamp members name call).run tree
      = ((((answer stamp suite call).run tree).1.1,
          Entries.insert name ((answer stamp suite call).run tree).1.2 members),
          ((answer stamp suite call).run tree).2) := by
  induction members with
  | nil => cases h
  | cons member rest ih =>
    obtain ⟨n, s⟩ := member
    rw [Entries.get?] at h
    rw [answerIn, Entries.insert]
    split at h
    · next heq =>
      obtain rfl := Option.some.inj h
      subst heq
      rw [if_pos rfl, if_pos rfl, FileProgram.run_bind]
      rfl
    · next hne =>
      rw [if_neg hne, if_neg hne, FileProgram.run_bind, ih h]
      rfl

/-! ## Calls about one entity -/

/-- Calls that concern one entity go to a member of some name, there in another form, and the
    reply comes back in another form. -/
inductive Forwards (owners : Owners) : (name : String) → (call inner : Call) →
    (Outcome inner.Reply → Outcome call.Reply) → Prop
  | get {c : EntityClass} {id : Id} {composite : CompositeId}
    (hid : CompositeId.ofId id = .ok composite) :
    Forwards owners composite.suite (.get c id) (.get c composite.id)
      fun outcome => outcome.map fun (e : Option (Entity c)) => e.map (compose composite.suite)
  | create {c : EntityClass} {body : Body c} {name : String}
    (howner : owners.owner? c body.type = some name) :
    Forwards owners name (.create c body) (.create c body)
      fun outcome => outcome.map fun (e : Entity c) => compose name e
  | edit {c : EntityClass} {id : Id} {patch : Patch c} {composite : CompositeId}
    (hid : CompositeId.ofId id = .ok composite)
    (hstays : ∀ type, patch.type = some type → owners.owner? c type = some composite.suite) :
    Forwards owners composite.suite (.edit c id patch) (.edit c composite.id patch)
      fun outcome => outcome.map fun (e : Entity c) => compose composite.suite e
  | remove {c : EntityClass} {id : Id} {composite : CompositeId}
    (hid : CompositeId.ofId id = .ok composite) :
    Forwards owners composite.suite (.remove c id) (.remove c composite.id)
      fun outcome => outcome

/-- An owner may keep its entity under a type that it owns. -/
theorem forbidMove_eq_ok_iff {id : Id} {owner type : String} :
    forbidMove owners c id owner type = .ok () ↔ owners.owner? c type = some owner := by
  rw [forbidMove, Owners.owner]
  cases owners.owner? c type with
  | none => exact ⟨nofun, nofun⟩
  | some target =>
    show (if target = owner then _ else _) = _ ↔ _
    by_cases htarget : target = owner
    · simp [htarget]
    · simp [htarget]

/-- A forwarded call is answered by the member, and only this member goes on in another state. -/
theorem run_of_forwards {call inner : Call} {wrap : Outcome inner.Reply → Outcome call.Reply}
    (h : Forwards owners name call inner wrap) (hmember : Entries.get? name members = some suite) :
    (answer stamp (.dispatcher members owners) call).run tree
      = ((wrap ((answer stamp suite inner).run tree).1.1,
          .dispatcher (Entries.insert name ((answer stamp suite inner).run tree).1.2 members) owners),
          ((answer stamp suite inner).run tree).2) := by
  cases h with
  | get hid =>
    rw [answer, hid]
    simp only [FileProgram.run_bind, run_answerIn_of_some hmember]
    rfl
  | create howner =>
    rw [answer, Owners.owner, howner]
    simp only [FileProgram.run_bind, run_answerIn_of_some hmember]
    rfl
  | @edit _ id patch composite hid hstays =>
    rw [answer, hid]
    simp only [hmember, Option.isNone_some, Bool.false_eq_true, if_false]
    -- a new type has been looked at before, and its owner is the member itself
    cases htype : patch.type with
    | none =>
      simp only [FileProgram.run_bind, run_answerIn_of_some hmember]
      rfl
    | some type =>
      simp only [forbidMove_eq_ok_iff.2 (hstays type htype), FileProgram.run_bind,
        run_answerIn_of_some hmember]
      rfl
  | remove hid =>
    rw [answer, hid]
    simp only [FileProgram.run_bind, run_answerIn_of_some hmember]
    rfl

/-- A failure that a dispatcher reports without asking a member. -/
inductive Misrouted : Failure → Prop
  | identity (fault : IdentityFault) : Misrouted (.identity fault)
  | unowned (c : EntityClass) (type : String) : Misrouted (.unownedType c type)
  | moved (id : Id) (owner type target : String) : Misrouted (.movedType id owner type target)

theorem misrouted_of_ofId {id : Id} {failure : Failure} (h : CompositeId.ofId id = .error failure) :
    Misrouted failure := by
  rw [CompositeId.ofId] at h
  split at h
  · cases h
  · cases h
    exact .identity _

theorem misrouted_of_forbidMove {id : Id} {owner type : String} {failure : Failure}
    (h : forbidMove owners c id owner type = .error failure) : Misrouted failure := by
  rw [forbidMove, Owners.owner] at h
  cases htarget : owners.owner? c type with
  | none =>
    rw [htarget] at h
    cases h
    exact .unowned c type
  | some target =>
    rw [htarget] at h
    replace h : (if target = owner then (.ok () : Outcome Unit)
      else .error (.movedType id owner type target)) = .error failure := h
    split at h
    · cases h
    · cases h
      exact .moved id owner type target

/-- Whether a call concerns one entity. -/
def Single : Call → Prop
  | .search _ _ | .types _ => False
  | _ => True

/-- A call is refused for what it is about, and changes nothing. -/
def Refuses (members : List (String × Suite)) (owners : Owners) (call : Call) : Prop :=
  ∃ failure, Misrouted failure ∧ ∀ stamp tree,
    (answer stamp (.dispatcher members owners) call).run tree
      = ((.error failure, .dispatcher members owners), tree)

/-- An identity names a member. -/
def Resolves (members : List (String × Suite)) (id : Id) : Prop :=
  ∃ composite suite, CompositeId.ofId id = .ok composite
    ∧ Entries.get? composite.suite members = some suite

section Unresolved

variable {id : Id} (h : ¬ Resolves members id)

include h

/-- An identity that names no member is no composite, or the composite of an unknown name. -/
theorem not_resolves_cases : (∃ failure, CompositeId.ofId id = .error failure)
    ∨ ∃ composite, CompositeId.ofId id = .ok composite
      ∧ Entries.get? composite.suite members = none := by
  cases hid : CompositeId.ofId id with
  | error failure => exact .inl ⟨failure, rfl⟩
  | ok composite =>
    cases hmember : Entries.get? composite.suite members with
    | none => exact .inr ⟨composite, rfl, hmember⟩
    | some suite => exact absurd ⟨composite, suite, hid, hmember⟩ h

theorem refuses_get (c : EntityClass) : Refuses members owners (.get c id) := by
  obtain ⟨failure, hid⟩ | ⟨composite, hid, hmember⟩ := not_resolves_cases h
  · refine ⟨failure, misrouted_of_ofId hid, fun stamp tree => ?_⟩
    rw [answer, hid]
    rfl
  · refine ⟨_, .identity (.unknownSuite composite.suite), fun stamp tree => ?_⟩
    rw [answer, hid]
    simp only [FileProgram.run_bind, run_answerIn_of_none hmember]
    rfl

theorem refuses_remove (c : EntityClass) : Refuses members owners (.remove c id) := by
  obtain ⟨failure, hid⟩ | ⟨composite, hid, hmember⟩ := not_resolves_cases h
  · refine ⟨failure, misrouted_of_ofId hid, fun stamp tree => ?_⟩
    rw [answer, hid]
    rfl
  · refine ⟨_, .identity (.unknownSuite composite.suite), fun stamp tree => ?_⟩
    rw [answer, hid]
    simp only [FileProgram.run_bind, run_answerIn_of_none hmember]
    rfl

theorem refuses_edit (patch : Patch c) : Refuses members owners (.edit c id patch) := by
  obtain ⟨failure, hid⟩ | ⟨composite, hid, hmember⟩ := not_resolves_cases h
  · refine ⟨failure, misrouted_of_ofId hid, fun stamp tree => ?_⟩
    rw [answer, hid]
    rfl
  · refine ⟨_, .identity (.unknownSuite composite.suite), fun stamp tree => ?_⟩
    rw [answer, hid]
    simp only [hmember, Option.isNone_none, if_true]
    rfl

end Unresolved

/-- An edit with a new type that the named member does not own is refused. -/
theorem refuses_edit_of_forbidMove {id : Id} {patch : Patch c} {composite : CompositeId}
    {type : String} {failure : Failure} (hid : CompositeId.ofId id = .ok composite)
    (hmember : Entries.get? composite.suite members = some suite) (htype : patch.type = some type)
    (hmove : forbidMove owners c id composite.suite type = .error failure) :
    Refuses members owners (.edit c id patch) := by
  refine ⟨failure, misrouted_of_forbidMove hmove, fun stamp tree => ?_⟩
  rw [answer, hid]
  simp only [hmember, Option.isNone_some, Bool.false_eq_true, if_false, htype, hmove]
  rfl

/-- A call that concerns one entity is refused and changes nothing, or it is forwarded to a
    member. -/
theorem dispatch_cases (hknown : ∀ c type name, owners.owner? c type = some name →
      name ∈ Entries.keys members) {call : Call} (hsingle : Single call) :
    Refuses members owners call
      ∨ ∃ name suite inner wrap, Forwards owners name call inner wrap
        ∧ Entries.get? name members = some suite := by
  cases call with
  | search c s => exact hsingle.elim
  | types c => exact hsingle.elim
  | create c body =>
    cases howner : owners.owner? c body.type with
    | none =>
      refine .inl ⟨.unownedType c body.type, .unowned c body.type, fun stamp tree => ?_⟩
      rw [answer, Owners.owner, howner]
      rfl
    | some name =>
      obtain ⟨suite, hmember⟩ := Entries.mem_keys_iff.1 (hknown c body.type name howner)
      exact .inr ⟨name, suite, _, _, .create howner, hmember⟩
  | get c id =>
    by_cases hresolves : Resolves members id
    · obtain ⟨composite, suite, hid, hmember⟩ := hresolves
      exact .inr ⟨_, suite, _, _, .get hid, hmember⟩
    · exact .inl (refuses_get hresolves c)
  | remove c id =>
    by_cases hresolves : Resolves members id
    · obtain ⟨composite, suite, hid, hmember⟩ := hresolves
      exact .inr ⟨_, suite, _, _, .remove hid, hmember⟩
    · exact .inl (refuses_remove hresolves c)
  | edit c id patch =>
    by_cases hresolves : Resolves members id
    · obtain ⟨composite, suite, hid, hmember⟩ := hresolves
      -- a new type is looked at only once the member is known
      cases htype : patch.type with
      | none =>
        refine .inr ⟨_, suite, _, _, .edit hid fun type hnew => ?_, hmember⟩
        rw [htype] at hnew
        cases hnew
      | some type =>
        cases hmove : forbidMove owners c id composite.suite type with
        | error failure => exact .inl (refuses_edit_of_forbidMove hid hmember htype hmove)
        | ok u =>
          refine .inr ⟨_, suite, _, _, .edit hid fun other hnew => ?_, hmember⟩
          obtain rfl : type = other := Option.some.inj (htype.symm.trans hnew)
          exact forbidMove_eq_ok_iff.1 hmove
    · exact .inl (refuses_edit hresolves patch)

/-- The list of types is known to the dispatcher itself. -/
theorem run_types (c : EntityClass) :
    (answer stamp (.dispatcher members owners) (.types c)).run tree
      = ((.ok (owners.types c), .dispatcher members owners), tree) := by
  rw [answer]
  rfl

/-! ## Searches -/

/-- What one of the searches finds that a search divides into. -/
def found (stamp : Stamp) (members : List (String × Suite)) (tree : FileTree) (c : EntityClass)
    (task : PartialSearch) : Outcome (List (Entity c)) :=
  (((answerIn stamp members task.suite (.search c task.searcher)).run tree).1.1).map
    fun (es : List (Entity c)) => es.map (compose task.suite)

end Suite

namespace FileProgram

/-- Programs that all leave the tree as it is can be run one after the other. -/
theorem run_mapM_of_unchanged {α β : Type} {f : α → FileProgram β} (value : α → β) {as : List α}
    (h : ∀ a ∈ as, (f a).run tree = (value a, tree)) :
    (as.mapM f).run tree = (as.map value, tree) := by
  have hloop : ∀ (as : List α) (acc : List β), (∀ a ∈ as, (f a).run tree = (value a, tree)) →
      (List.mapM.loop f as acc).run tree = (acc.reverse ++ as.map value, tree) := by
    intro as
    induction as with
    | nil =>
      intro acc _
      simp [List.mapM.loop]
    | cons a rest ih =>
      intro acc hall
      rw [List.mapM.loop, run_bind, hall a (List.mem_cons_self ..)]
      rw [ih _ fun b hb => hall b (List.mem_cons_of_mem _ hb)]
      simp
  exact hloop as [] h

end FileProgram

namespace Suite

variable {members : List (String × Suite)} {owners : Owners} {s : Searcher}

theorem run_search_of_error {failure : Failure} (h : divide owners c s = .error failure) :
    (answer stamp (.dispatcher members owners) (.search c s)).run tree
      = ((.error failure, .dispatcher members owners), tree) := by
  rw [answer, h]
  rfl

/-- A search gathers what the searches find that it divides into, each of which leaves the files as
    they are. -/
theorem run_search {tasks : List PartialSearch} (hdivide : divide owners c s = .ok tasks)
    (hquiet : ∀ task ∈ tasks,
      ((answerIn stamp members task.suite (.search c task.searcher)).run tree).2 = tree) :
    (answer stamp (.dispatcher members owners) (.search c s)).run tree
      = ((gather (tasks.map fun task =>
            (namedPrompt members task.suite, found stamp members tree c task)),
          .dispatcher members owners), tree) := by
  rw [answer, hdivide]
  simp only [FileProgram.run_bind]
  rw [FileProgram.run_mapM_of_unchanged fun task =>
    (namedPrompt members task.suite, found stamp members tree c task)]
  · rfl
  · intro task htask
    rw [FileProgram.run_bind]
    exact Prod.ext rfl (hquiet task htask)

/-! ### Gathering -/

theorem firstFailure?_eq_none_iff {α : Type} {outcomes : List (Outcome α)} :
    firstFailure? outcomes = none ↔ ∀ outcome ∈ outcomes, ∃ a, outcome = .ok a := by
  induction outcomes with
  | nil => simp [firstFailure?]
  | cons outcome rest ih =>
    cases outcome with
    | error failure => simp [firstFailure?]
    | ok a => simp [firstFailure?, ih]

theorem mem_of_firstFailure? {α : Type} {outcomes : List (Outcome α)} {failure : Failure}
    (h : firstFailure? outcomes = some failure) : .error failure ∈ outcomes := by
  induction outcomes with
  | nil => cases h
  | cons outcome rest ih =>
    cases outcome with
    | error other =>
      obtain rfl : other = failure := by simpa [firstFailure?] using h
      exact List.mem_cons_self ..
    | ok a => exact List.mem_cons_of_mem _ (ih (by simpa [firstFailure?] using h))

/-- Results that are all there are put one after the other. -/
theorem gather_of_ok {α ι : Type} (prompt : ι → Bool) (value : ι → List α) (tasks : List ι) :
    gather (tasks.map fun i => (prompt i, (.ok (value i) : Outcome (List α))))
      = .ok (tasks.flatMap value) := by
  have hresults : ∀ tasks : List ι, results (tasks.map fun i => (.ok (value i) : Outcome (List α)))
      = tasks.flatMap value := by
    intro tasks
    induction tasks with
    | nil => rfl
    | cons i rest ih => rw [List.map_cons, results, ih, List.flatMap_cons]
  have hnone : ∀ outcomes : List (Outcome (List α)),
      (∀ o ∈ outcomes, o ∈ tasks.map fun i => (.ok (value i) : Outcome (List α))) →
      firstFailure? outcomes = none := by
    intro outcomes hsub
    rw [firstFailure?_eq_none_iff]
    intro o ho
    obtain ⟨i, -, rfl⟩ := List.mem_map.1 (hsub o ho)
    exact ⟨value i, rfl⟩
  have hsnd : (tasks.map fun i => (prompt i, (.ok (value i) : Outcome (List α)))).map Prod.snd
      = tasks.map fun i => .ok (value i) := by
    rw [List.map_map]
    rfl
  rw [gather, hsnd, hnone _ fun o ho => ?_, hnone _ fun o ho => ho, hresults]
  rw [← hsnd]
  exact List.map_subset _ (List.filter_sublist ..).subset ho

/-- The results of one search are all there is. -/
theorem gather_singleton {α : Type} (prompt : Bool) (found : List α) :
    gather [(prompt, .ok found)] = .ok found := by
  have hgather := gather_of_ok (fun _ : Unit => prompt) (fun _ => found) [()]
  rwa [List.map_singleton, List.flatMap_singleton] at hgather

/-- A search that fails reports the failure of one of the searches that it divides into. -/
theorem mem_of_gather_eq_error {α : Type} {outcomes : List (Bool × Outcome (List α))}
    {failure : Failure} (h : gather outcomes = .error failure) :
    .error failure ∈ outcomes.map Prod.snd := by
  rw [gather] at h
  split at h
  · next hfirst =>
    obtain rfl := Except.error.inj h
    exact List.map_subset _ (List.filter_sublist ..).subset (mem_of_firstFailure? hfirst)
  · split at h
    · next hfirst =>
      obtain rfl := Except.error.inj h
      exact mem_of_firstFailure? hfirst
    · cases h

/-- A search that succeeds has found all that the searches have found that it divides into. -/
theorem gather_eq_ok {α : Type} {outcomes : List (Bool × Outcome (List α))} {all : List α}
    (h : gather outcomes = .ok all) :
    ∃ lists : List (List α), outcomes.map Prod.snd = lists.map .ok ∧ all = lists.flatten := by
  rw [gather] at h
  split at h
  · cases h
  · split at h
    · cases h
    · next hnone =>
      obtain rfl := Except.ok.inj h
      rw [firstFailure?_eq_none_iff] at hnone
      generalize outcomes.map Prod.snd = os at hnone ⊢
      induction os with
      | nil => exact ⟨[], rfl, rfl⟩
      | cons o rest ih =>
        obtain ⟨a, rfl⟩ := hnone o (List.mem_cons_self ..)
        obtain ⟨lists, hlists, hresults⟩ := ih fun o ho => hnone o (List.mem_cons_of_mem _ ho)
        refine ⟨a :: lists, by rw [List.map_cons, hlists], ?_⟩
        rw [results, hresults, List.flatten_cons]

/-- What has been gathered was found by one of the searches. -/
theorem exists_of_gather {α ι : Type} {f : ι → Bool × Outcome (List α)} {tasks : List ι}
    {all : List α} (h : gather (tasks.map f) = .ok all) {a : α} (ha : a ∈ all) :
    ∃ task ∈ tasks, ∃ found, (f task).2 = .ok found ∧ a ∈ found := by
  obtain ⟨lists, hlists, rfl⟩ := gather_eq_ok h
  obtain ⟨found, hfound, ha⟩ := List.mem_flatten.1 ha
  have hmem : Except.ok found ∈ lists.map (Except.ok : _ → Outcome (List α)) :=
    List.mem_map_of_mem hfound
  rw [← hlists, List.map_map] at hmem
  obtain ⟨task, htask, heq⟩ := List.mem_map.1 hmem
  exact ⟨task, htask, found, heq, ha⟩

end Suite

end PropertyGraph
