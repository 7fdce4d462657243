/-
  PropertyGraph.Proofs.Routing.MissingTargets

  What is reported when a change misses its target.  A store and a graph in documents report the
  identity that they were asked for.  A dispatcher asks a member for the native identity, composes
  what the member replies, and lets pass what it reports.  So by induction a missing target is
  reported under the identity that is native where it was looked for, at any depth, and never under
  the identity that a dispatcher was asked for.
-/
import PropertyGraph.Proofs.Routing.ReturnedIds
import PropertyGraph.Proofs.Storage.FailureCauses
import PropertyGraph.Proofs.Transport.Transparency

namespace PropertyGraph

open CompositeId (Composed)
open Engine (Step)
open Failure (OfKeeping)

variable {c c' : EntityClass} {p : Number → Prop} {stamp : Stamp} {tree tree' : FileTree}
  {id named native : Id} {call : Call}

/-- A call is an edit that asks for a type. -/
def Call.Retypes : Call → Prop
  | .edit _ _ patch => ∃ type, patch.type = some type
  | _ => False

/-! ## Stores -/

/-- The state that a keeper has at hand. -/
def Keeper.current : Keeper → FileTree → Outcome GraphState
  | .shared s, _ => .ok s
  | .snapshot path, tree => ((load path).exec tree).1

theorem Keeper.failsOnly_save {P : Failure → Prop} (hio : P .io) (path : String) (s : GraphState) :
    (save path s).FailsOnly P := by
  intro tree failure hfails
  obtain rfl := exec_save_error (Prod.ext hfails rfl)
  exact hio

namespace Store

variable {α : Type} {store : Store} {s : GraphState} {failure : Failure}

/-- A store that cannot load its state has failed of files. -/
theorem ofFiles_of_current (h : store.keeper.current tree = .error failure) : failure.OfFiles := by
  cases hkeeper : store.keeper with
  | shared s =>
    rw [hkeeper] at h
    cases h
  | snapshot path =>
    rw [hkeeper, Keeper.current] at h
    obtain ⟨s, -, hload⟩ | ⟨other, hfiles, hload⟩ := exec_load_cases path tree
    · rw [hload] at h
      cases h
    · rw [hload] at h
      obtain rfl := Except.error.inj h
      exact hfiles

theorem outcome_look (f : GraphState → Outcome α) :
    ((store.look f).run tree).1.1 = store.keeper.current tree >>= f := by
  cases hkeeper : store.keeper with
  | shared s =>
    rw [look, hkeeper]
    rfl
  | snapshot path =>
    rw [run_look hkeeper]
    rfl

/-- A change in a snapshot is a change of what is loaded, which is saved if it succeeds. -/
theorem outcome_change_of_snapshot {path : String} (hkeeper : store.keeper = .snapshot path)
    (f : GraphState → Outcome α × GraphState) :
    ((store.change f).run tree).1.1 = (FileTask.exec (do
      let (outcome, s) := f (← Keeper.load path)
      let a ← FileTask.ofOutcome outcome
      Keeper.save path s
      return a) tree).1 := by
  rw [change, hkeeper, Keeper.update]
  simp only [FileProgram.run_bind, FileProgram.run_pure, Keeper.run_outcome]

/-- A change that fails on the state at hand fails of the same. -/
theorem outcome_change_of_error {f : GraphState → Outcome α × GraphState}
    (hcurrent : store.keeper.current tree = .ok s) (hf : (f s).1 = .error failure) :
    ((store.change f).run tree).1.1 = .error failure := by
  cases hkeeper : store.keeper with
  | shared s' =>
    rw [hkeeper] at hcurrent
    obtain rfl := Except.ok.inj hcurrent
    rw [change, hkeeper]
    exact hf
  | snapshot path =>
    rw [hkeeper] at hcurrent
    have hload : (Keeper.load path).exec tree = (.ok s, tree) :=
      Prod.ext hcurrent (Keeper.exec_load_unchanged path tree)
    rw [outcome_change_of_snapshot hkeeper, FileTask.exec_bind_of_ok hload]
    rcases hresult : f s with ⟨outcome, s'⟩
    rw [hresult] at hf
    obtain rfl : outcome = .error failure := hf
    rfl

/-- A change that fails has failed of files, or fails on the state at hand. -/
theorem outcome_change_cases {f : GraphState → Outcome α × GraphState}
    (hfails : ((store.change f).run tree).1.1 = .error failure) :
    failure.OfFiles ∨ ∃ s, store.keeper.current tree = .ok s ∧ (f s).1 = .error failure := by
  cases hkeeper : store.keeper with
  | shared s =>
    rw [change, hkeeper] at hfails
    exact .inr ⟨s, rfl, hfails⟩
  | snapshot path =>
    rw [outcome_change_of_snapshot hkeeper, FileTask.exec_bind] at hfails
    rcases hload : (Keeper.load path).exec tree with ⟨other | s, tree'⟩
    · rw [hload] at hfails
      obtain rfl := Except.error.inj hfails
      have hcurrent : store.keeper.current tree = .error other := by
        rw [hkeeper, Keeper.current, hload]
      exact .inl (ofFiles_of_current hcurrent)
    · rw [hload] at hfails
      simp only at hfails
      rcases hresult : f s with ⟨outcome, s'⟩
      rw [hresult] at hfails
      -- after the change itself there is only the saving left
      have hrest : FileTask.FailsOnly (fun failure => failure.OfFiles ∨ outcome = .error failure) (do
          let a ← FileTask.ofOutcome outcome
          Keeper.save path s'
          return a) := by
        refine FileTask.failsOnly_ofOutcome_bind (fun _ => .inr) fun a _ => ?_
        exact (Keeper.failsOnly_save (.inl trivial) path s').bind fun _ => FileTask.failsOnly_pure _
      refine (hrest tree' failure hfails).imp id fun houtcome => ⟨s, ?_, ?_⟩
      · rw [Keeper.current, hload]
      · rw [hresult, houtcome]

/-- A lookup comes upon nothing exactly when the state at hand has nothing under the text. -/
theorem get_eq_none_iff :
    ((store.answer stamp (.get c id)).run tree).1.1 = .ok none
      ↔ ∃ key s, id.requireText = .ok key ∧ store.keeper.current tree = .ok s
        ∧ s.get c key = none := by
  rw [answer, withKey]
  cases hkey : id.requireText with
  | error failure =>
    constructor
    · intro h
      cases h
    · rintro ⟨_, _, ⟨⟩, -⟩
  | ok key =>
    simp only [outcome_look]
    cases hcurrent : store.keeper.current tree with
    | error failure =>
      constructor
      · intro h
        cases h
      · rintro ⟨_, _, -, ⟨⟩, -⟩
    | ok s =>
      constructor
      · intro h
        exact ⟨key, s, rfl, rfl, Except.ok.inj h⟩
      · rintro ⟨_, _, ⟨⟩, ⟨⟩, hget⟩
        exact congrArg Except.ok hget

/-- A change that finds nothing reports it under the identity that it was given. -/
theorem change_of_none (hchanges : call.Changes c id)
    (hnone : ((store.answer stamp (.get c id)).run tree).1.1 = .ok none) :
    ((store.answer stamp call).run tree).1.1 = .error (.notFound c id) := by
  obtain ⟨key, s, hkey, hcurrent, hget⟩ := get_eq_none_iff.1 hnone
  cases hchanges with
  | edit id patch =>
    rw [answer, withKey, hkey]
    exact outcome_change_of_error hcurrent (congrArg Prod.fst (GraphState.edit_of_none hget ..))
  | remove c id =>
    rw [answer, withKey, hkey]
    exact outcome_change_of_error hcurrent (congrArg Prod.fst (GraphState.remove_of_none hget ..))

/-- A change misses what the state at hand misses. -/
theorem none_of_withKey {f : String → GraphState → Outcome α × GraphState}
    (hf : ∀ key s c' named, (f key s).1 = .error (.notFound c' named) →
      c' = c ∧ named = id ∧ s.get c key = none)
    (hmissing : ((store.withKey id fun key => store.change (f key)).run tree).1.1
      = .error (.notFound c' named)) :
    c' = c ∧ named = id ∧ ((store.answer stamp (.get c id)).run tree).1.1 = .ok none := by
  rw [get_eq_none_iff]
  rw [withKey] at hmissing
  cases hkey : id.requireText with
  | error failure =>
    rw [hkey] at hmissing
    exact absurd (Except.error.inj hmissing) ((Id.ofKeeping_of_requireText hkey).ne_notFound _ _)
  | ok key =>
    rw [hkey] at hmissing
    obtain hfiles | ⟨s, hcurrent, hfails⟩ := outcome_change_cases hmissing
    · exact hfiles.elim
    · obtain ⟨hclass, hnamed, hget⟩ := hf key s c' named hfails
      exact ⟨hclass, hnamed, key, s, rfl, hcurrent, hget⟩

/-- A change reports a missing entity under the identity that it was given, and only if a lookup
    comes upon nothing. -/
theorem none_of_change (hchanges : call.Changes c id)
    (hmissing : ((store.answer stamp call).run tree).1.1 = .error (.notFound c' named)) :
    c' = c ∧ named = id ∧ ((store.answer stamp (.get c id)).run tree).1.1 = .ok none := by
  cases hchanges with
  | edit id patch =>
    refine none_of_withKey (fun key s c' named hedit => ?_) hmissing
    cases hget : s.get c key with
    | none =>
      rw [GraphState.edit_of_none hget] at hedit
      cases hedit
      exact ⟨rfl, rfl, rfl⟩
    | some e =>
      rw [GraphState.edit_of_get hget] at hedit
      cases hedit
  | remove c id =>
    refine none_of_withKey (fun key s c' named hremove => ?_) hmissing
    cases hget : s.get c key with
    | none =>
      rw [GraphState.remove_of_none hget] at hremove
      cases hremove
      exact ⟨rfl, rfl, rfl⟩
    | some e =>
      rw [GraphState.remove_of_get hget] at hremove
      cases hremove

end Store

namespace Suite

variable {members : List (String × Suite)} {owners : Owners} {suite holder : Suite}

/-! ## Where an identity leads -/

/-- A graph that knows texts as identities. -/
inductive Native : Suite → Prop
  | store (store : Store) : Native (.store store)
  | engine (g : Engine) : Native (.engine g)

/-- A graph at hand: one that knows texts, or a dispatcher over graphs at hand. -/
inductive AtHand : Suite → Prop
  | native {suite : Suite} : suite.Native → AtHand suite
  | dispatcher {members : List (String × Suite)} {owners : Owners} :
    (∀ member ∈ members, AtHand member.2) → AtHand (.dispatcher members owners)

/-- An identity leads, composite by composite and member by member, to a graph that knows texts and
    to the identity that is native there. -/
inductive LeadsTo : Suite → Id → Suite → Id → Prop
  | here {suite : Suite} (id : Id) : suite.Native → LeadsTo suite id suite id
  | within {members : List (String × Suite)} {owners : Owners} {id native : Id}
    {composite : CompositeId} {member holder : Suite} : CompositeId.ofId id = .ok composite →
    Entries.get? composite.suite members = some member →
    LeadsTo member composite.id holder native →
    LeadsTo (.dispatcher members owners) id holder native

/-- A lookup in a graph comes upon nothing. -/
def Lacks (suite : Suite) (c : EntityClass) (id : Id) (tree : FileTree) : Prop :=
  ∀ stamp, ((answer stamp suite (.get c id)).run tree).1.1 = .ok none

/-- The index of a graph in documents names a type for an identity. -/
def Indexes (suite : Suite) (c : EntityClass) (id : Id) (tree : FileTree) : Prop :=
  ∃ g, suite = .engine g ∧ (tree.shelf g.root c).Indexes id

/-! ### Graphs that know texts -/

theorem Native.change_of_lacks (h : suite.Native) (hchanges : call.Changes c id)
    (hlacks : suite.Lacks c id tree) (stamp : Stamp) :
    ((answer stamp suite call).run tree).1.1 = .error (.notFound c id)
      ∨ ((answer stamp suite call).run tree).1.1 = .error .io ∧ suite.Indexes c id tree := by
  have hnone := hlacks stamp
  cases h with
  | store store =>
    rw [run_store] at hnone ⊢
    exact .inl (Store.change_of_none hchanges hnone)
  | engine g =>
    rw [run_engine] at hnone ⊢
    cases hchanges with
    | edit id patch => exact .inl (Engine.exec_edit_of_none hnone stamp patch)
    | remove c id =>
      exact (Engine.exec_remove_of_none hnone).imp_right fun ⟨hio, hindexes⟩ =>
        ⟨hio, g, rfl, hindexes⟩

theorem Native.lacks_of_missing (h : suite.Native) (hchanges : call.Changes c id)
    (hmissing : ((answer stamp suite call).run tree).1.1 = .error (.notFound c' named)) :
    c' = c ∧ named = id ∧ suite.Lacks c id tree := by
  cases h with
  | store store =>
    rw [run_store] at hmissing
    obtain ⟨hclass, hnamed, hnone⟩ := Store.none_of_change hchanges hmissing
    refine ⟨hclass, hnamed, fun stamp => ?_⟩
    rw [run_store]
    exact Store.get_eq_none_iff.2 (Store.get_eq_none_iff.1 hnone)
  | engine g =>
    rw [run_engine] at hmissing
    have hnone : c' = c ∧ named = id ∧ ((g.get c id).exec tree).1 = .ok none := by
      cases hchanges with
      | edit id patch =>
        have hnamed := (g.failsOnly_edit c id stamp patch tree _ hmissing).resolve_left
          fun h => h.ne_notFound _ _ rfl
        cases hnamed
        exact ⟨rfl, rfl, Engine.none_of_exec_edit hmissing⟩
      | remove c id =>
        have hnamed := (g.failsOnly_remove c id tree _ hmissing).resolve_left
          fun h => h.ne_notFound _ _ rfl
        cases hnamed
        exact ⟨rfl, rfl, Engine.none_of_exec_remove hmissing⟩
    refine hnone.imp_right (And.imp_right fun hnone stamp => ?_)
    rw [run_engine]
    exact hnone

/-! ### Dispatchers -/

/-- A change is refused, and then its identity names no member or it asks for a new type; or it is
    forwarded as a change of the native identity, and what fails there fails here. -/
theorem change_cases (owners : Owners) (hchanges : call.Changes c id) :
    (Refuses members owners call ∧ (Resolves members id → call.Retypes))
      ∨ ∃ composite member inner wrap, CompositeId.ofId id = .ok composite
        ∧ Entries.get? composite.suite members = some member
        ∧ Forwards owners composite.suite call inner wrap ∧ inner.Changes c composite.id
        ∧ (inner.Retypes → call.Retypes)
        ∧ ∀ outcome failure, wrap outcome = .error failure ↔ outcome = .error failure := by
  by_cases hresolves : Resolves members id
  · obtain ⟨composite, member, hid, hmember⟩ := hresolves
    cases hchanges with
    | remove c id =>
      exact .inr ⟨composite, member, _, _, hid, hmember, .remove hid, .remove c composite.id,
        fun h => h, fun _ _ => Iff.rfl⟩
    | edit id patch =>
      have hwrap : ∀ (outcome : Outcome (Entity c)) failure,
          outcome.map (compose composite.suite) = .error failure ↔ outcome = .error failure := by
        intro outcome failure
        cases outcome with
        | error other => exact Iff.rfl
        | ok e => exact ⟨nofun, nofun⟩
      -- only a new type can be refused, and it is when another member owns it
      cases htype : patch.type with
      | none =>
        have hstays : ∀ type, patch.type = some type →
            owners.owner? c type = some composite.suite := by simp [htype]
        exact .inr ⟨composite, member, _, _, hid, hmember, .edit hid hstays, .edit _ patch,
          fun h => h, hwrap⟩
      | some type =>
        cases hmove : forbidMove owners c id composite.suite type with
        | error failure =>
          exact .inl ⟨refuses_edit_of_forbidMove hid hmember htype hmove, fun _ => ⟨type, htype⟩⟩
        | ok u =>
          have hstays : ∀ type, patch.type = some type →
              owners.owner? c type = some composite.suite := by
            intro other hother
            obtain rfl := Option.some.inj (htype.symm.trans hother)
            exact forbidMove_eq_ok_iff.1 hmove
          exact .inr ⟨composite, member, _, _, hid, hmember, .edit hid hstays, .edit _ patch,
            fun h => h, hwrap⟩
  · left
    refine ⟨?_, fun h => absurd h hresolves⟩
    cases hchanges with
    | remove c id => exact refuses_remove hresolves c
    | edit id patch => exact refuses_edit hresolves patch

/-- A missing target is reported under the identity that is native where it was looked for. -/
theorem AtHand.leadsTo_of_missing (h : suite.AtHand) (hchanges : call.Changes c id)
    (hmissing : ((answer stamp suite call).run tree).1.1 = .error (.notFound c' named)) :
    c' = c ∧ ∃ holder, suite.LeadsTo id holder named ∧ holder.Lacks c named tree := by
  induction h generalizing call id with
  | @native suite hnative =>
    obtain ⟨hclass, rfl, hlacks⟩ := hnative.lacks_of_missing hchanges hmissing
    exact ⟨hclass, suite, .here named hnative, hlacks⟩
  | @dispatcher members owners _ ih =>
    rcases change_cases owners hchanges with ⟨⟨failure, hmisrouted, hrefused⟩, -⟩
      | ⟨composite, member, inner, wrap, hid, hmember, hforwards, hinner, -, hwrap⟩
    · rw [hrefused] at hmissing
      exact absurd (Except.error.inj hmissing) (hmisrouted.ne_notFound c' named)
    · rw [run_of_forwards hforwards hmember] at hmissing
      obtain ⟨hclass, holder, hleads, hlacks⟩ :=
        ih (composite.suite, member) (Entries.mem_of_get? hmember) hinner ((hwrap _ _).1 hmissing)
      exact ⟨hclass, holder, .within hid hmember hleads, hlacks⟩

/-- A change of what an identity leads to and what is not there fails, and says so unless it is
    refused for a new type or an index cannot be written. -/
theorem LeadsTo.change_of_lacks (h : suite.LeadsTo id holder native)
    (hchanges : call.Changes c id) (hlacks : holder.Lacks c native tree) (stamp : Stamp) :
    ∃ failure, ((answer stamp suite call).run tree).1.1 = .error failure
      ∧ (failure = .notFound c native ∨ call.Retypes ∧ Misrouted failure
        ∨ failure = .io ∧ holder.Indexes c native tree) := by
  induction h generalizing call with
  | here id hnative =>
    obtain hmissing | ⟨hio, hindexes⟩ := hnative.change_of_lacks hchanges hlacks stamp
    · exact ⟨_, hmissing, .inl rfl⟩
    · exact ⟨_, hio, .inr (.inr ⟨rfl, hindexes⟩)⟩
  | @within members owners id native composite member holder hid hmember _ ih =>
    rcases change_cases owners hchanges with ⟨⟨failure, hmisrouted, hrefused⟩, hretypes⟩
      | ⟨composite', member', inner, wrap, hid', hmember', hforwards, hinner, hretypes, hwrap⟩
    · refine ⟨failure, by rw [hrefused], .inr (.inl ⟨?_, hmisrouted⟩)⟩
      exact hretypes ⟨composite, member, hid, hmember⟩
    · obtain rfl := Except.ok.inj (hid.symm.trans hid')
      obtain rfl := Option.some.inj (hmember.symm.trans hmember')
      obtain ⟨failure, hfails, hkind⟩ := ih hinner hlacks
      refine ⟨failure, ?_, hkind.imp_right (Or.imp_left (And.imp_left hretypes))⟩
      rw [run_of_forwards hforwards hmember]
      exact (hwrap _ _).2 hfails

/-! ### Native identities are no composites -/

/-- What a composite holds nests less deep than the composite. -/
theorem nesting_of_ofId (hproper : id.value.Proper p) {composite : CompositeId}
    (hid : CompositeId.ofId id = .ok composite) :
    composite.id.value.nesting < id.value.nesting ∧ composite.id.value.Proper p := by
  obtain ⟨v⟩ := id
  obtain hcomposed | rfl := (CompositeId.ofId_eq_ok_iff hproper).1 hid
  · refine ⟨?_, hcomposed.proper hproper⟩
    cases hcomposed <;> simp [Json.nesting, Json.nestingEntries]
  · refine ⟨?_, hproper.2.1⟩
    simp [Json.nesting, Json.nestingItems]

theorem LeadsTo.nesting_le (h : suite.LeadsTo id holder native) (hproper : id.value.Proper p) :
    native.value.nesting ≤ id.value.nesting := by
  induction h with
  | here id hnative => exact Nat.le_refl _
  | within hid hmember _ ih =>
    obtain ⟨hless, hinner⟩ := nesting_of_ofId hproper hid
    exact (ih hinner).trans (Nat.le_of_lt hless)

/-- What an identity leads to from a dispatcher is another identity. -/
theorem LeadsTo.ne_of_dispatcher (h : (dispatcher members owners).LeadsTo id holder native)
    (hproper : id.value.Proper p) : native ≠ id := by
  rintro rfl
  cases h with
  | here id hnative => cases hnative
  | within hid hmember hleads =>
    obtain ⟨hless, hinner⟩ := nesting_of_ofId hproper hid
    exact absurd (hleads.nesting_le hinner) (Nat.not_le_of_lt hless)

/-! ## Runs -/

/-- A call leaves a graph at hand. -/
theorem AtHand.run (h : suite.AtHand) (stamp : Stamp) (call : Call) (tree : FileTree) :
    ((answer stamp suite call).run tree).1.2.AtHand := by
  induction h generalizing call with
  | native hnative =>
    cases hnative with
    | store store =>
      rw [run_store]
      exact .native (.store _)
    | engine g =>
      rw [run_engine]
      exact .native (.engine g)
  | @dispatcher members owners hmembers ih =>
    obtain ⟨members', hbecame, hsucceed⟩ := run_dispatcher members owners stamp call tree
    rw [hbecame]
    exact .dispatcher (hsucceed.all fun member hmem => ⟨hmembers member hmem, ih member hmem⟩)

/-- After any calls to a graph at hand, a change that reports a missing entity reports it under the
    native identity that the identity of the change leads to, where a lookup finds none.  A change
    of an identity that leads to where a lookup finds none fails with that report, unless it asks for
    a new type and is refused for it, or the index of a graph in documents still names the identity
    and cannot be written.  Through a dispatcher the identity that is reported is never the one that
    was asked for. -/
theorem missing_under_native (hstart : suite.AtHand) {steps : List Step} {current : Suite}
    (hafter : backend.after (suite, tree) steps = (current, tree')) (hchanges : call.Changes c id)
    (hproper : id.value.Proper p) (stamp : Stamp) :
    (∀ c' named, ((answer stamp current call).run tree').1.1 = .error (.notFound c' named) →
      c' = c ∧ ∃ holder, current.LeadsTo id holder named ∧ holder.Lacks c named tree')
    ∧ (∀ holder native, current.LeadsTo id holder native → holder.Lacks c native tree' →
      ∃ failure, ((answer stamp current call).run tree').1.1 = .error failure
        ∧ (failure = .notFound c native ∨ call.Retypes ∧ Misrouted failure
          ∨ failure = .io ∧ holder.Indexes c native tree'))
    ∧ ∀ members owners, current = .dispatcher members owners →
      ∀ holder native, current.LeadsTo id holder native → native ≠ id := by
  have hcurrent : current.AtHand := by
    have hreached := after_of_answer (fun _ h => AtHand.run h) hstart tree steps
    rwa [hafter] at hreached
  refine ⟨fun c' named hmissing => hcurrent.leadsTo_of_missing hchanges hmissing,
    fun holder native hleads hlacks => hleads.change_of_lacks hchanges hlacks stamp, ?_⟩
  rintro members owners rfl holder native hleads
  exact hleads.ne_of_dispatcher hproper

/-- An identity of the nested graph under which there is nothing. -/
def absentId : Id := (CompositeId.mk "out" (CompositeId.mk "in" (.ofString "x")).toId).toId

/-- The store within the nested graph, when a document has been created in it. -/
def innermostStore : Suite :=
  .store (Store.blank.withState
    (GraphState.empty.insert "1" ((Body.node "Doc" []).create (.ofString "1") (some 10))))

/-- A removal through the two dispatchers of the nested graph reports the text that is native in the
    store within. -/
theorem missing_under_native_nested :
    nestedGraph.AtHand
      ∧ (backend.answer ⟨"2", 11⟩ (.remove .node absentId)
        (backend.after (nestedGraph, .sample) nestedSteps)).1
        = .error (.notFound .node (.ofString "x"))
      ∧ (.ofString "x" : Id) ≠ absentId := by
  have hathand : nestedGraph.AtHand := by
    refine .dispatcher fun member hmember => ?_
    rw [List.mem_singleton.1 hmember]
    refine .dispatcher fun member hmember => ?_
    rw [List.mem_singleton.1 hmember]
    exact .native (.store _)
  have hproper : absentId.value.Proper (fun _ => True) := by
    show (Json.object _).Proper _
    exact ⟨by decide, trivial, ⟨by decide, trivial, trivial, trivial⟩, trivial⟩
  have hleads : (backend.after (nestedGraph, .sample) nestedSteps).1.LeadsTo absentId
      innermostStore (.ofString "x") :=
    .within rfl rfl (.within rfl rfl (.here _ (.store _)))
  obtain ⟨-, hfails, hother⟩ := missing_under_native hathand rfl (.remove .node absentId) hproper
    ⟨"2", 11⟩
  obtain ⟨failure, hfailure, rfl | ⟨hretypes, -⟩ | ⟨-, g, hengine, -⟩⟩ :=
    hfails innermostStore (.ofString "x") hleads fun stamp => rfl
  · exact ⟨hathand, hfailure, hother _ _ rfl _ _ hleads⟩
  · exact hretypes.elim
  · cases hengine

/-- An identity of somebody who is not among the people of a store. -/
def strangerId : Id := (CompositeId.mk "people" (.ofString "x")).toId

/-- The composite that a removal was asked for is not the identity that it reports. -/
theorem removal_reports_text :
    (dispatcher [("people", .store Store.blank)] ⟨[("Person", "people")], []⟩).LeadsTo strangerId
        (.store Store.blank) (.ofString "x")
      ∧ (Suite.store Store.blank).Lacks .node (.ofString "x") .sample
      ∧ ((answer ⟨"1", 10⟩ (.dispatcher [("people", .store Store.blank)]
          ⟨[("Person", "people")], []⟩) (.remove .node strangerId)).run .sample).1.1
        = .error (.notFound .node (.ofString "x"))
      ∧ (.ofString "x" : Id) ≠ strangerId := by
  refine ⟨.within rfl rfl (.here _ (.store _)), fun stamp => rfl, rfl, fun heq => ?_⟩
  cases congrArg Id.value heq

end Suite

end PropertyGraph
