/-
  PropertyGraph.Proofs.Routing.Division

  Stores under a dispatcher beside a single store.  What carries a run is `Splits`: the members
  divide the state of the single store among them, each holding what is of its types, and every
  identity that was given out names the member that holds its entity.  A call about one entity is
  answered alike on both sides and leaves the members dividing the state after it.
-/
import PropertyGraph.Proofs.Routing.Stores
import PropertyGraph.Proofs.Searcher.Extensions
import PropertyGraph.Proofs.Table

namespace PropertyGraph

variable {c : EntityClass}

/-! ## States key by key -/

namespace GraphState

variable {s s' : GraphState} {key : String} {found : Option (Entity c)}

/-- A change under one key of a class, and what stands there after it. -/
structure ChangesAt (s s' : GraphState) (c : EntityClass) (key : String)
    (found : Option (Entity c)) : Prop where
  here : s'.get c key = found
  others : ∀ c' key', (c' = c → key' ≠ key) → s'.get c' key' = s.get c' key'

theorem changesAt_withEntities {es : Entries (Entity c)} (hhere : es.get? key = found)
    (hothers : ∀ key', key' ≠ key → es.get? key' = (s.entities c).get? key') :
    s.ChangesAt (s.withEntities c es) c key found where
  here := by rw [GraphState.get, entities_withEntities, hhere]
  others c' key' hne := by
    rw [GraphState.get, GraphState.get]
    by_cases hclass : c' = c
    · subst hclass
      rw [entities_withEntities, hothers key' (hne rfl)]
    · rw [entities_withEntities_of_ne s hclass]

theorem changesAt_insert (s : GraphState) (key : String) (e : Entity c) :
    s.ChangesAt (s.insert key e) c key (some e) :=
  changesAt_withEntities (Entries.get?_insert_self ..) fun _ hne => Entries.get?_insert_of_ne hne ..

theorem changesAt_erase (h : s.Keyed) (c : EntityClass) (key : String) :
    s.ChangesAt (s.withEntities c ((s.entities c).erase key)) c key none :=
  changesAt_withEntities (Entries.get?_erase_self (h.distinct c))
    fun _ hne => Entries.get?_erase_of_ne hne _

/-- The entries of a state under other keys are those of the state before. -/
theorem ChangesAt.spares (h : s.ChangesAt s' c key found) : Table.Spares s.get s'.get c key := by
  intro c' key' hne
  rw [h.others c' key' hne]
  cases s.get c' key' with
  | none => exact .none
  | some e => exact .some .refl

/-- What is there after a change was there before, unless it stands under the key. -/
theorem ChangesAt.of_some_after (h : s.ChangesAt s' c key found) {c' : EntityClass}
    {key' : String} {e : Entity c'} (he : s'.get c' key' = some e) : (c' = c ∧ key' = key) ∨ s.get c' key' = some e := by
  obtain haway | hhere := Table.away_or_here c' c key' key
  · rw [h.others c' key' haway] at he
    exact .inr he
  · exact .inl hhere

/-- The entities of a state are what its keys give. -/
theorem Keyed.mem_values_iff (h : s.Keyed) {e : Entity c} :
    e ∈ (s.entities c).values ↔ ∃ key, s.get c key = some e := by
  rw [Entries.values, List.mem_map]
  constructor
  · rintro ⟨⟨key, x⟩, hmem, rfl⟩
    exact ⟨key, Entries.get?_of_mem (h.distinct c) hmem⟩
  · rintro ⟨key, hget⟩
    exact ⟨(key, e), Entries.mem_of_get? hget, rfl⟩

end GraphState

/-! ## Native calls -/

/-- The identity by which a suite knows what a dispatcher knows by a composite one. -/
def CompositeId.native (id : Id) : Id :=
  match ofId id with
  | .ok composite => composite.id
  | .error _ => id

/-- A call with the identity that it addresses in native form.  Identities elsewhere, at endpoints
    or in a searcher, stay as they are. -/
def Call.native : Call → Call
  | .get c id => .get c (CompositeId.native id)
  | .edit c id patch => .edit c (CompositeId.native id) patch
  | .remove c id => .remove c (CompositeId.native id)
  | .search c s => .search c s
  | .create c body => .create c body
  | .types c => .types c

/-- A step with its call in native form. -/
def Engine.Step.native (step : Engine.Step) : Engine.Step := ⟨step.stamp, step.call.native⟩

/-- The identities of the entities in a reply. -/
def Call.ids : (call : Call) → Outcome call.Reply → List Id
  | .get c _, .ok reply => (show Option (Entity c) from reply).toList.map Entity.id
  | .search c _, .ok reply => (show List (Entity c) from reply).map Entity.id
  | .create c _, .ok reply => [(show Entity c from reply).id]
  | .edit c _ _, .ok reply => [(show Entity c from reply).id]
  | _, _ => []

/-- The identities that a graph gives out in a run. -/
def Backend.issued {σ : Type} (b : Backend σ) : σ → List Engine.Step → List Id
  | _, [] => []
  | s, step :: rest =>
    step.call.ids (b.answer step.stamp step.call s).1 ++ b.issued (b.advance s step) rest

theorem Backend.issued_append {σ : Type} (b : Backend σ) (s : σ) (steps : List Engine.Step)
    (step : Engine.Step) : b.issued s (steps ++ [step])
      = b.issued s steps
        ++ step.call.ids (b.answer step.stamp step.call (b.after s steps)).1 := by
  induction steps generalizing s with
  | nil => simp [issued, after]
  | cons first rest ih => simp [issued, ih, after]

namespace Suite

open Engine (Step given)

variable {stamp : Stamp} {tree : FileTree} {members : List (String × Suite)} {owners : Owners}
  {name key : String} {used : List String} {issued : List Id} {s s' : GraphState}

/-! ## Runs that stay within a dispatcher -/

/-- An identity reads as one that was given out. -/
def Issued (issued : List Id) (id : Id) : Prop :=
  ∃ composite, CompositeId.ofId id = .ok composite ∧ composite.toId ∈ issued

/-- A call that creates entities of owned types, addresses entities by identities that were given
    out and moves none of them to another suite, with no other extension than adjacency. -/
def Within (owners : Owners) (issued : List Id) : Call → Prop
  | .get _ id => Issued issued id
  | .search c s => s.AdjacencyOnly c
  | .create c body => ∃ name, owners.owner? c body.type = some name
  | .edit c id patch => Issued issued id ∧ ∀ composite, CompositeId.ofId id = .ok composite →
      ∀ type, patch.type = some type → owners.owner? c type = some composite.suite
  | .remove _ id => Issued issued id
  | .types _ => False

/-- A run of such calls that makes identities from distinct texts. -/
structure RunsWithin (dispatcher : Suite) (owners : Owners) (tree : FileTree)
    (steps : List Step) : Prop where
  distinct : (given steps).Nodup
  within : ∀ before step after, steps = before ++ step :: after →
    Within owners (backend.issued (dispatcher, tree) before) step.call

theorem RunsWithin.before {dispatcher : Suite} {steps rest : List Step}
    (h : RunsWithin dispatcher owners tree (steps ++ rest)) :
    RunsWithin dispatcher owners tree steps where
  distinct := Engine.distinct_before h.distinct
  within before other after heq :=
    h.within before other (after ++ rest) (by rw [heq, List.append_assoc, List.cons_append])

theorem runsWithin_nil (dispatcher : Suite) (owners : Owners) (tree : FileTree) :
    RunsWithin dispatcher owners tree [] where
  distinct := List.nodup_nil
  within before step after heq := by
    rcases List.append_eq_nil_iff.1 heq.symm with ⟨-, hcons⟩
    cases hcons

/-- A run goes on with a call that is within the dispatcher by then. -/
theorem RunsWithin.append {dispatcher : Suite} {steps : List Step} {step : Step}
    (h : RunsWithin dispatcher owners tree steps)
    (hfresh : ∀ unique ∈ step.given, unique ∉ given steps)
    (hwithin : Within owners (backend.issued (dispatcher, tree) steps) step.call) :
    RunsWithin dispatcher owners tree (steps ++ [step]) where
  distinct := Engine.distinct_append h.distinct hfresh
  within before other after heq := by
    obtain ⟨rfl, rfl⟩ | ⟨rest, heq'⟩ := Engine.last_or_before heq
    · exact hwithin
    · exact h.within before other rest heq'

/-! ## One outcome and the other -/

/-- An entity under the composite identity that its owner makes of the native one. -/
def composed (owners : Owners) (e : Entity c) : Entity c :=
  match owners.owner? c e.type with
  | some name => compose name e
  | none => e

/-- What a dispatcher replies to a call, and what the single store replies to the native call: the
    same but for the identities of the entities and the order in which a search finds them.  Only
    where the searcher is malformed may the dispatcher succeed in a search in which the single
    store fails. -/
def Agrees (owners : Owners) : (call : Call) → Outcome call.Reply → Outcome call.native.Reply → Prop
  | .get c _, outcome, single =>
    outcome = single.map fun (e : Option (Entity c)) => e.map (composed owners)
  | .search c s, outcome, single =>
    match outcome, single with
    | .ok found, .ok all =>
      List.Perm (show List (Entity c) from found)
        ((show List (Entity c) from all).map (composed owners))
    | .error failure, .error failure' => failure = failure'
    | .ok _, .error failure => failure = .malformed ∧ ¬ s.WellFormed c
    | .error _, .ok _ => False
  | .create c _, outcome, single => outcome = single.map fun (e : Entity c) => composed owners e
  | .edit c _ _, outcome, single => outcome = single.map fun (e : Entity c) => composed owners e
  | .remove _ _, outcome, single => outcome = single
  | .types _, outcome, single => outcome = single

/-! ## Members that divide a state -/

/-- The members divide a state among them: each entity stands with the owner of its type, and the
    identities that were given out name the right member, as long as there is an entity at all. -/
structure Splits (members : List (String × Suite)) (owners : Owners) (used : List String)
    (issued : List Id) (s : GraphState) : Prop where
  held : Held (fun _ => .blank) members owners
  keyed : s.Keyed
  fresh : ∀ c key e, s.get c key = some e → key ∈ used
  apart : ∀ c c' key e e', s.get c key = some e → s.get c' key = some e' → c = c'
  owned : ∀ c key e, s.get c key = some e → ∃ name, owners.owner? c e.type = some name
  parts : ∀ name c key, (stateOf members name).get c key
    = (s.get c key).filter fun e => owners.owner? c e.type = some name
  named : ∀ id ∈ issued, ∃ name key, id = (CompositeId.mk name (.ofString key)).toId
    ∧ name ∈ Entries.keys members ∧ key ∈ used
    ∧ ∀ c e, s.get c key = some e → owners.owner? c e.type = some name

/-- What a member holds is in the state, and of its types. -/
theorem Splits.of_part (h : Splits members owners used issued s) {e : Entity c}
    (hget : (stateOf members name).get c key = some e) :
    s.get c key = some e ∧ owners.owner? c e.type = some name := by
  rw [h.parts, Option.filter_eq_some_iff] at hget
  exact ⟨hget.1, of_decide_eq_true hget.2⟩

/-- What the state holds under an identity that was given out, the named member holds. -/
theorem Splits.part (h : Splits members owners used issued s)
    (howner : ∀ e : Entity c, s.get c key = some e → owners.owner? c e.type = some name) :
    (stateOf members name).get c key = s.get c key := by
  rw [h.parts]
  cases hget : s.get c key with
  | none => rfl
  | some e => simp [howner e hget]

theorem mem_keys_of_stateOf {e : Entity c} (h : (stateOf members name).get c key = some e) :
    name ∈ Entries.keys members := by
  rw [Entries.mem_keys_iff]
  cases hmember : Entries.get? name members with
  | some suite => exact ⟨suite, rfl⟩
  | none =>
    rw [stateOf, hmember] at h
    cases c <;> cases h

/-- Identities of entities that a member holds may be given out. -/
theorem Splits.issue (h : Splits members owners used issued s) {ids : List Id}
    (hids : ∀ id ∈ ids, ∃ name c key, ∃ e : Entity c, (stateOf members name).get c key = some e
      ∧ id = (CompositeId.mk name (.ofString key)).toId) :
    Splits members owners used (issued ++ ids) s := by
  refine { h with named := fun id hid => ?_ }
  rcases List.mem_append.1 hid with hold | hnew
  · exact h.named id hold
  obtain ⟨name, c, key, e, hget, rfl⟩ := hids id hnew
  obtain ⟨hhere, howner⟩ := h.of_part hget
  refine ⟨name, key, rfl, mem_keys_of_stateOf hget, h.fresh c key e hhere, fun c' e' hget' => ?_⟩
  -- the other class has nothing under this key
  obtain rfl := h.apart c c' key e e' hhere hget'
  obtain rfl : e = e' := Option.some.inj (hhere.symm.trans hget')
  exact howner

/-- What is of one suite's types is not of another's. -/
theorem filter_of_other_owner {found : Option (Entity c)} {other : String}
    (h : ∀ e, found = some e → owners.owner? c e.type = some name) (hne : other ≠ name) :
    found.filter (fun e => owners.owner? c e.type = some other) = none := by
  cases found with
  | none => rfl
  | some e => simp [h e rfl, hne.symm]

/-- The parts of the members after the state and the owning member have changed alike. -/
theorem Splits.parts_change (h : Splits members owners used issued s) {m : GraphState}
    {found : Option (Entity c)} (hs : s.ChangesAt s' c key found)
    (hm : (stateOf members name).ChangesAt m c key found)
    (hbefore : ∀ e, s.get c key = some e → owners.owner? c e.type = some name)
    (hafter : ∀ e, found = some e → owners.owner? c e.type = some name)
    (name' : String) (c' : EntityClass) (key' : String) :
    (stateOf (Entries.insert name (.store (Store.blank.withState m)) members) name').get c' key'
      = (s'.get c' key').filter fun e => owners.owner? c' e.type = some name' := by
  obtain haway | ⟨rfl, rfl⟩ := Table.away_or_here c' c key' key
  · rw [hs.others c' key' haway, ← h.parts]
    by_cases hhere : name' = name
    · rw [hhere, stateOf_insert_self, hm.others c' key' haway]
    · rw [stateOf_insert_of_ne hhere]
  · rw [hs.here]
    by_cases hhere : name' = name
    · rw [hhere, stateOf_insert_self, hm.here]
      cases found with
      | none => rfl
      | some e => simp [Option.filter, hafter e rfl]
    · -- another member has nothing there, before and after
      rw [stateOf_insert_of_ne hhere, h.parts, filter_of_other_owner hbefore hhere,
        filter_of_other_owner hafter hhere]

/-- The state and the owning member change alike under one key. -/
theorem Splits.change (h : Splits members owners used issued s) {m : GraphState}
    {found : Option (Entity c)} (used' : List String)
    (hname : name ∈ Entries.keys members) (hkeyed : s'.Keyed) (hkeyedPart : m.Keyed)
    (hs : s.ChangesAt s' c key found) (hm : (stateOf members name).ChangesAt m c key found)
    (hbefore : ∀ e, s.get c key = some e → owners.owner? c e.type = some name)
    (hafter : ∀ e, found = some e → owners.owner? c e.type = some name ∧ key ∈ used'
      ∧ ∀ c', c' ≠ c → s.get c' key = none)
    (hnew : s.get c key = none → found = none ∨ key ∉ used)
    (hused : ∀ key ∈ used, key ∈ used') :
    Splits (Entries.insert name (.store (Store.blank.withState m)) members) owners used' issued
      s' := by
  obtain ⟨suite, hmember⟩ := Entries.mem_keys_iff.1 hname
  obtain ⟨hheld, hkeys⟩ := h.held.insert hmember hkeyedPart
  -- the other class has nothing under the key of a new entity
  have hapart : ∀ c' e' (e : Entity c), found = some e → s'.get c' key = some e' → c' = c := by
    intro c' e' e hfound hget'
    by_contra hclass
    rw [hs.others c' key (absurd · hclass), (hafter e hfound).2.2 c' hclass] at hget'
    cases hget'
  refine ⟨hheld, hkeyed, fun c' key' e hget => ?_, fun c₁ c₂ key' e₁ e₂ hget₁ hget₂ => ?_,
    fun c' key' e hget => ?_,
    h.parts_change hs hm hbefore fun e hfound => (hafter e hfound).1, fun id hid => ?_⟩
  · obtain ⟨rfl, rfl⟩ | hold := hs.of_some_after hget
    · exact (hafter e (hs.here.symm.trans hget)).2.1
    · exact hused key' (h.fresh c' key' e hold)
  · obtain ⟨rfl, rfl⟩ | hold₁ := hs.of_some_after hget₁
    · exact (hapart c₂ e₂ e₁ (hs.here.symm.trans hget₁) hget₂).symm
    · obtain ⟨rfl, rfl⟩ | hold₂ := hs.of_some_after hget₂
      · exact hapart c₁ e₁ e₂ (hs.here.symm.trans hget₂) hget₁
      · exact h.apart c₁ c₂ key' e₁ e₂ hold₁ hold₂
  · obtain ⟨rfl, rfl⟩ | hold := hs.of_some_after hget
    · exact ⟨name, (hafter e (hs.here.symm.trans hget)).1⟩
    · exact h.owned c' key' e hold
  · obtain ⟨name', key', rfl, hmem, hkey, howner⟩ := h.named id hid
    refine ⟨name', key', rfl, hkeys ▸ hmem, hused key' hkey, fun c' e hget => ?_⟩
    obtain ⟨rfl, rfl⟩ | hold := hs.of_some_after hget
    · have hfound := hs.here.symm.trans hget
      -- the identity named the member that has changed
      cases hbefore' : s.get c' key' with
      | none =>
        rcases hnew hbefore' with hnone | hfresh
        · rw [hnone] at hfound
          cases hfound
        · exact absurd hkey hfresh
      | some old =>
        rw [(hafter e hfound).1, ← hbefore old hbefore', howner c' old hbefore']
    · exact howner c' e hold

/-! ## Steps -/

theorem composed_of_owner {e : Entity c} (h : owners.owner? c e.type = some name) :
    composed owners e = compose name e := by
  rw [composed, h]

/-- A call to members that divide a state: the dispatcher and the single store agree, and the members
    divide the state after it. -/
def Continues (members : List (String × Suite)) (owners : Owners) (tree : FileTree) (stamp : Stamp)
    (call : Call) (used : List String) (issued : List Id) (s : GraphState) : Prop :=
  ∃ outcome members', (answer stamp (.dispatcher members owners) call).run tree
      = ((outcome, .dispatcher members' owners), tree)
    ∧ Splits members' owners used (issued ++ call.ids outcome)
      (Store.blank.respond stamp s call.native).2
    ∧ Agrees owners call outcome (Store.blank.respond stamp s call.native).1

/-- A forwarded call is answered from the state of the member. -/
theorem Splits.run_forwarded (h : Splits members owners used issued s) {call inner : Call}
    {wrap : Outcome inner.Reply → Outcome call.Reply}
    (hforwards : Forwards owners name call inner wrap) (hname : name ∈ Entries.keys members)
    (stamp : Stamp) (tree : FileTree) :
    (answer stamp (.dispatcher members owners) call).run tree
      = ((wrap (Store.blank.respond stamp (stateOf members name) inner).1,
          .dispatcher (Entries.insert name (.store (Store.blank.withState
            (Store.blank.respond stamp (stateOf members name) inner).2)) members) owners), tree) := by
  have hmember := h.held.inMemory.get?_eq hname
  rw [run_of_forwards hforwards hmember, (h.held.inMemory.run hmember).2]

/-- A member whose state has not changed is the member that it was. -/
theorem Splits.insert_same (h : Splits members owners used issued s)
    (hname : name ∈ Entries.keys members) :
    Entries.insert name (.store (Store.blank.withState (stateOf members name))) members
      = members :=
  Entries.insert_of_get? (h.held.inMemory.get?_eq hname)

/-- What an identity that was given out names. -/
theorem Splits.named_of_issued (h : Splits members owners used issued s) {id : Id}
    (hid : Issued issued id) : ∃ name key, CompositeId.ofId id = .ok ⟨name, .ofString key⟩
      ∧ CompositeId.native id = .ofString key ∧ name ∈ Entries.keys members ∧ key ∈ used
      ∧ ∀ c e, s.get c key = some e → owners.owner? c e.type = some name := by
  obtain ⟨composite, hread, hmem⟩ := hid
  obtain ⟨name, key, heq, hfacts⟩ := h.named _ hmem
  obtain rfl := CompositeId.toId_inj heq
  refine ⟨name, key, hread, ?_, hfacts⟩
  rw [CompositeId.native, hread]

theorem Splits.get (h : Splits members owners used issued s) {id : Id} (hid : Issued issued id) :
    Continues members owners tree stamp (.get c id) used issued s := by
  obtain ⟨name, key, hread, hnative, hname, -, howner⟩ := h.named_of_issued hid
  have hrun := h.run_forwarded (.get (c := c) hread) hname stamp tree
  have hpart := h.part (howner c)
  simp only [Store.respond] at hrun
  rw [h.insert_same hname] at hrun
  refine ⟨_, _, hrun, ?_, ?_⟩
  · refine h.issue fun id' hid' => ?_
    obtain ⟨e', he', rfl⟩ := List.mem_map.1 hid'
    obtain ⟨e, hget, rfl⟩ := Option.map_eq_some_iff.1 (Option.mem_toList.1 he')
    refine ⟨name, c, key, e, hget, ?_⟩
    rw [compose_id, (h.held.inMemory.keyed name).id_of_get hget]
  · show Except.ok (Option.map (compose name) ((stateOf members name).get c key))
      = Except.map _ (Store.blank.respond stamp s (.get c (CompositeId.native id))).1
    rw [hpart, hnative]
    show Except.ok (Option.map (compose name) (s.get c key))
      = Except.ok (Option.map (composed owners) (s.get c key))
    cases hget : s.get c key with
    | none => rfl
    | some e =>
      rw [Option.map_some, Option.map_some, composed_of_owner (howner c e hget)]

theorem Splits.create (h : Splits members owners used issued s) {body : Body c}
    (howner : owners.owner? c body.type = some name) (hfresh : stamp.unique ∉ used) :
    Continues members owners tree stamp (.create c body) (used ++ [stamp.unique]) issued s := by
  have hname := h.held.known c body.type name howner
  have hrun := h.run_forwarded (.create howner) hname stamp tree
  -- a new text names no entity of any class yet
  have hnone : ∀ c', s.get c' stamp.unique = none := by
    intro c'
    cases hget : s.get c' stamp.unique with
    | none => rfl
    | some e => exact absurd (h.fresh c' stamp.unique e hget) hfresh
  obtain ⟨e, he, hid, htype⟩ : ∃ e : Entity c,
      body.create (.ofString stamp.unique) (some stamp.time) = e
        ∧ e.id = .ofString stamp.unique ∧ owners.owner? c e.type = some name :=
    ⟨_, rfl, rfl, howner⟩
  have hresponds : ∀ s, Store.blank.respond stamp s (.create c body)
      = (.ok e, s.insert stamp.unique e) := by
    intro s
    rw [Store.respond, Store.keyOf_blank, he]
  rw [hresponds] at hrun
  have hsplits := h.change (used ++ [stamp.unique]) hname (h.keyed.insert hid)
    ((h.held.inMemory.keyed name).insert hid) (s.changesAt_insert stamp.unique e)
    ((stateOf members name).changesAt_insert stamp.unique e)
    (fun old hget => by rw [hnone c] at hget; cases hget)
    (fun new hnew => by
      obtain rfl := Option.some.inj hnew
      exact ⟨htype, by simp, fun c' _ => hnone c'⟩)
    (fun _ => .inr hfresh) fun key hkey => List.mem_append_left _ hkey
  have hthere : (stateOf (Entries.insert name (.store (Store.blank.withState
      ((stateOf members name).insert stamp.unique e))) members) name).get c stamp.unique
        = some e := by
    rw [stateOf_insert_self]
    exact (GraphState.changesAt_insert _ _ e).here
  refine ⟨_, _, hrun, ?_, ?_⟩
  · show Splits _ _ _ _ (Store.blank.respond stamp s (.create c body)).2
    rw [hresponds]
    refine hsplits.issue fun id hmem => ⟨name, c, stamp.unique, e, hthere, ?_⟩
    rw [List.mem_singleton.1 hmem, ← hid]
    rfl
  · show _ = Except.map _ (Store.blank.respond stamp s (.create c body)).1
    rw [hresponds]
    exact congrArg Except.ok (composed_of_owner htype).symm

/-- An entity that is there is changed for both alike. -/
theorem Splits.edit_of_get (h : Splits members owners used issued s) {id : Id} {patch : Patch c}
    (hread : CompositeId.ofId id = .ok ⟨name, .ofString key⟩)
    (hnative : CompositeId.native id = .ofString key) (hname : name ∈ Entries.keys members)
    (hkey : key ∈ used)
    (hstays : ∀ type, patch.type = some type → owners.owner? c type = some name) {e : Entity c}
    (hget : s.get c key = some e) (howner : owners.owner? c e.type = some name) :
    Continues members owners tree stamp (.edit c id patch) used issued s := by
  have hrun := h.run_forwarded (.edit hread hstays) hname stamp tree
  -- the member that owns the type has the same entity as the one store
  have hpart : (stateOf members name).get c key = some e := by
    rw [← hget]
    refine h.part fun e' hget' => ?_
    obtain rfl : e = e' := Option.some.inj (hget.symm.trans hget')
    exact howner
  -- a new type must have the same owner, so the entity stays with its member
  obtain ⟨e', he', hid, htype⟩ : ∃ e' : Entity c, patch.apply e stamp.time = e'
      ∧ e'.id = .ofString key ∧ owners.owner? c e'.type = some name := by
    have hid : e.id = .ofString key := h.keyed.id_of_get hget
    refine ⟨_, rfl, hid, ?_⟩
    show owners.owner? c (patch.type.getD e.type) = some name
    cases hnew : patch.type with
    | none => exact howner
    | some type => exact hstays type hnew
  have hresponds : ∀ s : GraphState, s.get c key = some e →
      Store.blank.respond stamp s (.edit c (.ofString key) patch) = (.ok e', s.insert key e') := by
    intro s hget
    rw [← he']
    exact GraphState.edit_of_get hget (.ofString key) patch stamp.time
  rw [hresponds _ hpart] at hrun
  -- both states change under one key, the same way
  have hsplits := h.change used hname (h.keyed.insert hid)
    ((h.held.inMemory.keyed name).insert hid) (s.changesAt_insert key e')
    ((stateOf members name).changesAt_insert key e')
    (fun old hold => by
      obtain rfl : e = old := Option.some.inj (hget.symm.trans hold)
      exact howner)
    (fun new hnew => by
      obtain rfl := Option.some.inj hnew
      refine ⟨htype, hkey, fun c' hclass => ?_⟩
      cases hother : s.get c' key with
      | none => rfl
      | some other => exact absurd (h.apart c' c key other e hother hget) hclass)
    (fun hnone => by rw [hget] at hnone; cases hnone) fun _ hmem => hmem
  have hthere : (stateOf (Entries.insert name (.store (Store.blank.withState
      ((stateOf members name).insert key e'))) members) name).get c key = some e' := by
    rw [stateOf_insert_self]
    exact (GraphState.changesAt_insert _ _ e').here
  refine ⟨_, _, hrun, ?_, ?_⟩
  · show Splits _ _ _ _ (Store.blank.respond stamp s (.edit c (CompositeId.native id) patch)).2
    rw [hnative, hresponds s hget]
    refine hsplits.issue fun id hmem => ⟨name, c, key, e', hthere, ?_⟩
    rw [List.mem_singleton.1 hmem, ← hid]
    rfl
  · show _ = Except.map _ (Store.blank.respond stamp s (.edit c (CompositeId.native id) patch)).1
    rw [hnative, hresponds s hget]
    exact congrArg Except.ok (composed_of_owner htype).symm

theorem Splits.edit (h : Splits members owners used issued s) {id : Id} {patch : Patch c}
    (hid : Issued issued id) (hstays : ∀ composite, CompositeId.ofId id = .ok composite →
      ∀ type, patch.type = some type → owners.owner? c type = some composite.suite) :
    Continues members owners tree stamp (.edit c id patch) used issued s := by
  obtain ⟨name, key, hread, hnative, hname, hkey, howner⟩ := h.named_of_issued hid
  have hstays := hstays _ hread
  cases hget : s.get c key with
  | some e => exact h.edit_of_get hread hnative hname hkey hstays hget (howner c e hget)
  | none =>
    have hresponds : ∀ s : GraphState, s.get c key = none →
        Store.blank.respond stamp s (.edit c (.ofString key) patch)
          = (.error (.notFound c (.ofString key)), s) :=
      fun s hget => GraphState.edit_of_none hget (.ofString key) patch stamp.time
    have hrun := h.run_forwarded (.edit hread hstays) hname stamp tree
    rw [hresponds _ ((h.part (howner c)).trans hget), h.insert_same hname] at hrun
    refine ⟨_, _, hrun, ?_, ?_⟩
    · show Splits _ _ _ (issued ++ [])
        (Store.blank.respond stamp s (.edit c (CompositeId.native id) patch)).2
      rw [hnative, hresponds s hget, List.append_nil]
      exact h
    · show _ = Except.map _ (Store.blank.respond stamp s (.edit c (CompositeId.native id) patch)).1
      rw [hnative, hresponds s hget]
      rfl

theorem Splits.remove (h : Splits members owners used issued s) {id : Id}
    (hid : Issued issued id) :
    Continues members owners tree stamp (.remove c id) used issued s := by
  obtain ⟨name, key, hread, hnative, hname, hkey, howner⟩ := h.named_of_issued hid
  have hforwards : Forwards owners name (.remove c id) (.remove c (.ofString key))
    fun outcome => outcome := .remove hread
  have hrun := h.run_forwarded hforwards hname stamp tree
  -- the one store and the member have the same entity under the key, or neither has one
  have hpart := h.part (howner c)
  cases hget : s.get c key with
  | none =>
    have hresponds : ∀ s : GraphState, s.get c key = none →
        Store.blank.respond stamp s (.remove c (.ofString key))
          = (.error (.notFound c (.ofString key)), s) :=
      fun s hget => GraphState.remove_of_none hget (.ofString key)
    rw [hresponds _ (hpart.trans hget), h.insert_same hname] at hrun
    refine ⟨_, _, hrun, ?_, ?_⟩
    · show Splits _ _ _ (issued ++ [])
        (Store.blank.respond stamp s (.remove c (CompositeId.native id))).2
      rw [hnative, hresponds s hget, List.append_nil]
      exact h
    · show _ = (Store.blank.respond stamp s (.remove c (CompositeId.native id))).1
      rw [hnative, hresponds s hget]
  | some e =>
    have hresponds : ∀ s : GraphState, s.get c key = some e →
        Store.blank.respond stamp s (.remove c (.ofString key))
          = (.ok (), s.withEntities c ((s.entities c).erase key)) :=
      fun s hget => GraphState.remove_of_get hget (.ofString key)
    rw [hresponds _ (hpart.trans hget)] at hrun
    refine ⟨_, _, hrun, ?_, ?_⟩
    · show Splits _ _ _ (issued ++ [])
        (Store.blank.respond stamp s (.remove c (CompositeId.native id))).2
      rw [hnative, hresponds s hget, List.append_nil]
      have hkeyed := h.held.inMemory.keyed name
      exact h.change used hname (h.keyed.erase c key) (hkeyed.erase c key)
        (GraphState.changesAt_erase h.keyed c key) (GraphState.changesAt_erase hkeyed c key)
        (howner c) nofun (fun hnone => by rw [hget] at hnone; cases hnone) fun _ hmem => hmem
    · show _ = (Store.blank.respond stamp s (.remove c (CompositeId.native id))).1
      rw [hnative, hresponds s hget]

end Suite

end PropertyGraph
