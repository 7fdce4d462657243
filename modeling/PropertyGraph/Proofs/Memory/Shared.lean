/-
  PropertyGraph.Proofs.Memory.Shared

  A store whose state is kept as a value.  Its answer to a call and the state after it are
  functions of the state before, and no file plays a part.  Whatever it is asked, each key
  stands once, and the entity under a key has that key for its identity.
-/
import PropertyGraph.Proofs.Memory.Snapshot
import Mathlib.Data.List.Nodup

namespace PropertyGraph

variable {c : EntityClass}

/-! ## States by keys -/

namespace GraphState

variable {s : GraphState}

/-- No key stands twice, and an entity is known by the key that it stands under. -/
structure Keyed (s : GraphState) : Prop where
  distinct : ∀ c, (Entries.keys (s.entities c)).Nodup
  named : ∀ c, ∀ e ∈ s.entities c, e.2.id = .ofString e.1

theorem keyed_empty : Keyed empty where
  distinct c := by cases c <;> exact List.nodup_nil
  named c e he := by cases c <;> cases he

theorem Keyed.withEntities (h : s.Keyed) {es : Entries (Entity c)}
    (hdistinct : (Entries.keys es).Nodup) (hnamed : ∀ e ∈ es, e.2.id = .ofString e.1) :
    (s.withEntities c es).Keyed := by
  have hcases : ∀ c', c' = c ∨ (s.withEntities c es).entities c' = s.entities c' := by
    intro c'
    by_cases hclass : c' = c
    · exact .inl hclass
    · exact .inr (entities_withEntities_of_ne s hclass es)
  refine ⟨fun c' => ?_, fun c' => ?_⟩
  · rcases hcases c' with rfl | hsame
    · rwa [entities_withEntities]
    · rw [hsame]
      exact h.distinct c'
  · rcases hcases c' with rfl | hsame
    · rwa [entities_withEntities]
    · rw [hsame]
      exact h.named c'

theorem Keyed.insert (h : s.Keyed) {key : String} {e : Entity c} (he : e.id = .ofString key) :
    (s.insert key e).Keyed := by
  refine h.withEntities (Entries.nodup_keys_insert (h.distinct c) key e) fun x hx => ?_
  rcases Entries.mem_insert hx with rfl | hold
  · exact he
  · exact h.named c x hold

/-- What a key gives is known by that key. -/
theorem Keyed.id_of_get (h : s.Keyed) {key : String} {e : Entity c} (hget : s.get c key = some e) :
    e.id = .ofString key :=
  h.named c (key, e) (Entries.mem_of_get? hget)

/-- A change of an entity that is there. -/
theorem edit_of_get {key : String} {e : Entity c} (h : s.get c key = some e) (id : Id)
    (patch : Patch c) (time : Int) : s.edit id key patch time
      = (.ok (patch.apply e time), s.insert key (patch.apply e time)) := by
  rw [GraphState.edit, h]

theorem edit_of_none {key : String} (h : s.get c key = none) (id : Id) (patch : Patch c)
    (time : Int) : s.edit id key patch time = (.error (.notFound c id), s) := by
  rw [GraphState.edit, h]

/-- The removal of an entity that is there. -/
theorem remove_of_get {key : String} {e : Entity c} (h : s.get c key = some e) (id : Id) :
    s.remove c id key = (.ok (), s.withEntities c ((s.entities c).erase key)) := by
  rw [GraphState.remove, h]

theorem remove_of_none {key : String} (h : s.get c key = none) (id : Id) :
    s.remove c id key = (.error (.notFound c id), s) := by
  rw [GraphState.remove, h]

theorem Keyed.erase (h : s.Keyed) (c : EntityClass) (key : String) :
    (s.withEntities c ((s.entities c).erase key)).Keyed :=
  h.withEntities (Entries.nodup_keys_erase (h.distinct c) key)
    fun x hx => h.named c x ((Entries.sublist_erase key (s.entities c)).subset hx)

theorem Keyed.edit (h : s.Keyed) (id : Id) (key : String) (patch : Patch c) (time : Int) :
    (s.edit id key patch time).2.Keyed := by
  cases hget : s.get c key with
  | none =>
    rw [edit_of_none hget]
    exact h
  | some e =>
    -- a change leaves the identity as it is
    have hid : e.id = .ofString key := h.id_of_get hget
    rw [edit_of_get hget]
    exact h.insert (e := patch.apply e time) hid

theorem Keyed.remove (h : s.Keyed) (id : Id) (key : String) : (s.remove c id key).2.Keyed := by
  cases hget : s.get c key with
  | none =>
    rw [remove_of_none hget]
    exact h
  | some e =>
    rw [remove_of_get hget]
    exact h.erase c key

/-- No two entities of a class have one identity. -/
theorem Keyed.nodup_ids (h : s.Keyed) (c : EntityClass) :
    ((s.entities c).values.map Entity.id).Nodup := by
  have hids : (s.entities c).values.map Entity.id
      = (Entries.keys (s.entities c)).map Id.ofString := by
    rw [Entries.values, Entries.keys, List.map_map, List.map_map]
    exact List.map_congr_left fun e he => h.named c e he
  rw [hids]
  refine List.Nodup.map (fun first second hsame => ?_) (h.distinct c)
  simpa [Id.ofString] using hsame

/-- Entities of a class with one identity are one entity. -/
theorem Keyed.eq_of_id (h : s.Keyed) {e e' : Entity c} (he : e ∈ (s.entities c).values)
    (he' : e' ∈ (s.entities c).values) (hid : e.id = e'.id) : e = e' :=
  List.inj_on_of_nodup_map (h.nodup_ids c) he he' hid

end GraphState

/-! ## Answers as functions of the state -/

namespace Store

variable {store : Store} {s : GraphState}

/-- What a store answers in a state, and the state after it. -/
def respond (store : Store) (stamp : Stamp) (s : GraphState) :
    (call : Call) → Outcome call.Reply × GraphState
  | .get c id => (id.requireText.map fun key => s.get c key, s)
  | .search c searcher =>
    (searcher.filter (store.evaluators.forClass c) (s.entities c).values, s)
  | .create c body =>
    let e : Entity c :=
      body.create (.ofString (store.keyOf stamp.unique)) (some stamp.time)
    (.ok e, s.insert (store.keyOf stamp.unique) e)
  | .edit _ id patch =>
    match id.requireText with
    | .ok key => s.edit id key patch stamp.time
    | .error failure => (.error failure, s)
  | .remove c id =>
    match id.requireText with
    | .ok key => s.remove c id key
    | .error failure => (.error failure, s)
  | .types c => (.ok (s.types c), s)

/-- A store with nothing in it, whose identities are the unique texts themselves. -/
def blank : Store := ⟨none, .builtin, .shared .empty⟩

theorem keyOf_blank (unique : String) : blank.keyOf unique = unique := by
  simp [keyOf, blank]

/-- The store with a state as a value. -/
def withState (store : Store) (s : GraphState) : Store := { store with keeper := .shared s }

theorem withState_of_keeper (hkeeper : store.keeper = .shared s) : store.withState s = store := by
  rw [withState, ← hkeeper]

/-- A store in a state answers as it responds in that state, and goes on in the state after. -/
theorem run_answer_withState (store : Store) (s : GraphState) (stamp : Stamp) (call : Call)
    (tree : FileTree) :
    ((store.withState s).answer stamp call).run tree
      = (((store.respond stamp s call).1, store.withState (store.respond stamp s call).2),
          tree) := by
  cases call with
  | get c id =>
    rw [answer, withKey, respond]
    cases id.requireText <;> rfl
  | search c searcher =>
    have hevaluators : (store.withState s).evaluators = store.evaluators := rfl
    rw [answer, respond, Searcher.filter, hevaluators]
    cases searcher.compile (store.evaluators.forClass c) <;> rfl
  | create c body => rfl
  | edit c id patch =>
    rw [answer, withKey, respond]
    cases id.requireText <;> rfl
  | remove c id =>
    rw [answer, withKey, respond]
    cases id.requireText <;> rfl
  | types c => rfl

/-- Every answer keeps entities under their own keys. -/
theorem keyed_respond (store : Store) (h : s.Keyed) (stamp : Stamp) (call : Call) :
    (store.respond stamp s call).2.Keyed := by
  cases call with
  | get c id => exact h
  | search c searcher => exact h
  | create c body => exact h.insert rfl
  | edit c id patch =>
    rw [respond]
    cases id.requireText with
    | ok key => exact h.edit id key patch stamp.time
    | error failure => exact h
  | remove c id =>
    rw [respond]
    cases id.requireText with
    | ok key => exact h.remove id key
    | error failure => exact h
  | types c => exact h

/-! ## Runs from the empty state -/

/-- A store that some run of calls has left, having begun with nothing stored. -/
def Reached (store : Store) : Prop :=
  ∃ tree steps, (backend.after (store.withState .empty, tree) steps).1 = store

/-- A run of calls keeps the store but for its state, which stays keyed. -/
theorem after_withState (store : Store) (tree : FileTree) (steps : List Engine.Step) :
    ∃ s, backend.after (store.withState .empty, tree) steps = (store.withState s, tree)
      ∧ s.Keyed := by
  induction steps using List.reverseRecOn with
  | nil => exact ⟨.empty, rfl, GraphState.keyed_empty⟩
  | append_singleton steps step ih =>
    obtain ⟨s, hafter, hkeyed⟩ := ih
    refine ⟨_, ?_, store.keyed_respond hkeyed step.stamp step.call⟩
    rw [Backend.after_append, hafter, Backend.advance, backend]
    simp only [run_answer_withState]

/-- A store that has been reached is in some keyed state. -/
theorem Reached.keyed (h : store.Reached) : ∃ s, store = store.withState s ∧ s.Keyed := by
  obtain ⟨tree, steps, hreached⟩ := h
  obtain ⟨s, hafter, hkeyed⟩ := after_withState store tree steps
  refine ⟨s, ?_, hkeyed⟩
  rw [hafter] at hreached
  exact hreached.symm

end Store

end PropertyGraph
