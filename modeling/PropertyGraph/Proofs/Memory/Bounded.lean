/-
  PropertyGraph.Proofs.Memory.Bounded

  What a store in memory replies, wherever it keeps its state.  A state as a value stays proper
  under all proper calls; a state in a snapshot file is proper whatever the file holds, for it has
  been read from a text.  So every reply comes from some proper state, or files have failed.
-/
import PropertyGraph.Proofs.Memory.Persistence
import PropertyGraph.Proofs.Transport.Hops

namespace PropertyGraph

open Engine (Step)
open Json (Tree Record)

variable {c : EntityClass} {s : GraphState} {tree : FileTree} {given : List String}

/-! ## States -/

namespace GraphState

/-- All values of a state are bounded, under keys that do not repeat. -/
def Bounded (s : GraphState) : Prop := ∃ given, s.Proper Number.Bounded given

theorem bounded_empty : Bounded empty := ⟨[], proper_empty⟩

theorem Bounded.entity (h : s.Bounded) {e : String × Entity c} (he : e ∈ s.entities c) :
    e.2.Proper Number.Bounded := by
  obtain ⟨given, hs⟩ := h
  exact hs.all c e he

theorem Bounded.insert (h : s.Bounded) (key : String) {e : Entity c}
    (he : e.Proper Number.Bounded) : (s.insert key e).Bounded := by
  obtain ⟨given, hs⟩ := h
  exact ⟨key :: given, (hs.mono fun _ hkey => List.mem_cons_of_mem _ hkey).insert
    (List.mem_cons_self ..) he⟩

theorem Bounded.edit (h : s.Bounded) (id : Id) (key : String) {patch : Patch c} {time : Int}
    (hpatch : patch.Proper Number.Bounded) (htime : TimeFits time) :
    (s.edit id key patch time).2.Bounded := by
  obtain ⟨given, hs⟩ := h
  exact ⟨given, hs.edit hpatch htime⟩

theorem Bounded.remove (h : s.Bounded) (c : EntityClass) (id : Id) (key : String) :
    (s.remove c id key).2.Bounded := by
  obtain ⟨given, hs⟩ := h
  exact ⟨given, hs.remove⟩

/-- Entities under keys that are read from a text are proper. -/
theorem proper_of_toMap {t : Tree} (ht : t.Bounded Number.Bounded 1) {es : Entries (Entity c)}
    (h : Tree.toMap Entity.decode t = .ok es) :
    (Entries.keys es).Nodup ∧ ∀ e ∈ es, e.2.Proper Number.Bounded := by
  unfold Tree.toMap at h
  split at h
  · next entries closed =>
    obtain ⟨decoded, hdecoded, h⟩ := Document.exists_of_bind h
    split at h
    · obtain rfl := Except.ok.inj h
      refine ⟨Entries.nodup_keys_collapse decoded, fun e he => ?_⟩
      obtain ⟨⟨key, value⟩, hmem, hvalue⟩ :=
        Document.exists_of_mapM hdecoded e (Entries.mem_of_mem_collapse he)
      cases key with
      | none => cases hvalue
      | some key =>
        cases hentity : Entity.decode (c := c) value with
        | error fault => simp [hentity, Except.map] at hvalue
        | ok x =>
          obtain rfl : (key, x) = e := by simpa [hentity, Except.map] using hvalue
          exact (Entity.fits_of_decode (by decide)
            (Tree.boundedEntries_iff.1 ht.2 _ hmem) hentity).1
    · cases h
  · cases h
  · cases h

/-- Whatever text a state is read from, it is proper. -/
theorem bounded_of_decode {t : Tree} (ht : t.Bounded Number.Bounded 0) (h : decode t = .ok s) :
    s.Bounded := by
  have hclass : ∀ (c : EntityClass) name,
      (Record.withDefault name (Tree.toMap (Entity.decode (c := c))) []).Yields
        (Tree.Bounded Number.Bounded 1) fun es =>
          (Entries.keys es).Nodup ∧ ∀ e ∈ es, e.2.Proper Number.Bounded :=
    fun c name => Record.yields_field (fun _ _ ht h => proper_of_toMap ht h) fun es h => by
      obtain rfl := Except.ok.inj h
      exact ⟨List.nodup_nil, fun e he => absurd he List.not_mem_nil⟩
  have hfields := Record.yields_both (hclass .node "nodes") (hclass .relationship "relationships")
  have hstate : ∀ x : Entries Node × Entries Relationship,
      ((Entries.keys x.1).Nodup ∧ ∀ e ∈ x.1, e.2.Proper Number.Bounded)
        ∧ ((Entries.keys x.2).Nodup ∧ ∀ e ∈ x.2, e.2.Proper Number.Bounded) →
      GraphState.Bounded ⟨x.1, x.2⟩ := by
    rintro ⟨nodes, relationships⟩ ⟨⟨hnodes, hnode⟩, hrelationships, hrelationship⟩
    refine ⟨Entries.keys nodes ++ Entries.keys relationships, fun c => ?_, fun c key hkey => ?_,
      fun c => ?_⟩
    · cases c
      · exact hnodes
      · exact hrelationships
    · cases c
      · exact List.mem_append_left _ hkey
      · exact List.mem_append_right _ hkey
    · cases c
      · exact hnode
      · exact hrelationship
  exact (Record.yields_map (hfields.mono hstate)).decode ht h

end GraphState

/-! ## Replies -/

/-- An outcome that a graph of stores may have: its entities are proper, and a change misses an
    entity of its own class only. -/
structure Call.Sound (call : Call) (outcome : Outcome call.Reply) : Prop where
  proper : ∀ reply, outcome = .ok reply → call.ProperReply Number.Bounded reply
  missing : ∀ c id, call.Changes c id → ∀ c' id', outcome = .error (.notFound c' id') → c' = c

namespace Call.Sound

variable {call : Call}

theorem ok {reply : call.Reply} (h : call.ProperReply Number.Bounded reply) :
    call.Sound (.ok reply) where
  proper other heq := by
    obtain rfl := Except.ok.inj heq
    exact h
  missing _ _ _ _ _ heq := by cases heq

theorem refused {failure : Failure} (h : ∀ c id, failure ≠ .notFound c id) :
    call.Sound (.error failure) where
  proper _ heq := by cases heq
  missing _ _ _ c id heq := absurd (Except.error.inj heq) (h c id)

theorem missed {id : Id} (h : call.Changes c id) (named : Id) :
    call.Sound (.error (.notFound c named)) where
  proper _ heq := by cases heq
  missing _ _ h' _ _ heq := by cases h <;> cases h' <;> cases heq <;> rfl

/-- A search misses nothing. -/
theorem searched {s : Searcher} {outcome : Outcome (List (Entity c))}
    (h : ∀ es, outcome = .ok es → ∀ e ∈ es, e.Proper Number.Bounded) :
    (Call.search c s).Sound outcome where
  proper := h
  missing _ _ hchanges := by cases hchanges

end Call.Sound

namespace Store

variable {store : Store} {α : Type}

/-- The state of a store, if it is kept as a value, is bounded. -/
def Bounded (store : Store) : Prop := ∀ s, store.keeper = .shared s → s.Bounded

/-- An outcome is that of some bounded state, or reports that files have failed. -/
def Comes (f : GraphState → Outcome α) (outcome : Outcome α) : Prop :=
  (∃ s : GraphState, s.Bounded ∧ outcome = f s) ∨ ∃ e : Failure, e.OfFiles ∧ outcome = .error e

theorem Comes.sound {call : Call} {f : GraphState → Outcome call.Reply}
    {outcome : Outcome call.Reply} (h : Comes f outcome)
    (hf : ∀ s : GraphState, s.Bounded → call.Sound (f s)) : call.Sound outcome := by
  obtain ⟨s, hs, rfl⟩ | ⟨e, hfiles, rfl⟩ := h
  · exact hf s hs
  · refine .refused fun c id heq => ?_
    rw [heq] at hfiles
    exact hfiles

/-- What is loaded from a snapshot is bounded, whatever its file holds. -/
theorem exec_load_cases (path : String) (tree : FileTree) :
    (∃ s : GraphState, s.Bounded ∧ (Keeper.load path).exec tree = (.ok s, tree))
      ∨ ∃ e : Failure, e.OfFiles ∧ (Keeper.load path).exec tree = (.error e, tree) := by
  cases hread : tree.read path with
  | error trouble =>
    rw [Keeper.exec_load_of_error hread]
    cases trouble with
    | missing => exact .inl ⟨.empty, GraphState.bounded_empty, rfl⟩
    | refused => exact .inr ⟨.io, trivial, rfl⟩
  | ok text =>
    rw [Keeper.exec_load_of_read hread]
    cases hdecode : GraphState.decode (Tree.ofText text) with
    | error fault => exact .inr ⟨.malformed, trivial, rfl⟩
    | ok s =>
      have htree := Tree.bounded_ofText Json.Numeral.gives_bounded text
      exact .inl ⟨s, GraphState.bounded_of_decode htree hdecode, rfl⟩

/-- A look at the state leaves everything as it is. -/
theorem Bounded.run_look (h : store.Bounded) (f : GraphState → Outcome α) (tree : FileTree) :
    ∃ outcome, (store.look f).run tree = ((outcome, store), tree) ∧ Comes f outcome := by
  cases hkeeper : store.keeper with
  | shared s =>
    refine ⟨f s, ?_, .inl ⟨s, h s hkeeper, rfl⟩⟩
    rw [look, hkeeper]
    rfl
  | snapshot path =>
    rw [Store.run_look hkeeper]
    obtain ⟨s, hs, hload⟩ | ⟨failure, hfiles, hload⟩ := exec_load_cases path tree
    · rw [hload]
      exact ⟨f s, rfl, .inl ⟨s, hs, rfl⟩⟩
    · rw [hload]
      exact ⟨.error failure, rfl, .inr ⟨failure, hfiles, rfl⟩⟩

/-- A change of the state leaves the store bounded. -/
theorem Bounded.run_change (h : store.Bounded) {f : GraphState → Outcome α × GraphState}
    (hf : ∀ s, s.Bounded → (f s).2.Bounded) (tree : FileTree) :
    ∃ outcome store' tree', (store.change f).run tree = ((outcome, store'), tree')
      ∧ store'.Bounded ∧ Comes (fun s => (f s).1) outcome := by
  cases hkeeper : store.keeper with
  | shared s =>
    have hs := h s hkeeper
    refine ⟨(f s).1, { store with keeper := .shared (f s).2 }, tree, ?_, ?_, .inl ⟨s, hs, rfl⟩⟩
    · rw [change, hkeeper]
      rfl
    · intro s' hs'
      obtain rfl := Keeper.shared.inj hs'
      exact hf s hs
  | snapshot path =>
    have hstore : ({ store with keeper := .snapshot path } : Store) = store := by rw [← hkeeper]
    have hbounded : Bounded { store with keeper := .snapshot path } := hstore.symm ▸ h
    rw [change, hkeeper, Keeper.update]
    simp only [FileProgram.run_bind, FileProgram.run_pure, Keeper.run_outcome]
    -- the change may end at loading, at its own outcome, or at saving
    obtain ⟨s, hs, hload⟩ | ⟨failure, hfiles, hload⟩ := exec_load_cases path tree
    · rw [FileTask.exec_bind_of_ok hload]
      have hcomes : Comes (fun s => (f s).1) (f s).1 := .inl ⟨s, hs, rfl⟩
      rcases hresult : f s with ⟨outcome, s'⟩
      rw [hresult] at hcomes
      cases outcome with
      | error failure =>
        rw [FileTask.exec_bind_of_error (FileTask.exec_ofOutcome _ _)]
        exact ⟨_, _, _, rfl, hbounded, hcomes⟩
      | ok a =>
        rw [FileTask.exec_bind_of_ok (FileTask.exec_ofOutcome _ _)]
        rcases hsave : (Keeper.save path s').exec tree with ⟨saved, tree'⟩
        cases saved with
        | error failure =>
          obtain rfl := Keeper.exec_save_error hsave
          rw [FileTask.exec_bind_of_error hsave]
          exact ⟨_, _, _, rfl, hbounded, .inr ⟨.io, trivial, rfl⟩⟩
        | ok u =>
          rw [FileTask.exec_bind_of_ok hsave]
          exact ⟨_, _, _, rfl, hbounded, hcomes⟩
    · rw [FileTask.exec_bind_of_error hload]
      exact ⟨_, _, _, rfl, hbounded, .inr ⟨failure, hfiles, rfl⟩⟩

/-! ## Calls -/

/-- A program leaves a bounded store with a sound outcome, and does nothing to files if its call
    only looks. -/
def AnswersSoundly (call : Call) (program : FileProgram (Outcome call.Reply × Store))
    (tree : FileTree) : Prop :=
  ∃ outcome store' tree', program.run tree = ((outcome, store'), tree') ∧ store'.Bounded
    ∧ call.Sound outcome ∧ (call.Looks → tree' = tree)

section Answers

variable {call : Call} (h : store.Bounded) (tree : FileTree)

include h

theorem Bounded.refuses {failure : Failure} (hfailure : ∀ c id, failure ≠ .notFound c id) :
    AnswersSoundly call (pure (.error failure, store)) tree :=
  ⟨_, _, _, rfl, h, .refused hfailure, fun _ => rfl⟩

theorem Bounded.looks {f : GraphState → Outcome call.Reply}
    (hf : ∀ s : GraphState, s.Bounded → call.Sound (f s)) :
    AnswersSoundly call (store.look f) tree := by
  obtain ⟨outcome, hrun, hcomes⟩ := h.run_look f tree
  exact ⟨outcome, store, tree, hrun, h, hcomes.sound hf, fun _ => rfl⟩

theorem Bounded.changes (hlooks : ¬ call.Looks) {f : GraphState → Outcome call.Reply × GraphState}
    (hf : ∀ s : GraphState, s.Bounded → call.Sound (f s).1 ∧ (f s).2.Bounded) :
    AnswersSoundly call (store.change f) tree := by
  obtain ⟨outcome, store', tree', hrun, hbounded, hcomes⟩ :=
    h.run_change (fun s hs => (hf s hs).2) tree
  exact ⟨outcome, store', tree', hrun, hbounded, hcomes.sound fun s hs => (hf s hs).1,
    fun hlook => absurd hlook hlooks⟩

/-- An identity that is no text ends a call before the state is looked at. -/
theorem Bounded.withKey (id : Id) {f : String → FileProgram (Outcome call.Reply × Store)}
    (hf : ∀ key, AnswersSoundly call (f key) tree) :
    AnswersSoundly call (store.withKey id f) tree := by
  rw [Store.withKey, Id.requireText]
  cases id.string? with
  | none => exact h.refuses tree fun c id heq => by cases heq
  | some key => exact hf key

/-- A proper call leaves a store bounded, and its outcome is sound. -/
theorem Bounded.answers {stamp : Stamp} (hproper : Step.Proper Number.Bounded ⟨stamp, call⟩) :
    AnswersSoundly call (store.answer stamp call) tree := by
  cases call with
  | get c id =>
    refine h.withKey tree id fun key => h.looks tree fun s hs => .ok fun e he => ?_
    exact hs.entity (Entries.mem_of_get? he)
  -- whether a searcher compiles is known before the state is looked at
  | search c searcher =>
    rw [answer]
    cases searcher.compile (store.evaluators.forClass c) with
    | error failure =>
      have hsound : (Call.search c searcher).Sound (.error failure) :=
        .searched fun es heq => by cases heq
      exact ⟨_, _, _, rfl, h, hsound, fun _ => rfl⟩
    | ok m =>
      refine h.looks tree fun s hs => .searched fun es heq e he => ?_
      obtain ⟨-, rfl⟩ := CompiledSearcher.filter_eq_ok_iff.1 heq
      obtain ⟨entry, hentry, rfl⟩ := List.mem_map.1 (List.mem_filter.1 he).1
      exact hs.entity hentry
  | create c body =>
    have he : (body.create (.ofString (store.keyOf stamp.unique)) (some stamp.time)).Proper
        Number.Bounded := hproper.2.create _ hproper.1
    exact h.changes tree id fun s hs => ⟨.ok he, hs.insert _ he⟩
  | edit c id patch =>
    have hlooks : ¬ (Call.edit c id patch).Looks := fun hlooks => hlooks
    refine h.withKey tree id fun key => h.changes tree hlooks fun s hs =>
      ⟨?_, hs.edit id key hproper.2 hproper.1⟩
    cases hget : s.get c key with
    | none =>
      rw [GraphState.edit_of_none hget]
      exact .missed (.edit id patch) id
    | some e =>
      rw [GraphState.edit_of_get hget]
      exact .ok (hproper.2.apply (hs.entity (Entries.mem_of_get? hget)) hproper.1)
  | remove c id =>
    have hlooks : ¬ (Call.remove c id).Looks := fun hlooks => hlooks
    refine h.withKey tree id fun key => h.changes tree hlooks fun s hs =>
      ⟨?_, hs.remove c id key⟩
    cases hget : s.get c key with
    | none =>
      rw [GraphState.remove_of_none hget]
      exact .missed (.remove c id) id
    | some e =>
      rw [GraphState.remove_of_get hget]
      exact .ok trivial
  | types c => exact h.looks tree fun s hs => .ok trivial

end Answers

end Store

end PropertyGraph
