/-
  PropertyGraph.Proofs.Routing.Exactness

  A dispatcher over stores in memory searches exactly.  Asked for everything it returns what its
  members store under types that they own, type by type in the order of registration; asked with
  a searcher it returns what the searcher keeps of that.
-/
import PropertyGraph.Proofs.Routing.Stores

namespace PropertyGraph.Suite

open Engine (Step)

variable {E : Evaluators}

/-- The store that a suite is, if it is one. -/
def storeOf (members : List (String × Suite)) (E : Evaluators) (name : String) : Store :=
  match Entries.get? name members with
  | some (.store kept) => kept
  | _ => { Store.blank with evaluators := E }

/-- What searching a dispatcher comes to: `all` is what its members store under types that they
    own, grouped by type in the order of registration and within a type in the order of the
    member, each entity once and under its composite identity; that is what a search for
    everything returns, and a search with a searcher returns what the searcher keeps of it. -/
structure SearchesExactly (E : Evaluators) (regs : List Registration)
    (members : List (String × Suite)) (owners : Owners) (tree : FileTree) (stamp : Stamp)
    (c : EntityClass) (all : List (Entity c)) : Prop where
  everything : backend.answer stamp (.search c .always) (.dispatcher members owners, tree)
    = (.ok all, .dispatcher members owners, tree)
  grouped : all = (Registration.routes c regs).collapse.flatMap fun (type, name) =>
    ((stored members name c).filter fun e => e.type == type).map (compose name)
  complete : ∀ e, e ∈ all ↔ ∃ r ∈ regs, ∃ x ∈ stored members r.name c,
    x.type ∈ r.types c ∧ e = compose r.name x
  once : (all.map Entity.id).Nodup
  filters : ∀ s found, s.filter (E.forClass c) all = .ok found →
    backend.answer stamp (.search c s) (.dispatcher members owners, tree)
      = (.ok found, .dispatcher members owners, tree)

/-- A dispatcher that has been put together over stores in memory, in whatever states they were
    by then, searches exactly after every run of calls. -/
theorem dispatched_search_exact (hE : E.Blind) {regs : List Registration}
    (hsuites : ∀ r ∈ regs, ∃ store : Store, r.suite = .store store ∧ store.evaluators = E
      ∧ store.Reached)
    {dispatcher : Suite} (hbuilt : (Assembly.ofList regs).dispatcher = .ok dispatcher)
    (tree : FileTree) (steps : List Step) (stamp : Stamp) (c : EntityClass) :
    ∃ members owners, backend.after (dispatcher, tree) steps = (.dispatcher members owners, tree)
      ∧ Entries.keys members = regs.map Registration.name
      ∧ ∃ all, SearchesExactly E regs members owners tree stamp c all := by
  obtain ⟨members, owners, rfl, hassembled⟩ := Assembly.assembled_of_dispatcher hbuilt
  have hmember : ∀ name suite, Entries.get? name members = some suite →
      ∃ store : Store, suite = .store store ∧ store.evaluators = E ∧ store.Reached := by
    intro name suite hmember
    obtain ⟨r, hr, heq⟩ := List.mem_map.1 (hassembled.members ▸ Entries.mem_of_get? hmember)
    obtain ⟨-, rfl⟩ := Prod.mk.inj heq
    exact hsuites r hr
  -- every member is a store whose entities stand under their identities, which calls preserve
  have hheld : Held (storeOf members E) members owners := by
    refine ⟨fun name suite hget => ?_, fun c type name => hassembled.mem_of_owner?⟩
    obtain ⟨store, rfl, -, hreached⟩ := hmember name suite hget
    obtain ⟨s, hstate, hkeyed⟩ := hreached.keyed
    rw [storeOf, hget]
    exact ⟨s, congrArg Suite.store hstate, hkeyed⟩
  have hstores : ∀ name, (storeOf members E name).evaluators = E := by
    intro name
    rw [storeOf]
    split
    · next store hget =>
      obtain ⟨store', hstore, hevaluators, -⟩ := hmember name _ hget
      rw [Suite.store.inj hstore]
      exact hevaluators
    · rfl
  obtain ⟨members', hafter, hheld', hkeys⟩ := hheld.after hassembled.nodup_types tree steps
  have hnodup := hassembled.nodup_types c
  refine ⟨members', owners, hafter, ?_, (owners.table c).flatMap (piece members' c), ?_⟩
  · rw [hkeys, hassembled.members, Entries.keys, Registration.members, List.map_map]
    rfl
  -- the search of the dispatcher is one filter over the pieces of all members, laid end to end
  have hfilters : ∀ s found,
      s.filter (E.forClass c) ((owners.table c).flatMap (piece members' c)) = .ok found →
      backend.answer stamp (.search c s) (.dispatcher members' owners, tree)
        = (.ok found, .dispatcher members' owners, tree) := by
    intro s found hfound
    rw [backend]
    simp only [hheld'.run_search hE hstores hnodup hfound]
  refine ⟨hfilters .always _ ?_, ?_, fun e => ?_, nodup_pieces hheld'.inMemory hnodup, hfilters⟩
  · -- a searcher that holds of everything keeps everything
    refine Searcher.filter_eq_ok_iff.2 ⟨rfl, fun e _ => ⟨true, rfl⟩, ?_⟩
    exact (List.filter_eq_self.2 fun e _ => rfl).symm
  · rw [hassembled.tables c]
    rfl
  · -- a piece of the table is what one member has of a type that it owns
    rw [List.mem_flatMap]
    constructor
    · rintro ⟨⟨type, name⟩, hroute, he⟩
      obtain ⟨x, hx, htype, rfl⟩ := mem_piece.1 he
      obtain ⟨r, hr, rfl, howned⟩ :=
        hassembled.owner?_eq_some_iff.1 (Entries.get?_of_mem hnodup hroute)
      exact ⟨r, hr, x, hx, htype ▸ howned, rfl⟩
    · rintro ⟨r, hr, x, hx, howned, rfl⟩
      have howner := hassembled.owner?_eq_some_iff.2 ⟨r, hr, rfl, howned⟩
      exact ⟨_, Entries.mem_of_get? howner, mem_piece.2 ⟨x, hx, rfl, rfl⟩⟩

/-- A document, a person, and a second document. -/
def sampleSteps : List Step :=
  [⟨⟨"1", 10⟩, .create .node (Body.node "Doc" [])⟩,
    ⟨⟨"2", 11⟩, .create .node (Body.node "Person" [("name", .string "a")])⟩,
    ⟨⟨"3", 12⟩, .create .node (Body.node "Doc" [("name", .string "a")])⟩]

/-- Two stores that people and documents have been created in through their dispatcher. -/
theorem dispatched_search_exact_sample :
    Evaluators.builtin.Blind
      ∧ (∀ r ∈ sampleRegistrations, ∃ store : Store, r.suite = .store store
        ∧ store.evaluators = .builtin ∧ store.Reached)
      ∧ (Assembly.ofList sampleRegistrations).dispatcher
        = .ok (.dispatcher (Registration.members sampleRegistrations) sampleOwners)
      ∧ ∃ members owners,
        backend.after (.dispatcher (Registration.members sampleRegistrations) sampleOwners,
          .sample) sampleSteps = (.dispatcher members owners, .sample)
        ∧ Entries.keys members = sampleRegistrations.map Registration.name
        ∧ ∃ all, SearchesExactly .builtin sampleRegistrations members owners .sample ⟨"4", 13⟩
          .node all := by
  have hsuites : ∀ r ∈ sampleRegistrations, ∃ store : Store, r.suite = .store store
      ∧ store.evaluators = .builtin ∧ store.Reached := by
    have hblank : Store.blank.Reached := ⟨.sample, [], rfl⟩
    simpa [sampleRegistrations] using ⟨rfl, hblank⟩
  exact ⟨Evaluators.blind_builtin, hsuites, build_sampleRegistrations,
    dispatched_search_exact Evaluators.blind_builtin hsuites build_sampleRegistrations .sample
      sampleSteps ⟨"4", 13⟩ .node⟩

end PropertyGraph.Suite
