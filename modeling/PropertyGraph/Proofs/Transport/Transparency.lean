/-
  PropertyGraph.Proofs.Transport.Transparency

  A graph of stores in memory is the same at hand and behind servers.  In every state that calls
  lead to, what the graph replies consists of proper entities and a change misses an entity of its
  own class only, so that every hop relays the outcome and nothing else happens on the way.
-/
import PropertyGraph.Proofs.Memory.Bounded
import PropertyGraph.Proofs.Routing.Exactness

namespace PropertyGraph

open Engine (Step)
open Json (maxDepth)

variable {c : EntityClass} {p : Number → Prop} {stamp : Stamp} {tree tree' : FileTree}

namespace Suite

variable {members : List (String × Suite)} {owners : Owners} {name : String}

/-! ## What a dispatcher makes of an outcome -/

theorem proper_compose (name : String) {e : Entity c} (he : e.Proper p) :
    (compose name e).Proper p where
  id := ⟨show ["suite", "id"].Nodup by decide, trivial, he.id, trivial⟩
  properties := he.properties
  ends := he.ends
  time := he.time

theorem Forwards.proper {call inner : Call} {wrap : Outcome inner.Reply → Outcome call.Reply}
    (h : Forwards owners name call inner wrap) (hproper : Step.Proper p ⟨stamp, call⟩) :
    Step.Proper p ⟨stamp, inner⟩ := by
  cases h with
  | get hid => trivial
  | create howner => exact hproper
  | edit hid hstays => exact hproper
  | remove hid => trivial

/-- Of a sound outcome of a member a dispatcher makes a sound one. -/
theorem Forwards.sound {call inner : Call} {wrap : Outcome inner.Reply → Outcome call.Reply}
    (h : Forwards owners name call inner wrap) {outcome : Outcome inner.Reply}
    (hsound : inner.Sound outcome) : call.Sound (wrap outcome) := by
  cases h with
  | @get c id composite hid =>
    cases outcome with
    | error failure => exact ⟨fun _ h => (by cases h), fun _ _ h => (by cases h)⟩
    | ok found =>
      refine .ok fun e he => ?_
      obtain ⟨x, hx, rfl⟩ := Option.map_eq_some_iff.1 he
      exact proper_compose _ (hsound.proper found rfl x hx)
  | @create c body name howner =>
    cases outcome with
    | error failure => exact ⟨fun _ h => (by cases h), fun _ _ h => (by cases h)⟩
    | ok e => exact .ok (proper_compose _ (hsound.proper e rfl))
  -- A change that misses is passed on within its own class, so the member's refusal stays sound.
  | @edit c id patch composite hid hstays =>
    cases outcome with
    | error failure =>
      refine ⟨fun _ h => (by cases h), fun c' id' hchanges c'' id'' heq => ?_⟩
      cases hchanges
      exact hsound.missing _ _ (.edit composite.id patch) _ _ heq
    | ok e => exact .ok (proper_compose _ (hsound.proper e rfl))
  | @remove c id composite hid =>
    cases outcome with
    | error failure =>
      refine ⟨fun _ h => (by cases h), fun c' id' hchanges c'' id'' heq => ?_⟩
      cases hchanges
      exact hsound.missing _ _ (.remove c composite.id) _ _ heq
    | ok u => exact .ok trivial

theorem Misrouted.ne_notFound {failure : Failure} (h : Misrouted failure) (c : EntityClass)
    (id : Id) : failure ≠ .notFound c id := by
  cases h <;> exact fun heq => by cases heq

/-! ## Graphs of stores -/

/-- Every member is a store in memory whose state, if it is kept as a value, is bounded. -/
def StoreMembers (members : List (String × Suite)) : Prop :=
  ∀ name suite, Entries.get? name members = some suite →
    ∃ store : Store, suite = .store store ∧ store.Bounded

/-- A store in memory, or a dispatcher over such stores that own all its types. -/
inductive OverStores : Suite → Prop
  | store {store : Store} : store.Bounded → OverStores (.store store)
  | dispatcher {members : List (String × Suite)} {owners : Owners} :
    (∀ c type name, owners.owner? c type = some name → name ∈ Entries.keys members) →
    StoreMembers members → OverStores (.dispatcher members owners)

/-- A dispatcher that was put together over stores is over stores. -/
theorem overStores_of_dispatcher {regs : List Registration}
    (hsuites : ∀ r ∈ regs, ∃ store : Store, r.suite = .store store ∧ store.Bounded)
    {dispatcher : Suite} (hbuilt : (Assembly.ofList regs).dispatcher = .ok dispatcher) :
    dispatcher.OverStores := by
  obtain ⟨members, owners, rfl, hassembled⟩ := Assembly.assembled_of_dispatcher hbuilt
  refine .dispatcher (fun c type name => hassembled.mem_of_owner?) fun name suite hmember => ?_
  obtain ⟨r, hr, -, rfl⟩ := hassembled.get?_eq_some_iff.1 hmember
  exact hsuites r hr

theorem StoreMembers.insert (h : StoreMembers members) {store : Store} (hstore : store.Bounded) :
    StoreMembers (Entries.insert name (.store store) members) := by
  intro other suite hmember
  by_cases hother : other = name
  · subst hother
    rw [Entries.get?_insert_self] at hmember
    obtain rfl := Option.some.inj hmember
    exact ⟨store, rfl, hstore⟩
  · rw [Entries.get?_insert_of_ne hother] at hmember
    exact h other suite hmember

/-- A search among the members finds proper entities and leaves all files as they are. -/
theorem StoreMembers.run_search (h : StoreMembers members) (stamp : Stamp) (name : String)
    (c : EntityClass) (s : Searcher) (tree : FileTree) :
    ∃ outcome : Outcome (List (Entity c)),
      ((answerIn stamp members name (.search c s)).run tree).1.1 = outcome
      ∧ (Call.search c s).Sound outcome
      ∧ ((answerIn stamp members name (.search c s)).run tree).2 = tree := by
  cases hmember : Entries.get? name members with
  | none =>
    rw [run_answerIn_of_none hmember]
    exact ⟨_, rfl, .searched fun es heq => (by cases heq), rfl⟩
  | some suite =>
    obtain ⟨store, rfl, hstore⟩ := h name suite hmember
    have hanswers : Store.AnswersSoundly (.search c s) (store.answer stamp (.search c s)) tree :=
      hstore.answers tree trivial
    obtain ⟨outcome, store', tree', hrun, -, hsound, hstill⟩ := hanswers
    rw [run_answerIn_of_some hmember, run_store, hrun]
    exact ⟨outcome, rfl, hsound, hstill trivial⟩

/-- A proper call leaves a graph of stores, and its outcome is sound. -/
theorem OverStores.run_answer {suite : Suite} (h : suite.OverStores) {call : Call}
    (hproper : Step.Proper Number.Bounded ⟨stamp, call⟩) (tree : FileTree) :
    ∃ outcome suite' tree', (answer stamp suite call).run tree = ((outcome, suite'), tree')
      ∧ suite'.OverStores ∧ call.Sound outcome := by
  cases h with
  | @store store hstore =>
    obtain ⟨outcome, store', tree', hrun, hbounded, hsound, -⟩ := hstore.answers tree hproper
    refine ⟨outcome, .store store', tree', ?_, .store hbounded, hsound⟩
    rw [run_store, hrun]
  | @dispatcher members owners hknown hmembers =>
    -- a call that is about one member goes to it, and a search to all those that it concerns
    by_cases hsingle : Single call
    · rcases dispatch_cases hknown hsingle with ⟨failure, hmisrouted, hrun⟩
        | ⟨name, suite, inner, wrap, hforwards, hmember⟩
      · exact ⟨_, _, _, hrun stamp tree, .dispatcher hknown hmembers,
          .refused hmisrouted.ne_notFound⟩
      · obtain ⟨store, rfl, hstore⟩ := hmembers name suite hmember
        obtain ⟨outcome, store', tree', hrun, hbounded, hsound, -⟩ :=
          hstore.answers tree (hforwards.proper hproper)
        have hkeys := Entries.keys_insert_of_mem (Entries.mem_keys_iff.2 ⟨_, hmember⟩)
          (Suite.store store')
        refine ⟨wrap outcome, .dispatcher (Entries.insert name (.store store') members) owners,
          tree', ?_, .dispatcher (by rwa [hkeys]) (hmembers.insert hbounded),
          hforwards.sound hsound⟩
        rw [run_of_forwards hforwards hmember, run_store, hrun]
    · cases call with
      | search c s =>
        cases hdivide : divide owners c s with
        | error failure =>
          exact ⟨_, _, _, run_search_of_error hdivide, .dispatcher hknown hmembers,
            .searched fun es heq => (by cases heq)⟩
        | ok tasks =>
          refine ⟨_, _, _, run_search hdivide fun task _ => ?_, .dispatcher hknown hmembers,
            .searched fun es heq e he => ?_⟩
          · obtain ⟨-, -, -, hstill⟩ := hmembers.run_search stamp task.suite c task.searcher tree
            exact hstill
          · obtain ⟨task, -, found, hfound, hmem⟩ := exists_of_gather heq he
            obtain ⟨outcome, houtcome, hsound, -⟩ :=
              hmembers.run_search stamp task.suite c task.searcher tree
            rw [Suite.found, houtcome] at hfound
            cases outcome with
            | error failure => cases hfound
            | ok es =>
              obtain rfl := Except.ok.inj hfound
              obtain ⟨x, hx, rfl⟩ := List.mem_map.1 hmem
              exact proper_compose _ (hsound.proper es rfl x hx)
      | types c => exact ⟨_, _, _, run_types c, .dispatcher hknown hmembers, .ok trivial⟩
      | _ => exact absurd trivial hsingle

/-- A run of proper calls leaves a graph of stores. -/
theorem OverStores.after {start : Suite} (h : start.OverStores) (tree : FileTree)
    {steps : List Step} (hproper : ∀ step ∈ steps, step.Proper Number.Bounded) :
    (backend.after (start, tree) steps).1.OverStores := by
  induction steps using List.reverseRecOn with
  | nil => exact h
  | append_singleton steps step ih =>
    have hbefore := ih fun other hmem => hproper other (List.mem_append_left _ hmem)
    obtain ⟨outcome, suite', tree', hrun, hover, -⟩ :=
      hbefore.run_answer (hproper step (by simp)) (backend.after (start, tree) steps).2
    rw [Backend.after_append, Backend.advance, backend]
    simp only [backend] at hrun ⊢
    rw [hrun]
    exact hover

/-! ## Transparency -/

/-- A portable call is proper, if its time has a place in 64 bits. -/
theorem proper_of_portable {call : Call} (h : call.Portable) (htime : TimeFits stamp.time) :
    Step.Proper Number.Bounded ⟨stamp, call⟩ := by
  have hbounded := Json.Proper.mono Number.Whole.bounded _ h.whole
  cases call with
  | create c body => exact ⟨htime, Body.proper_of_toJson hbounded⟩
  | edit c id patch => exact ⟨htime, Patch.proper_of_entries hbounded.2.2⟩
  | _ => trivial

/-- Behind any number of servers a graph of stores answers as it does at hand, in every state that
    calls lead to: a reply without doubles is the same, a missing target of a change is the same but
    for the identity, any other failure is one of the transport; and the graph goes on in the same
    state. -/
theorem transparent_behind {start : Suite} (hstart : start.OverStores) {before : FileTree}
    {steps : List Step} (hsteps : ∀ step ∈ steps, step.Proper Number.Bounded)
    {suite : Suite} (hafter : backend.after (start, before) steps = (suite, tree)) {call : Call}
    (hcall : call.Portable) (htime : TimeFits stamp.time) {outcome : Outcome call.Reply}
    {suite' : Suite} (hrun : (answer stamp suite call).run tree = ((outcome, suite'), tree'))
    (hreply : ∀ reply, outcome = .ok reply → (call.encodeReply reply).doubleless = true
      ∧ (call.encodeReply reply).nesting ≤ maxDepth) {n : Nat} (hn : 0 < n) :
    ∃ relayed, (answer stamp (behind n suite) call).run tree = ((relayed, behind n suite'), tree')
      ∧ call.Relays n outcome relayed := by
  have hover : suite.OverStores := by
    have hreached := hstart.after before hsteps
    rwa [hafter] at hreached
  obtain ⟨outcome', suite'', tree'', hanswer, -, hsound⟩ :=
    hover.run_answer (proper_of_portable hcall htime) tree
  rw [hrun] at hanswer
  obtain ⟨⟨rfl, rfl⟩, rfl⟩ := Prod.mk.inj hanswer |>.imp_left Prod.mk.inj
  have hportable : ∀ reply, outcome = .ok reply → call.PortableReply reply := by
    intro reply h
    obtain ⟨hdoubles, hlimit⟩ := hreply reply h
    exact ⟨(hsound.proper reply h).whole hdoubles, hlimit⟩
  exact ⟨_, run_behind n hcall hrun hportable, Client.relays_iterate hn hsound.missing⟩

theorem overStores_sample :
    (dispatcher (Registration.members sampleRegistrations) sampleOwners).OverStores := by
  refine overStores_of_dispatcher (fun r hr => ⟨.blank, ?_, fun s hs => ?_⟩)
    build_sampleRegistrations
  · simp only [sampleRegistrations, List.mem_cons, List.not_mem_nil, or_false] at hr
    rcases hr with rfl | rfl <;> rfl
  · obtain rfl := Keeper.shared.inj hs
    exact GraphState.bounded_empty

theorem proper_sampleSteps : ∀ step ∈ sampleSteps, step.Proper Number.Bounded := by
  have hempty : (Json.object []).Proper Number.Bounded := ⟨List.nodup_nil, trivial⟩
  have hnamed : (Json.object [("name", .string "a")]).Proper Number.Bounded :=
    ⟨List.nodup_singleton _, trivial, trivial⟩
  intro step hstep
  simp only [sampleSteps, List.mem_cons, List.not_mem_nil, or_false] at hstep
  rcases hstep with rfl | rfl | rfl
  · exact ⟨by decide, hempty, trivial⟩
  · exact ⟨by decide, hnamed, trivial⟩
  · exact ⟨by decide, hnamed, trivial⟩

/-- A person gets another name. -/
def nameChange : Call :=
  .edit .node (CompositeId.mk "people" (.ofString "2")).toId
    { type := none, properties := some [("name", .string "b")], ends := () }

theorem portable_nameChange : nameChange.Portable where
  whole := by
    have hid : (CompositeId.mk "people" (.ofString "2")).toId.value.Proper Number.Whole :=
      ⟨by decide, trivial, trivial, trivial⟩
    have hproperties : (Json.object [("name", .string "b")]).Proper Number.Whole :=
      ⟨List.nodup_singleton _, trivial, trivial⟩
    exact ⟨by decide, hid, hproperties, trivial⟩
  shallow := by decide
  named := trivial

/-- The change of name through two clients, of two stores that people and documents are in. -/
theorem transparent_behind_nameChange :
    (dispatcher (Registration.members sampleRegistrations) sampleOwners).OverStores
      ∧ (∀ step ∈ sampleSteps, step.Proper Number.Bounded)
      ∧ nameChange.Portable
      ∧ ∃ suite tree outcome suite' tree',
        backend.after (.dispatcher (Registration.members sampleRegistrations) sampleOwners,
          .sample) sampleSteps = (suite, tree)
        ∧ (answer ⟨"4", 13⟩ suite nameChange).run tree = ((outcome, suite'), tree')
        ∧ outcome.isOk = true
        ∧ (answer ⟨"4", 13⟩ (behind 2 suite) nameChange).run tree
          = ((outcome, behind 2 suite'), tree') := by
  refine ⟨overStores_sample, proper_sampleSteps, portable_nameChange, _, _, _, _, _, rfl, rfl, rfl,
    ?_⟩
  have htime : TimeFits (Stamp.mk "4" 13).time := by decide
  obtain ⟨relayed, hrun, hrelays⟩ := transparent_behind overStores_sample proper_sampleSteps rfl
    portable_nameChange htime rfl (fun reply h => by cases h; decide) (show 0 < 2 by decide)
  obtain rfl := hrelays.reply _ rfl
  exact hrun

end Suite

end PropertyGraph
