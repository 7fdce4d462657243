/-
  PropertyGraph.Proofs.Routing.Ownership

  Who owns what behind a dispatcher, and which identities stand for what.  `Divided` says that each
  member serves at a place of its own and holds entities of its own types only; `Turns` says what a
  call does to the tables of all members, and every call that does not fail for the sake of files
  takes one divided state to another.  From this follows what callers rely on: the identity that
  they were given for an entity leads to it until they remove it, whatever else is called.
-/
import PropertyGraph.Proofs.Routing.Members

namespace PropertyGraph

open Engine (Step given)

variable {c : EntityClass} {key : String}

namespace Suite

variable {tree tree' : FileTree} {places : String → Place} {used : List String}
  {regs : List Registration} {members : List (String × Suite)} {owners : Owners}
  {suite suite' : Suite} {name other : String} {stamp : Stamp} {call inner : Call}

/-! ## Identities of places -/

/-- The identity of an entity that a member keeps under a key. -/
abbrev placeId (name key : String) : Id := (CompositeId.mk name (.ofString key)).toId

theorem placeId_inj {name' key' : String} (h : placeId name' key' = placeId name key) :
    name' = name ∧ key' = key := by
  have hcomposite := CompositeId.toId_inj h
  exact ⟨congrArg CompositeId.suite hcomposite,
    Catalog.ofString_inj (congrArg CompositeId.id hcomposite)⟩

theorem compose_id_of_text {x : Entity c} (hx : x.id = .ofString key) :
    (compose name x).id = placeId name key := by
  rw [compose_id, hx]

/-- Composing an identity that is a text goes along with reading back. -/
theorem rereads_compose {x w : Entity c} (h : x.Rereads w) (hx : x.id = .ofString key) :
    (compose name x).Rereads (compose name w) := by
  induction h with
  | refl => exact .refl
  | @step y hy ih =>
    have hid : y.id = .ofString key := hy.id hx
    have hcompose : compose name y.reread = (compose name y).reread := by
      rw [compose, compose, Entity.reread, Entity.reread, hid]
      rfl
    rw [hcompose]
    exact .step ih

/-! ## Divided states -/

/-- What the members of a dispatcher keep, by name. -/
def tables (members : List (String × Suite)) (tree : FileTree) (name : String) : Table :=
  match Entries.get? name members with
  | some suite => suite.table tree
  | none => fun _ _ => none

theorem tables_of_get? (h : Entries.get? name members = some suite) (tree : FileTree) :
    tables members tree name = suite.table tree := by
  rw [tables, h]

theorem exists_of_tables {e : Entity c} (h : tables members tree name c key = some e) :
    ∃ suite, Entries.get? name members = some suite ∧ suite.table tree c key = some e := by
  rw [tables] at h
  cases hmember : Entries.get? name members with
  | none =>
    rw [hmember] at h
    cases h
  | some suite =>
    rw [hmember] at h
    exact ⟨suite, rfl, h⟩

/-- Each member serves at a place of its own, and keeps entities of its own types only. -/
structure Divided (regs : List Registration) (members : List (String × Suite)) (owners : Owners)
    (tree : FileTree) (places : String → Place) (used : List String) : Prop where
  names : Entries.keys members = regs.map Registration.name
  known : ∀ c type name, owners.owner? c type = some name → name ∈ Entries.keys members
  engines : ∀ name g, Entries.get? name members = some (.engine g)
    ↔ ∃ r ∈ regs, r.name = name ∧ r.suite = .engine g
  serves : ∀ name suite, Entries.get? name members = some suite →
    suite.Serves tree (places name) used
  apart : ∀ name other g g', Entries.get? name members = some (.engine g) →
    Entries.get? other members = some (.engine g') → name ≠ other →
    FileTree.Apart (places name) (places other)
  owned : ∀ name c key (e : Entity c), tables members tree name c key = some e →
    owners.owner? c e.type = some name

/-- A call leaves entities with types that a suite owns. -/
def StaysOwned (owners : Owners) (name : String) : Call → Prop
  | .create c body => owners.owner? c body.type = some name
  | .edit c _ patch => ∀ type, patch.type = some type → owners.owner? c type = some name
  | _ => True

theorem Forwards.staysOwned {wrap : Outcome inner.Reply → Outcome call.Reply}
    (h : Forwards owners name call inner wrap) : StaysOwned owners name inner := by
  cases h with
  | get => trivial
  | create howner => exact howner
  | edit _ hstays => exact hstays
  | remove => trivial

/-- What follows a call that leaves entities with owned types is owned. -/
theorem owned_of_follows {t t' : Table} {time : Int} {outcome : Outcome inner.Reply}
    (h : t.Follows time inner outcome t') (hstays : StaysOwned owners name inner)
    (howned : ∀ c key (e : Entity c), t c key = some e → owners.owner? c e.type = some name)
    (c : EntityClass) (key : String) (e : Entity c) (he : t' c key = some e) :
    owners.owner? c e.type = some name := by
  -- an entry under another key was there before, with the type that it has now
  have hother : ∀ {c' : EntityClass} {key' : String}, t.Spares t' c' key' → (c = c' → key ≠ key') →
      owners.owner? c e.type = some name := by
    intro c' key' hspares hne
    obtain ⟨old, hold, hrereads⟩ := Entity.Rereads.exists_of_rel_after (he ▸ hspares c key hne)
    rw [hrereads.type]
    exact howned c key old hold
  cases h with
  | failed f => exact howned c key e he
  | got _ _ => exact howned c key e he
  | searched _ _ => exact howned c key e he
  | listed _ _ => exact howned c key e he
  | @created c' body key' v v' _ hv _ hspares hhere hrereads =>
    obtain haway | ⟨rfl, rfl⟩ := Table.away_or_here c c' key key'
    · exact hother hspares haway
    · obtain rfl := Option.some.inj (hhere.symm.trans he)
      rw [hrereads.type, hv]
      exact hstays
  | @edited c' patch key' old v v' _ hv hold hspares hhere hrereads =>
    obtain haway | ⟨rfl, rfl⟩ := Table.away_or_here c c' key key'
    · exact hother hspares haway
    · obtain rfl := Option.some.inj (hhere.symm.trans he)
      rw [hrereads.type, hv]
      show owners.owner? c (patch.type.getD old.type) = some name
      cases htype : patch.type with
      | none => exact howned c key old hold
      | some type => exact hstays type htype
  | @removed c' key' old _ _ hspares hgone =>
    obtain haway | ⟨rfl, rfl⟩ := Table.away_or_here c c' key key'
    · exact hother hspares haway
    · rw [hgone] at he
      cases he

namespace Divided

variable (h : Divided regs members owners tree places used)

include h

section Change

variable {outcome : Outcome inner.Reply} (hmember : Entries.get? name members = some suite)
  (hadvances : Advances suite tree (places name) used stamp inner outcome suite' tree')

include hmember hadvances

/-- A call to one member leaves another one as it was. -/
theorem stands_by {bystander : Suite} (hother : other ≠ name)
    (hbystander : Entries.get? other members = some bystander) :
    bystander.Serves tree' (places other) used ∧ bystander.table tree' = bystander.table tree
      ∧ ∀ g, bystander = .engine g →
        ∀ names, tree'.occupant (places other ++ names) = tree.occupant (places other ++ names) := by
  have hserves := h.serves other bystander hbystander
  by_cases hengine : ∃ g, suite = .engine g
  · obtain ⟨g, rfl⟩ := hengine
    refine hserves.spared hadvances.spares hadvances.change fun g' hg' => ?_
    exact h.apart name other g g' hmember (hg' ▸ hbystander) hother.symm
  · obtain rfl := hadvances.still fun g hg => hengine ⟨g, hg⟩
    exact ⟨hserves, rfl, fun _ _ _ => rfl⟩

theorem tables_change :
    tables (Entries.insert name suite' members) tree' name = suite'.table tree'
      ∧ ∀ other, other ≠ name →
        tables (Entries.insert name suite' members) tree' other = tables members tree other := by
  constructor
  · exact tables_of_get? (Entries.get?_insert_self ..) tree'
  · intro other hother
    rw [tables, Entries.get?_insert_of_ne hother]
    cases hbystander : Entries.get? other members with
    | none => rw [tables, hbystander]
    | some bystander =>
      rw [tables_of_get? hbystander]
      exact (h.stands_by hmember hadvances hother hbystander).2.1

theorem change (hstays : StaysOwned owners name inner) :
    Divided regs (Entries.insert name suite' members) owners tree' places
      (used ++ Step.given ⟨stamp, inner⟩) := by
  have hkeys : Entries.keys (Entries.insert name suite' members) = Entries.keys members :=
    Entries.keys_insert_of_mem (Entries.mem_keys_iff.2 ⟨suite, hmember⟩) suite'
  obtain ⟨hhere, hothers⟩ := h.tables_change hmember hadvances
  -- no call turns a member into a graph in documents, or one into something else
  have hengines : ∀ other g, Entries.get? other (Entries.insert name suite' members)
      = some (.engine g) ↔ Entries.get? other members = some (.engine g) := by
    intro other g
    by_cases hother : other = name
    · rw [hother, Entries.get?_insert_self, hmember, Option.some.injEq, Option.some.injEq,
        hadvances.engine]
    · rw [Entries.get?_insert_of_ne hother]
  refine ⟨hkeys.trans h.names, fun c type owner howner => ?_, fun other g => ?_,
    fun other bystander hbystander => ?_, fun first second g g' hfirst hsecond => ?_,
    fun other c key e he => ?_⟩
  · rw [hkeys]
    exact h.known c type owner howner
  · rw [hengines]
    exact h.engines other g
  · by_cases hother : other = name
    · subst hother
      rw [Entries.get?_insert_self] at hbystander
      obtain rfl := Option.some.inj hbystander
      exact hadvances.serves
    · rw [Entries.get?_insert_of_ne hother] at hbystander
      exact (h.stands_by hmember hadvances hother hbystander).1.mono
        fun _ => List.mem_append_left _
  · exact h.apart first second g g' ((hengines first g).1 hfirst) ((hengines second g').1 hsecond)
  · by_cases hother : other = name
    · subst hother
      rw [hhere] at he
      refine owned_of_follows hadvances.follows hstays (fun c key e he => ?_) c key e he
      exact h.owned other c key e (by rwa [tables_of_get? hmember])
    · rw [hothers other hother] at he
      exact h.owned other c key e he

end Change

end Divided

/-! ## Turns -/

/-- All entries are as before, apart from that of one member under one key; rewriting a document
    may have reread them. -/
def SparesAll (T T' : String → Table) (name : String) (c : EntityClass) (key : String) : Prop :=
  ∀ name' c' key', (name' = name → c' = c → key' ≠ key) →
    Option.Rel Entity.Rereads (T name' c' key') (T' name' c' key')

theorem sparesAll_of_spares {T T' : String → Table} (hspares : (T name).Spares (T' name) c key)
    (hothers : ∀ other, other ≠ name → T' other = T other) : SparesAll T T' name c key := by
  intro name' c' key' hne
  by_cases hname : name' = name
  · rw [hname]
    exact hspares c' key' (hne hname)
  · rw [hothers name' hname]
    cases T name' c' key' with
    | none => exact .none
    | some e => exact .some .refl

/-- What a call to a dispatcher does to the tables of its members. -/
inductive Turns (owners : Owners) (T : String → Table) (time : Int) :
    (call : Call) → Outcome call.Reply → (String → Table) → Prop where
  | failed {call : Call} (f : Failure) : Turns owners T time call (.error f) T
  | looked {call : Call} (reply : call.Reply) : call.Looks → Turns owners T time call (.ok reply) T
  | created {c : EntityClass} {body : Body c} {name key : String} {e e' : Entity c}
    {T' : String → Table} : owners.owner? c body.type = some name →
    e = body.create (.ofString key) (some time) → T name c key = none →
    SparesAll T T' name c key → T' name c key = some e' → e.Rereads e' →
    Turns owners T time (.create c body) (.ok (compose name e)) T'
  | edited {c : EntityClass} {id : Id} {patch : Patch c} {name key : String} {old e e' : Entity c}
    {T' : String → Table} : CompositeId.ofId id = .ok ⟨name, .ofString key⟩ →
    e = patch.apply old time → T name c key = some old → SparesAll T T' name c key →
    T' name c key = some e' → e.Rereads e' →
    Turns owners T time (.edit c id patch) (.ok (compose name e)) T'
  | removed {c : EntityClass} {id : Id} {name key : String} {old : Entity c}
    {T' : String → Table} : CompositeId.ofId id = .ok ⟨name, .ofString key⟩ →
    T name c key = some old → SparesAll T T' name c key → T' name c key = none →
    Turns owners T time (.remove c id) (.ok ()) T'

/-- The tables of all members turn when that of one follows a call that was forwarded to it. -/
theorem turns_of_follows {T T' : String → Table} {time : Int}
    {wrap : Outcome inner.Reply → Outcome call.Reply} {outcome : Outcome inner.Reply}
    (hforwards : Forwards owners name call inner wrap)
    (hfollows : (T name).Follows time inner outcome (T' name))
    (hothers : ∀ other, other ≠ name → T' other = T other) :
    Turns owners T time call (wrap outcome) T' := by
  -- a member whose table stays leaves all tables as they are
  have hsame : T' name = T name → T' = T := by
    intro hhere
    funext other
    by_cases hother : other = name
    · rw [hother, hhere]
    · exact hothers other hother
  generalize hhere : T' name = t' at hfollows
  cases hforwards with
  | @get c id composite hid =>
    obtain ⟨suite, native⟩ := composite
    cases hfollows with
    | failed f =>
      rw [hsame hhere]
      exact .failed f
    | got _ key =>
      rw [hsame hhere]
      exact .looked _ trivial
  | create howner =>
    cases hfollows with
    | failed f =>
      rw [hsame hhere]
      exact .failed f
    | created he hnone hspares hkey hrereads =>
      subst hhere
      exact .created howner he hnone (sparesAll_of_spares hspares hothers) hkey hrereads
  | @edit c id patch composite hid hstays =>
    obtain ⟨suite, native⟩ := composite
    cases hfollows with
    | failed f =>
      rw [hsame hhere]
      exact .failed f
    | edited he hold hspares hkey hrereads =>
      subst hhere
      exact .edited hid he hold (sparesAll_of_spares hspares hothers) hkey hrereads
  | @remove c id composite hid =>
    obtain ⟨suite, native⟩ := composite
    cases hfollows with
    | failed f =>
      rw [hsame hhere]
      exact .failed f
    | removed hold hspares hgone =>
      subst hhere
      exact .removed hid hold (sparesAll_of_spares hspares hothers) hgone

/-- The member that a call is about: the one that the identity names, or that owns the type of the
    body. -/
inductive Aims (owners : Owners) : Call → String → Prop
  | get {c : EntityClass} {id : Id} {composite : CompositeId} :
    CompositeId.ofId id = .ok composite → Aims owners (.get c id) composite.suite
  | create {c : EntityClass} {body : Body c} {name : String} :
    owners.owner? c body.type = some name → Aims owners (.create c body) name
  | edit {c : EntityClass} {id : Id} {patch : Patch c} {composite : CompositeId} :
    CompositeId.ofId id = .ok composite → Aims owners (.edit c id patch) composite.suite
  | remove {c : EntityClass} {id : Id} {composite : CompositeId} :
    CompositeId.ofId id = .ok composite → Aims owners (.remove c id) composite.suite

theorem Forwards.aims {wrap : Outcome inner.Reply → Outcome call.Reply}
    (h : Forwards owners name call inner wrap) : Aims owners call name := by
  cases h with
  | get hid => exact .get hid
  | create howner => exact .create howner
  | edit hid _ => exact .edit hid
  | remove hid => exact .remove hid

theorem Forwards.wrap_error {wrap : Outcome inner.Reply → Outcome call.Reply}
    (h : Forwards owners name call inner wrap) (f : Failure) : wrap (.error f) = .error f := by
  cases h <;> rfl

/-- If the call only looks or fails, so does the inner one. -/
theorem Forwards.stays {wrap : Outcome inner.Reply → Outcome call.Reply}
    (h : Forwards owners name call inner wrap) {outcome : Outcome inner.Reply}
    (hstays : call.Looks ∨ ∃ f, wrap outcome = .error f) :
    inner.Looks ∨ ∃ f, outcome = .error f := by
  cases h with
  | get => exact .inl trivial
  | create | edit | remove =>
    obtain hlooks | ⟨f, hf⟩ := hstays
    · exact hlooks.elim
    · cases outcome with
      | error failure => exact .inr ⟨failure, rfl⟩
      | ok reply => cases hf

/-- The inner call makes the same demands. -/
theorem Forwards.demands {wrap : Outcome inner.Reply → Outcome call.Reply}
    (h : Forwards owners name call inner wrap) {p : Number → Prop}
    (hproper : Step.Proper p ⟨stamp, call⟩) :
    Step.Proper p ⟨stamp, inner⟩ ∧ Step.given ⟨stamp, inner⟩ = Step.given ⟨stamp, call⟩ := by
  cases h with
  | get => exact ⟨trivial, rfl⟩
  | create => exact ⟨hproper, rfl⟩
  | edit => exact ⟨hproper, rfl⟩
  | remove => exact ⟨trivial, rfl⟩

/-- What a call does to a dispatcher in a divided state. -/
structure Moves (regs : List Registration) (owners : Owners) (places : String → Place)
    (members : List (String × Suite)) (tree : FileTree) (used : List String) (step : Step)
    (outcome : Outcome step.call.Reply) (members' : List (String × Suite)) (tree' : FileTree) :
    Prop where
  divided : Divided regs members' owners tree' places (used ++ step.given)
  turns : Turns owners (tables members tree) step.stamp.time step.call outcome
    (tables members' tree')
  unchanged : (step.call.Looks ∨ ∃ f, outcome = .error f) → members' = members ∧ tree' = tree
  confined : ∀ other, ¬ Aims owners step.call other →
    Entries.get? other members' = Entries.get? other members
      ∧ ∀ g, Entries.get? other members = some (.engine g) →
        ∀ names, tree'.occupant (places other ++ names) = tree.occupant (places other ++ names)

namespace Divided

theorem mono (h : Divided regs members owners tree places used) {used' : List String}
    (hsub : ∀ unique ∈ used, unique ∈ used') : Divided regs members owners tree places used' :=
  { h with serves := fun name suite hmember => (h.serves name suite hmember).mono hsub }

/-- What a member keeps is in its table, under a key that is its identity. -/
theorem keeps_iff (h : Divided regs members owners tree places used)
    (hmember : Entries.get? name members = some suite) {e : Entity c} :
    suite.Keeps tree e ↔ ∃ key, e.id = .ofString key ∧ tables members tree name c key = some e := by
  rw [(h.serves name suite hmember).keeps_iff]
  refine exists_congr fun key => ?_
  rw [tables_of_get? hmember]
  exact ⟨fun he => ⟨(h.serves name suite hmember).id_of_table he, he⟩, And.right⟩

/-- What is in a table is found under the identity of its place. -/
theorem run_get (h : Divided regs members owners tree places used) {e : Entity c}
    (he : tables members tree name c key = some e) (stamp : Stamp) :
    (answer stamp (.dispatcher members owners) (.get c (placeId name key))).run tree
      = ((.ok (some (compose name e)), .dispatcher members owners), tree) := by
  obtain ⟨suite, hmember, htable⟩ := exists_of_tables he
  rw [run_of_forwards (.get (CompositeId.ofId_toId name key)) hmember,
    (h.serves name suite hmember).run_get htable, Entries.insert_of_get? hmember]
  rfl

/-- What is found under an identity is in the table of the member that the identity names. -/
theorem of_get (h : Divided regs members owners tree places used) {id : Id} {w : Entity c}
    (hreply : ((answer stamp (.dispatcher members owners) (.get c id)).run tree).1.1
      = .ok (some w)) : ∃ name key e, CompositeId.ofId id = .ok ⟨name, .ofString key⟩
        ∧ tables members tree name c key = some e ∧ w = compose name e := by
  obtain ⟨failure, -, hrun⟩ | ⟨name, suite, inner, wrap, hforwards, hmember⟩ :=
    dispatch_cases h.known (show Single (.get c id) from trivial)
  · rw [hrun] at hreply
    cases hreply
  · rw [run_of_forwards hforwards hmember] at hreply
    cases hforwards with
    | @get _ _ composite hid =>
      cases hfound : ((answer stamp suite (.get c composite.id)).run tree).1.1 with
      | error failure =>
        rw [hfound] at hreply
        cases hreply
      | ok found =>
        rw [hfound] at hreply
        have hmap : (show Option (Entity c) from found).map (compose composite.suite) = some w :=
          Except.ok.inj hreply
        obtain ⟨e, he, rfl⟩ := Option.map_eq_some_iff.1 hmap
        obtain rfl : found = some e := he
        obtain ⟨key, hkey, htable⟩ := (h.serves _ suite hmember).table_of_get hfound
        refine ⟨composite.suite, key, e, by rw [hid, ← hkey], ?_, rfl⟩
        rwa [tables_of_get? hmember]

/-- What a part of a search finds is in the table of its member. -/
theorem of_found (h : Divided regs members owners tree places used) {task : PartialSearch}
    {l : List (Entity c)} (hfound : found stamp members tree c task = .ok l) :
    ∀ e ∈ l, ∃ name key x, tables members tree name c key = some x ∧ e = compose name x := by
  intro e he
  rw [found] at hfound
  cases hmember : Entries.get? task.suite members with
  | none =>
    rw [run_answerIn_of_none hmember] at hfound
    cases hfound
  | some suite =>
    rw [run_answerIn_of_some hmember] at hfound
    cases hreply : ((answer stamp suite (.search c task.searcher)).run tree).1.1 with
    | error failure =>
      rw [hreply] at hfound
      cases hfound
    | ok es =>
      rw [hreply] at hfound
      obtain rfl := Except.ok.inj hfound
      obtain ⟨x, hx, rfl⟩ := List.mem_map.1 he
      obtain ⟨key, hkey⟩ := (h.serves _ _ hmember).table_of_search hreply x hx
      exact ⟨task.suite, key, x, by rwa [tables_of_get? hmember], rfl⟩

/-- A search goes to several members and changes none of them. -/
theorem run_search (h : Divided regs members owners tree places used) (stamp : Stamp)
    (c : EntityClass) (s : Searcher) :
    ∃ outcome, (answer stamp (.dispatcher members owners) (.search c s)).run tree
        = ((outcome, .dispatcher members owners), tree)
      ∧ ∀ found, outcome = .ok found → ∀ e ∈ (show List (Entity c) from found),
        ∃ name key x, tables members tree name c key = some x ∧ e = compose name x := by
  cases hdivide : divide owners c s with
  | error failure => exact ⟨_, run_search_of_error hdivide, fun found hfound => by cases hfound⟩
  | ok tasks =>
    have hquiet : ∀ task ∈ tasks,
        ((answerIn stamp members task.suite (.search c task.searcher)).run tree).2 = tree := by
      intro task _
      cases hmember : Entries.get? task.suite members with
      | none => rw [run_answerIn_of_none hmember]
      | some suite =>
        obtain ⟨outcome, hrun⟩ := (h.serves _ _ hmember).run_looks
          (show Call.Looks (.search c task.searcher) from trivial) stamp
        rw [run_answerIn_of_some hmember, hrun]
    refine ⟨_, Suite.run_search hdivide hquiet, fun all hall e he => ?_⟩
    obtain ⟨task, -, l, hfound, hel⟩ := exists_of_gather hall he
    exact h.of_found hfound e hel

/-- A call changes nothing, or it is forwarded to a member. -/
theorem run_cases (h : Divided regs members owners tree places used) (stamp : Stamp) (call : Call) :
    (∃ outcome, (answer stamp (.dispatcher members owners) call).run tree
        = ((outcome, .dispatcher members owners), tree)
      ∧ (call.Looks ∨ ∃ f, outcome = .error f))
    ∨ ∃ name suite inner wrap, Forwards owners name call inner wrap
      ∧ Entries.get? name members = some suite := by
  by_cases hsingle : Single call
  · obtain ⟨failure, -, hrun⟩ | hforwards := dispatch_cases h.known hsingle
    · exact .inl ⟨_, hrun stamp tree, .inr ⟨failure, rfl⟩⟩
    · exact .inr hforwards
  · cases call with
    | search c s =>
      obtain ⟨outcome, hrun, -⟩ := h.run_search stamp c s
      exact .inl ⟨outcome, hrun, .inl trivial⟩
    | types c => exact .inl ⟨_, run_types c, .inl trivial⟩
    | _ => exact absurd trivial hsingle

/-- Every call that does not fail for the sake of files leaves a divided state, and turns the
    tables of the members. -/
theorem moves (h : Divided regs members owners tree places used) {step : Step}
    (hproper : step.Proper Number.InRange) (hfresh : ∀ unique ∈ step.given, unique ∉ used)
    {outcome : Outcome step.call.Reply}
    (hrun : (answer step.stamp (.dispatcher members owners) step.call).run tree
      = ((outcome, suite'), tree'))
    (hfiles : ∀ f, outcome = .error f → ¬ f.OfFiles)
    (hlimit : ∀ r ∈ regs, ∀ g, r.suite = .engine g → ∀ c, (tree'.shelf g.root c).WithinLimit) :
    ∃ members', suite' = .dispatcher members' owners
      ∧ Moves regs owners places members tree used step outcome members' tree' := by
  obtain ⟨stamp, call⟩ := step
  -- a call is answered by the dispatcher itself, or it is forwarded to one member
  obtain ⟨outcome', hsame, hstays⟩ | ⟨name, suite, inner, wrap, hforwards, hmember⟩ :=
    h.run_cases stamp call
  · obtain ⟨⟨rfl, rfl⟩, rfl⟩ := Prod.mk.inj (hsame.symm.trans hrun) |>.imp_left Prod.mk.inj
    refine ⟨members, rfl, h.mono fun _ => List.mem_append_left _, ?_, fun _ => ⟨rfl, rfl⟩,
      fun _ _ => ⟨rfl, fun _ _ _ => rfl⟩⟩
    cases outcome' with
    | error f => exact .failed f
    | ok reply =>
      obtain hlooks | ⟨f, hf⟩ := hstays
      · exact .looked reply hlooks
      · cases hf
  · rcases hinner : (answer stamp suite inner).run tree with ⟨⟨reply, suite₁⟩, tree₁⟩
    rw [run_of_forwards hforwards hmember, hinner] at hrun
    obtain ⟨⟨rfl, rfl⟩, rfl⟩ := Prod.mk.inj hrun |>.imp_left Prod.mk.inj
    obtain ⟨hproper', hgiven⟩ := hforwards.demands hproper
    have hadvances : Advances suite tree (places name) used stamp inner reply suite₁ tree₁ := by
      refine Serves.advances (h.serves name suite hmember) hproper' (hgiven ▸ hfresh) hinner
        (fun f hf => ?_) fun g hg c => ?_
      · exact hfiles f (by rw [hf]; exact hforwards.wrap_error f)
      · obtain ⟨r, hr, -, hsuite⟩ := (h.engines name g).1 (hg ▸ hmember)
        exact hlimit r hr g hsuite c
    -- the tables of the other members are as they were, wherever those keep their entities
    obtain ⟨hhere, hothers⟩ := h.tables_change hmember hadvances
    have hdivided := h.change hmember hadvances hforwards.staysOwned
    rw [hgiven] at hdivided
    refine ⟨_, rfl, hdivided, ?_, fun hstays => ?_, fun other haims => ?_⟩
    · refine turns_of_follows hforwards ?_ hothers
      rw [hhere, tables_of_get? hmember]
      exact hadvances.follows
    · obtain ⟨rfl, rfl⟩ := hadvances.unchanged (hforwards.stays hstays)
      exact ⟨Entries.insert_of_get? hmember, rfl⟩
    · have hother : other ≠ name := fun heq => haims (heq ▸ hforwards.aims)
      refine ⟨Entries.get?_insert_of_ne hother .., fun g hg => ?_⟩
      exact (h.stands_by hmember hadvances hother hg).2.2 g rfl

end Divided

end Suite

end PropertyGraph
