/-
  PropertyGraph.Proofs.Routing.Custody

  Runs of calls to a dispatcher over graphs that hold nothing at the start, be they stores in memory
  or graphs in documents without rules.  `Starts.divided` and `Divided.moves` carry the run, and
  `orderly_after` says what callers rely on, at each state (`Orderly`) and at each step (`Lawful`):
  suites keep what they own, an identity that was given out leads to its entity until this is
  removed, and a call changes nothing beyond the suite that it is about, or nothing at all if it
  fails.  An operation that makes several calls, such as copying a node, is the run of these calls.
-/
import PropertyGraph.Proofs.Routing.Identities

namespace PropertyGraph

open Engine (Step given)

variable {c : EntityClass} {key name : String}

namespace Suite

variable {tree tree' : FileTree} {regs : List Registration} {members : List (String × Suite)}
  {owners : Owners} {places : String → Place} {used : List String} {K : Knowledge}
  {steps : List Step} {step : Step}

/-! ## The start -/

/-- A graph that holds nothing: a store in memory, or a graph in documents without rules. -/
inductive Blank (tree : FileTree) : Suite → Prop
  | store {kept : Store} : kept.keeper = .shared .empty → Blank tree (.store kept)
  | engine {g : Engine} {base : Place} : g.rules = [] → tree.Bare g.root base →
    Blank tree (.engine g)

/-- Registered graphs that hold nothing, those in documents at places of their own. -/
structure Starts (tree : FileTree) (regs : List Registration) : Prop where
  standing : tree.Standing
  blank : ∀ r ∈ regs, r.suite.Blank tree
  distinct : ∀ r ∈ regs, ∀ r' ∈ regs, ∀ g g' base, r.suite = .engine g → r'.suite = .engine g' →
    tree.Rooted g.root base → tree.Rooted g'.root base → r.name = r'.name

/-- The places of the graphs in documents, by name. -/
theorem Starts.bare_places (h : Starts tree regs) (hassembled : Assembled regs members owners) :
    ∃ places : String → Place, ∀ name g, Entries.get? name members = some (.engine g) →
      g.rules = [] ∧ tree.Bare g.root (places name) := by
  have hplace : ∀ name, ∃ base, ∀ g, Entries.get? name members = some (.engine g) →
      g.rules = [] ∧ tree.Bare g.root base := by
    intro name
    by_cases hengine : ∃ g, Entries.get? name members = some (.engine g)
    · obtain ⟨g, hg⟩ := hengine
      obtain ⟨r, hr, -, hsuite⟩ := hassembled.get?_eq_some_iff.1 hg
      have hblank := h.blank r hr
      rw [hsuite] at hblank
      cases hblank with
      | @engine _ base hrules hbare =>
        refine ⟨base, fun g' hg' => ?_⟩
        obtain rfl := Suite.engine.inj (Option.some.inj (hg.symm.trans hg'))
        exact ⟨hrules, hbare⟩
    · exact ⟨[], fun g hg => absurd ⟨g, hg⟩ hengine⟩
  exact Classical.skolem.1 hplace

/-- At the start nothing is in the tables. -/
theorem Starts.tables_eq_none (h : Starts tree regs) (hassembled : Assembled regs members owners)
    (name : String) (c : EntityClass) (key : String) : tables members tree name c key = none := by
  rw [tables]
  cases hmember : Entries.get? name members with
  | none => rfl
  | some suite =>
    obtain ⟨r, hr, -, rfl⟩ := hassembled.get?_eq_some_iff.1 hmember
    have hblank := h.blank r hr
    generalize r.suite = suite at hblank
    cases hblank with
    | @store kept hkeeper =>
      obtain ⟨idPrefix, evaluators, keeper⟩ := kept
      obtain rfl : keeper = .shared .empty := hkeeper
      cases c <;> rfl
    | engine hrules hbare => exact Engine.table_of_bare hbare c key

theorem Starts.tracks (h : Starts tree regs) (hassembled : Assembled regs members owners) :
    Tracks (tables members tree) fun _ _ => False where
  kept he := he.elim
  shown hw := by
    rw [h.tables_eq_none hassembled] at hw
    cases hw
  single he := he.elim

/-- At the start the state is divided. -/
theorem Starts.divided (h : Starts tree regs) (hassembled : Assembled regs members owners) :
    ∃ places, Divided regs members owners tree places [] := by
  obtain ⟨places, hplaces⟩ := h.bare_places hassembled
  refine ⟨places, ?_, fun c type name => hassembled.mem_of_owner?,
    fun name g => hassembled.get?_eq_some_iff, fun name suite hmember => ?_,
    fun name other g g' hname hother hne => ?_, fun name c key e he => ?_⟩
  · rw [hassembled.members, Entries.keys, Registration.members, List.map_map]
    rfl
  · obtain ⟨r, hr, -, rfl⟩ := hassembled.get?_eq_some_iff.1 hmember
    have hblank := h.blank r hr
    generalize r.suite = suite at hmember hblank ⊢
    cases hblank with
    | store hkeeper =>
      rw [← Store.withState_of_keeper hkeeper]
      refine .store GraphState.keyed_empty fun c key e he => ?_
      cases c <;> cases he
    | engine _ _ =>
      obtain ⟨hrules, hbare⟩ := hplaces name _ hmember
      exact .engine hrules (Engine.consistent_of_bare hbare)
  · -- neither of two empty roots lies below the other
    have hbare := (hplaces name g hname).2
    have hbare' := (hplaces other g' hother).2
    have hplace : places name ≠ places other := by
      intro heq
      obtain ⟨r, hr, rfl, hsuite⟩ := hassembled.get?_eq_some_iff.1 hname
      obtain ⟨r', hr', rfl, hsuite'⟩ := hassembled.get?_eq_some_iff.1 hother
      exact hne (h.distinct r hr r' hr' g g' _ hsuite hsuite' hbare.rooted (heq ▸ hbare'.rooted))
    exact ⟨hbare.not_prefix h.standing hbare'.rooted hplace,
      hbare'.not_prefix h.standing hbare.rooted hplace.symm⟩
  · rw [h.tables_eq_none hassembled] at he
    cases he

/-! ## Runs -/

/-- A run of proper calls in which none fails for the sake of files, and all documents stay within
    the nesting limit. -/
structure CleanRun (regs : List Registration) (start : Suite × FileTree) (steps : List Step) :
    Prop where
  proper : ProperRun Number.InRange steps
  answers : ∀ before step rest, steps = before ++ step :: rest → ∀ f,
    (backend.answer step.stamp step.call (backend.after start before)).1 = .error f → ¬ f.OfFiles
  limits : ∀ before step rest, steps = before ++ step :: rest → ∀ r ∈ regs, ∀ g,
    r.suite = .engine g →
      ∀ c, ((backend.after start (before ++ [step])).2.shelf g.root c).WithinLimit

theorem CleanRun.before {start : Suite × FileTree} {rest : List Step}
    (h : CleanRun regs start (steps ++ rest)) : CleanRun regs start steps where
  proper := h.proper.before
  answers before step rest' heq := h.answers before step (rest' ++ rest) (by simp [heq])
  limits before step rest' heq := h.limits before step (rest' ++ rest) (by simp [heq])

theorem cleanRun_nil (regs : List Registration) (start : Suite × FileTree) :
    CleanRun regs start [] where
  proper := ⟨List.nodup_nil, fun step hmem => absurd hmem List.not_mem_nil⟩
  answers before step rest heq := absurd heq.symm (by simp)
  limits before step rest heq := absurd heq.symm (by simp)

/-- Whether a call after a run is answered without a failure of files, and leaves only files within
    the nesting limit. -/
def cleanly (start : Suite × FileTree) (steps : List Step) (step : Step) : Bool :=
  (match (backend.answer step.stamp step.call (backend.after start steps)).1 with
    | .error .io | .error .malformed => false
    | _ => true) && (backend.after start (steps ++ [step])).2.withinLimit

theorem CleanRun.append {start : Suite × FileTree} (h : CleanRun regs start steps)
    (hfresh : ∀ unique ∈ step.given, unique ∉ given steps) (hproper : step.Proper Number.InRange)
    (hcleanly : cleanly start steps step = true) : CleanRun regs start (steps ++ [step]) := by
  rw [cleanly, Bool.and_eq_true] at hcleanly
  obtain ⟨hanswer, hlimit⟩ := hcleanly
  refine ⟨h.proper.append hfresh hproper, fun before other rest heq => ?_,
    fun before other rest heq => ?_⟩
  · obtain ⟨rfl, rfl⟩ | ⟨rest', heq'⟩ := Engine.last_or_before heq
    · rintro f hf hfiles
      rw [hf] at hanswer
      cases f <;> first | exact hfiles | cases hanswer
    · exact h.answers before other rest' heq'
  · obtain ⟨rfl, rfl⟩ | ⟨rest', heq'⟩ := Engine.last_or_before heq
    · exact fun r _ g _ c => FileTree.withinLimit_shelf hlimit c
    · exact h.limits before other rest' heq'

/-- The last call of a clean run moves a divided state. -/
theorem Divided.answer {start : Suite × FileTree}
    (h : Divided regs members owners tree places (given steps))
    (hclean : CleanRun regs start (steps ++ [step]))
    (hafter : backend.after start steps = (.dispatcher members owners, tree)) :
    ∃ outcome members' tree', backend.answer step.stamp step.call (.dispatcher members owners, tree)
        = (outcome, .dispatcher members' owners, tree')
      ∧ Moves regs owners places members tree (given steps) step outcome members' tree' := by
  rcases hrun : (Suite.answer step.stamp (.dispatcher members owners) step.call).run tree
    with ⟨⟨outcome, suite'⟩, tree'⟩
  have hanswer : backend.answer step.stamp step.call (.dispatcher members owners, tree)
      = (outcome, suite', tree') := by
    rw [backend]
    simp only [hrun]
  have hfiles := hclean.answers steps step [] rfl
  have hlimits := hclean.limits steps step [] rfl
  rw [hafter, hanswer] at hfiles
  rw [Backend.after_append, hafter, Backend.advance, hanswer] at hlimits
  obtain ⟨members', rfl, hmoves⟩ := h.moves (hclean.proper.proper step (by simp))
    (fun unique hgiven => hclean.proper.fresh hgiven) hrun hfiles hlimits
  exact ⟨outcome, members', tree', hanswer, hmoves⟩

/-- After a clean run the state is divided, and what is known is kept. -/
theorem Starts.divided_after (hstarts : Starts tree regs)
    (hassembled : Assembled regs members owners)
    (hclean : CleanRun regs (.dispatcher members owners, tree) steps) : ∃ places members' tree',
      backend.after (.dispatcher members owners, tree) steps = (.dispatcher members' owners, tree')
      ∧ Divided regs members' owners tree' places (given steps)
      ∧ Tracks (tables members' tree')
        (backend.known (.dispatcher members owners, tree) steps) := by
  induction steps using List.reverseRecOn with
  | nil =>
    obtain ⟨places, hdivided⟩ := hstarts.divided hassembled
    exact ⟨places, members, tree, rfl, hdivided, hstarts.tracks hassembled⟩
  | append_singleton steps step ih =>
    obtain ⟨places, between, tree₁, hafter, hdivided, htracks⟩ := ih hclean.before
    obtain ⟨outcome, members', tree', hanswer, hmoves⟩ := hdivided.answer hclean hafter
    refine ⟨places, members', tree', ?_, ?_, ?_⟩
    · rw [Backend.after_append, hafter, Backend.advance, hanswer]
    · rw [Engine.given_append]
      exact hmoves.divided
    · rw [Backend.known_append, hafter, hanswer]
      exact htracks.turns hmoves.turns

/-! ## States in order -/

/-- What holds of a dispatcher and of what its callers know. -/
structure Orderly (members : List (String × Suite)) (owners : Owners) (tree : FileTree)
    (K : Knowledge) : Prop where
  /-- a suite keeps entities of types that it owns -/
  owned : ∀ name suite, Entries.get? name members = some suite →
    ∀ c (e : Entity c), suite.Keeps tree e → owners.owner? c e.type = some name
  /-- an identity stands for one entity of one suite -/
  distinct : ∀ name name' suite suite', Entries.get? name members = some suite →
    Entries.get? name' members = some suite' → ∀ c (e e' : Entity c), suite.Keeps tree e →
      suite'.Keeps tree e' → (compose name e).id = (compose name' e').id → name = name' ∧ e = e'
  /-- what is kept is known -/
  shown : ∀ name suite, Entries.get? name members = some suite →
    ∀ c (w : Entity c), suite.Keeps tree w →
      ∃ e, K c e ∧ e.id = (compose name w).id ∧ e.Rereads (compose name w)
  /-- what is known is kept, and found under its identity -/
  leads : ∀ c (e : Entity c), K c e → ∃ name suite w, Entries.get? name members = some suite
    ∧ suite.Keeps tree w ∧ (compose name w).id = e.id ∧ e.Rereads (compose name w)
    ∧ ∀ stamp, (answer stamp (.dispatcher members owners) (.get c e.id)).run tree
      = ((.ok (some (compose name w)), .dispatcher members owners), tree)
  /-- what is found under an identity is known by it -/
  got : ∀ stamp c id w,
    ((answer stamp (.dispatcher members owners) (.get c id)).run tree).1.1 = .ok (some w) →
      ∃ e, K c e ∧ CompositeId.ofId id = CompositeId.ofId e.id ∧ w.id = e.id ∧ e.Rereads w
  /-- what is searched for and found is known by its identity -/
  searched : ∀ stamp c s (found : List (Entity c)),
    ((answer stamp (.dispatcher members owners) (.search c s)).run tree).1.1 = .ok found →
      ∀ w ∈ found, ∃ e, K c e ∧ w.id = e.id ∧ e.Rereads w
  /-- an identity is known for one entity -/
  single : ∀ c (e e' : Entity c), K c e → K c e' → e.id = e'.id → e = e'

/-- A divided state, in which what is known is kept, is in order. -/
theorem Divided.orderly (h : Divided regs members owners tree places used)
    (htracks : Tracks (tables members tree) K) : Orderly members owners tree K where
  owned name suite hmember c e he := by
    obtain ⟨key, -, htable⟩ := (h.keeps_iff hmember).1 he
    exact h.owned name c key e htable
  distinct name name' suite suite' hmember hmember' c e e' he he' heq := by
    obtain ⟨key, hid, htable⟩ := (h.keeps_iff hmember).1 he
    obtain ⟨key', hid', htable'⟩ := (h.keeps_iff hmember').1 he'
    rw [compose_id_of_text hid, compose_id_of_text hid'] at heq
    obtain ⟨rfl, rfl⟩ := placeId_inj heq
    exact ⟨rfl, Option.some.inj (htable.symm.trans htable')⟩
  shown name suite hmember c w hw := by
    obtain ⟨key, hid, htable⟩ := (h.keeps_iff hmember).1 hw
    obtain ⟨x, hx, htext, hrereads⟩ := htracks.shown htable
    refine ⟨compose name x, hx, ?_, rereads_compose hrereads htext⟩
    rw [compose_id_of_text htext, compose_id_of_text hid]
  -- where an identity leads is the name of the member before its key
  leads c e he := by
    obtain ⟨name, key, x, w, rfl, htext, htable, hrereads⟩ := htracks.kept he
    obtain ⟨suite, hmember, -⟩ := exists_of_tables htable
    have hid : w.id = .ofString key := hrereads.id htext
    refine ⟨name, suite, w, hmember, (h.keeps_iff hmember).2 ⟨key, hid, htable⟩, ?_,
      rereads_compose hrereads htext, fun stamp => ?_⟩
    · rw [compose_id_of_text hid, compose_id_of_text htext]
    · rw [compose_id_of_text htext]
      exact h.run_get htable stamp
  got stamp c id w hreply := by
    obtain ⟨name, key, x, hid, htable, rfl⟩ := h.of_get hreply
    obtain ⟨y, hy, htext, hrereads⟩ := htracks.shown htable
    refine ⟨compose name y, hy, ?_, ?_, rereads_compose hrereads htext⟩
    · rw [hid, compose_id_of_text htext, CompositeId.ofId_toId]
    · rw [compose_id_of_text htext, compose_id_of_text (htracks.id_of_table htable)]
  searched stamp c s found hreply w hw := by
    obtain ⟨outcome, hrun, hfound⟩ := h.run_search stamp c s
    rw [hrun] at hreply
    obtain ⟨name, key, x, htable, rfl⟩ := hfound found hreply w hw
    obtain ⟨y, hy, htext, hrereads⟩ := htracks.shown htable
    refine ⟨compose name y, hy, ?_, rereads_compose hrereads htext⟩
    rw [compose_id_of_text htext, compose_id_of_text (htracks.id_of_table htable)]
  single c e e' := htracks.single

/-! ## Lawful steps -/

/-- What a call does to a dispatcher whose callers know something: the reply respects what is known,
    a failure leaves no trace, and a suite that the call is not about keeps its state and all that
    is below its root. -/
structure Lawful (owners : Owners) (K : Knowledge) (step : Step) (outcome : Outcome step.call.Reply)
    (members : List (String × Suite)) (tree : FileTree) (members' : List (String × Suite))
    (tree' : FileTree) : Prop where
  respects : Respects owners K step.stamp.time step.call outcome
  unchanged : ∀ f, outcome = .error f → members' = members ∧ tree' = tree
  confined : ∀ other, ¬ Aims owners step.call other →
    Entries.get? other members' = Entries.get? other members
      ∧ ∀ g base, Entries.get? other members = some (.engine g) → tree.Rooted g.root base →
        ∀ names, tree'.occupant (base ++ names) = tree.occupant (base ++ names)

theorem Divided.lawful (h : Divided regs members owners tree places used)
    (htracks : Tracks (tables members tree) K) {outcome : Outcome step.call.Reply}
    {members' : List (String × Suite)}
    (hmoves : Moves regs owners places members tree used step outcome members' tree') :
    Lawful owners K step outcome members tree members' tree' where
  respects := htracks.respects hmoves.turns
  unchanged f hf := hmoves.unchanged (.inr ⟨f, hf⟩)
  confined other haims := by
    obtain ⟨hmember, hbelow⟩ := hmoves.confined other haims
    refine ⟨hmember, fun g base hg hrooted names => ?_⟩
    -- a root has one place only
    have hserves := h.serves other _ hg
    cases hserves with
    | engine hrules hconsistent =>
      have hplace := hconsistent.sound.hosts.rooted.leads
      obtain rfl := Except.ok.inj (hplace.symm.trans hrooted.leads)
      exact hbelow g hg names

/-! ## Custody -/

section Custody

variable (hstarts : Starts tree regs) (hassembled : Assembled regs members owners)

include hstarts hassembled

/-- The last call of a clean run is lawful. -/
theorem lawful_last (hclean : CleanRun regs (.dispatcher members owners, tree) (steps ++ [step])) :
    ∃ members₁ tree₁ outcome members₂ tree₂,
      backend.after (.dispatcher members owners, tree) steps = (.dispatcher members₁ owners, tree₁)
      ∧ backend.answer step.stamp step.call (.dispatcher members₁ owners, tree₁)
        = (outcome, .dispatcher members₂ owners, tree₂)
      ∧ Tracks (tables members₁ tree₁) (backend.known (.dispatcher members owners, tree) steps)
      ∧ Lawful owners (backend.known (.dispatcher members owners, tree) steps) step outcome
        members₁ tree₁ members₂ tree₂ := by
  obtain ⟨places, members₁, tree₁, hafter, hdivided, htracks⟩ :=
    hstarts.divided_after hassembled hclean.before
  obtain ⟨outcome, members₂, tree₂, hanswer, hmoves⟩ := hdivided.answer hclean hafter
  exact ⟨members₁, tree₁, outcome, members₂, tree₂, hafter, hanswer, htracks,
    hdivided.lawful htracks hmoves⟩

/-- An identity that was given out stays known as long as nothing says that it was removed. -/
theorem known_after_given {before rest : List Step} {e : Entity c}
    (hclean : CleanRun regs (.dispatcher members owners, tree) (before ++ step :: rest))
    (hgives : step.call.Gives (backend.answer step.stamp step.call
      (backend.after (.dispatcher members owners, tree) before)).1 c e)
    (hkept : ∀ middle last rest', rest = middle ++ last :: rest' →
      ¬ last.call.Removes (backend.answer last.stamp last.call
        (backend.after (.dispatcher members owners, tree) (before ++ step :: middle))).1 c e.id) :
    ∃ e', backend.known (.dispatcher members owners, tree) (before ++ step :: rest) c e'
      ∧ e'.id = e.id := by
  induction rest using List.reverseRecOn with
  | nil =>
    rw [Backend.known_append]
    exact ⟨e, .inl hgives, rfl⟩
  | append_singleton rest last ih =>
    rw [← List.cons_append, ← List.append_assoc] at hclean ⊢
    obtain ⟨e', he', hid⟩ := ih hclean.before fun middle last' rest' heq =>
      hkept middle last' (rest' ++ [last]) (by simp [heq])
    obtain ⟨members₁, tree₁, outcome, members₂, tree₂, hafter, hanswer, htracks, hlawful⟩ :=
      lawful_last hstarts hassembled hclean
    have hlast := hkept rest last [] rfl
    rw [hafter, hanswer, ← hid] at hlast
    obtain ⟨e'', he'', hid'⟩ := htracks.stays_known hlawful.respects he' hlast
    rw [Backend.known_append, hafter, hanswer]
    exact ⟨e'', he'', hid'.trans hid⟩

end Custody

/-- Through every clean run of a dispatcher over graphs that hold nothing at the start, the state is
    in order and each step is lawful, and an identity that was given out at some step leads to its
    entity as long as this is not removed. -/
theorem orderly_after (hstarts : Starts tree regs)
    (hbuilt : (Assembly.ofList regs).dispatcher = .ok (.dispatcher members owners))
    (hclean : CleanRun regs (.dispatcher members owners, tree) steps) :
    (∃ members' tree',
      backend.after (.dispatcher members owners, tree) steps = (.dispatcher members' owners, tree')
      ∧ Entries.keys members' = regs.map Registration.name
      ∧ Orderly members' owners tree' (backend.known (.dispatcher members owners, tree) steps))
    ∧ ∀ before step rest, steps = before ++ step :: rest →
      (∃ members₁ tree₁ outcome members₂ tree₂,
        backend.after (.dispatcher members owners, tree) before
          = (.dispatcher members₁ owners, tree₁)
        ∧ backend.answer step.stamp step.call (.dispatcher members₁ owners, tree₁)
          = (outcome, .dispatcher members₂ owners, tree₂)
        ∧ Lawful owners (backend.known (.dispatcher members owners, tree) before) step outcome
          members₁ tree₁ members₂ tree₂)
      ∧ ∀ c (e : Entity c),
        step.call.Gives (backend.answer step.stamp step.call
          (backend.after (.dispatcher members owners, tree) before)).1 c e →
        (∀ middle last rest', rest = middle ++ last :: rest' →
          ¬ last.call.Removes (backend.answer last.stamp last.call
            (backend.after (.dispatcher members owners, tree) (before ++ step :: middle))).1
            c e.id) →
        ∃ e', backend.known (.dispatcher members owners, tree) steps c e' ∧ e'.id = e.id := by
  obtain ⟨members', owners', heq, hassembled⟩ := Assembly.assembled_of_dispatcher hbuilt
  obtain ⟨rfl, rfl⟩ := Suite.dispatcher.inj heq
  constructor
  · obtain ⟨places, members', tree', hafter, hdivided, htracks⟩ :=
      hstarts.divided_after hassembled hclean
    exact ⟨members', tree', hafter, hdivided.names, hdivided.orderly htracks⟩
  · rintro before step rest rfl
    refine ⟨?_, fun c e hgives hkept => known_after_given hstarts hassembled hclean hgives hkept⟩
    -- what holds up to a step is the general statement for the run that ends there
    have hfront : CleanRun regs (.dispatcher members owners, tree) (before ++ [step]) := by
      rw [← List.singleton_append, ← List.append_assoc] at hclean
      exact hclean.before
    obtain ⟨members₁, tree₁, outcome, members₂, tree₂, hafter, hanswer, -, hlawful⟩ :=
      lawful_last hstarts hassembled hfront
    exact ⟨members₁, tree₁, outcome, members₂, tree₂, hafter, hanswer, hlawful⟩

/-- People in memory, and writings in documents. -/
def mixedRegistrations : List Registration :=
  [⟨"people", .store .blank, ["Person"], []⟩,
    ⟨"writings", .engine (Engine.sample []), ["Note"], ["Cites"]⟩]

/-- The owners that the two graphs make. -/
def mixedOwners : Owners where
  nodes := [("Person", "people"), ("Note", "writings")]
  relationships := [("Cites", "writings")]

/-- A note is written. -/
def noteCreation : Step :=
  ⟨⟨"1", 10⟩, .create .node (Body.node "Note" [])⟩

/-- The note is to become a person, which is for another graph to keep. -/
def noteChange : Step :=
  ⟨⟨"2", 11⟩, .edit .node (placeId "writings" "1")
    { type := some "Person", properties := none, ends := () }⟩

theorem starts_mixed : Starts .sample mixedRegistrations where
  standing above habove := by
    obtain rfl := List.prefix_nil.1 habove
    rfl
  blank r hr := by
    simp only [mixedRegistrations, List.mem_cons, List.not_mem_nil, or_false] at hr
    rcases hr with rfl | rfl
    · exact .store rfl
    · exact .engine rfl FileTree.bare_sample
  distinct r hr r' hr' g g' base hg hg' _ _ := by
    simp only [mixedRegistrations, List.mem_cons, List.not_mem_nil, or_false] at hr hr'
    rcases hr with rfl | rfl
    · cases hg
    · rcases hr' with rfl | rfl
      · cases hg'
      · rfl

theorem cleanRun_note : CleanRun mixedRegistrations
    (.dispatcher (Registration.members mixedRegistrations) mixedOwners, .sample)
    [noteCreation, noteChange] := by
  have hcreation : CleanRun mixedRegistrations
      (.dispatcher (Registration.members mixedRegistrations) mixedOwners, .sample)
      [noteCreation] :=
    (cleanRun_nil _ _).append (by decide) ⟨by decide, ⟨by decide, trivial⟩, trivial⟩
      (by decide +kernel)
  exact hcreation.append nofun ⟨by decide, nofun, trivial⟩ (by decide +kernel)

/-- The state after the note was made, and could not be changed, is in order. -/
theorem orderly_after_note :
    Starts .sample mixedRegistrations
      ∧ (Assembly.ofList mixedRegistrations).dispatcher
        = .ok (.dispatcher (Registration.members mixedRegistrations) mixedOwners)
      ∧ CleanRun mixedRegistrations
        (.dispatcher (Registration.members mixedRegistrations) mixedOwners, .sample)
        [noteCreation, noteChange]
      ∧ ∃ members' tree', backend.after
          (.dispatcher (Registration.members mixedRegistrations) mixedOwners, .sample)
          [noteCreation, noteChange]
          = (.dispatcher members' mixedOwners, tree')
        ∧ Entries.keys members' = mixedRegistrations.map Registration.name
        ∧ Orderly members' mixedOwners tree' (backend.known
          (.dispatcher (Registration.members mixedRegistrations) mixedOwners, .sample)
          [noteCreation, noteChange]) :=
  ⟨starts_mixed, rfl, cleanRun_note, (orderly_after starts_mixed rfl cleanRun_note).1⟩

end Suite

end PropertyGraph
