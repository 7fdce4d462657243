/-
  PropertyGraph.Proofs.Storage.Searching

  A search filters the entities of the types that its plan leaves open, and so finds what a full
  scan finds and the searcher keeps.  The plan of a searcher leaves all types open or names one;
  either way the documents that are not read hold nothing that matches, and in those that are read
  the residual tests as the searcher does.  What ties this to the files is the invariant of runs:
  an entity is seen under the type of its document, and no document is listed twice.
-/
import PropertyGraph.Proofs.Json.DoubleText
import PropertyGraph.Proofs.Searcher.Failures
import PropertyGraph.Proofs.Storage.History

namespace PropertyGraph.Engine

variable {c : EntityClass} {g : Engine} {p : Number → Prop} {tree : FileTree}
  {base : Place} {used : List String} {type : String}

/-! ## Documents as they are seen -/

/-- The entities in the document of a type are seen as some entities. -/
def ShowsType (g : Engine) (tree : FileTree) (type : String) (seens : List (Entity c)) : Prop :=
  ∃ entities, (tree.shelf g.root c).load type = .ok entities
    ∧ List.Forall₂ (fun e seen => (g.view e).exec tree = (.ok seen, tree)) entities seens

/-- The documents of some types are seen, one after the other. -/
inductive Shows (g : Engine) (tree : FileTree) : List String → List (Entity c) → Prop where
  | nil : Shows g tree [] []
  | cons {type : String} {seens more : List (Entity c)} {rest : List String} :
    g.ShowsType tree type seens → Shows g tree rest more →
    Shows g tree (type :: rest) (seens ++ more)

/-- Entities that are all seen are kept as they match. -/
theorem exec_keep {m : CompiledSearcher c} {entities seens : List (Entity c)}
    (h : List.Forall₂ (fun e seen => (g.view e).exec tree = (.ok seen, tree)) entities seens) :
    (g.keep m entities).exec tree = (m.filter seens, tree) := by
  induction h with
  | nil => rfl
  | @cons e seen rest seens hview _ ih =>
    rw [keep, FileTask.exec_bind_of_ok hview, CompiledSearcher.filter]
    cases htest : m.test seen with
    | error f => rfl
    | ok hit =>
      rw [FileTask.exec_bind, FileTask.exec_ofOutcome]
      simp only
      rw [FileTask.exec_bind, ih]
      cases m.filter seens <;> rfl

/-- Where a scan with a searcher that holds of everything has come to an end, all entities have
    been seen. -/
theorem shown_of_exec_keep {m : CompiledSearcher c} (hm : ∀ e, m.test e = .ok true)
    {entities found : List (Entity c)} (h : (g.keep m entities).exec tree = (.ok found, tree)) :
    List.Forall₂ (fun e seen => (g.view e).exec tree = (.ok seen, tree)) entities found := by
  induction entities generalizing found with
  | nil =>
    obtain rfl : [] = found := Except.ok.inj (Prod.mk.inj h).1
    exact .nil
  | cons e rest ih =>
    rw [keep] at h
    -- looking at the first entity has left the tree as it was
    obtain ⟨seen, tree₁, hview, h⟩ := FileTask.exec_bind_eq_ok h
    obtain ⟨outcome, hunchanged⟩ := exec_view_unchanged g e tree
    obtain rfl : tree = tree₁ := (Prod.mk.inj (hunchanged.symm.trans hview)).2
    rw [FileTask.exec_bind, FileTask.exec_ofOutcome, hm] at h
    simp only at h
    obtain ⟨more, tree₂, hmore, h⟩ := FileTask.exec_bind_eq_ok h
    obtain ⟨hfound, rfl⟩ := Prod.mk.inj h
    rw [← Except.ok.inj hfound]
    exact .cons hview (ih hmore)

/-- A scan that begins with a document whose entities are seen. -/
theorem exec_scan_cons {s : Searcher} {m : CompiledSearcher c} {seens : List (Entity c)}
    (hm : s.compile (g.evaluators.forClass c) = .ok m) (hshows : g.ShowsType tree type seens)
    (rest : List (String × Searcher)) :
    (g.scan c ((type, s) :: rest)).exec tree
      = match m.filter seens with
        | .error failure => (.error failure, tree)
        | .ok kept => (g.scan c rest >>= fun more => pure (kept ++ more)).exec tree := by
  obtain ⟨entities, hload, hviews⟩ := hshows
  have hloaded : (Catalog.load g.root c type).exec tree = (.ok entities, tree) := by
    rw [Catalog.exec_load, hload]
  rw [scan, hm, FileTask.exec_bind, FileTask.exec_ofOutcome]
  simp only
  rw [FileTask.exec_bind_of_ok hloaded, FileTask.exec_bind, exec_keep hviews]
  cases m.filter seens <;> rfl

/-- One document gives what is kept of it. -/
theorem exec_scan_one {s : Searcher} {seens : List (Entity c)} (hpaths : s.checkPaths = .ok ())
    (hshows : g.ShowsType tree type seens) :
    (g.scan c [(type, s)]).exec tree = (s.filter (g.evaluators.forClass c) seens, tree) := by
  obtain ⟨m, hm⟩ := Searcher.compile_isOk (g.evaluators.forClass c) hpaths
  have hfilter : s.filter (g.evaluators.forClass c) seens = m.filter seens := by
    rw [Searcher.filter, hm]
    rfl
  rw [exec_scan_cons hm hshows, hfilter]
  cases m.filter seens with
  | error failure => rfl
  | ok kept =>
    show (Except.ok (kept ++ []), tree) = _
    rw [List.append_nil]

/-- All documents give what is kept of all entities. -/
theorem Shows.exec_scan {s : Searcher} {known : List String} {all : List (Entity c)}
    (h : g.Shows tree known all) (hpaths : s.checkPaths = .ok ()) :
    (g.scan c (known.map fun type => (type, s))).exec tree
      = (s.filter (g.evaluators.forClass c) all, tree) := by
  obtain ⟨m, hm⟩ := Searcher.compile_isOk (g.evaluators.forClass c) hpaths
  have hfilter : ∀ es, s.filter (g.evaluators.forClass c) es = m.filter es := by
    intro es
    rw [Searcher.filter, hm]
    rfl
  rw [hfilter]
  induction h with
  | nil => rfl
  | @cons type seens more rest hshows _ ih =>
    rw [List.map_cons, exec_scan_cons hm hshows, CompiledSearcher.filter_append]
    cases m.filter seens with
    | error failure => rfl
    | ok kept =>
      show (g.scan c _ >>= fun more => pure (kept ++ more)).exec tree = _
      rw [FileTask.exec_bind, ih]
      cases m.filter more <;> rfl

/-- A full scan that comes to an end has seen all documents. -/
theorem shows_of_exec_scan {known : List String} {all : List (Entity c)} {tree' : FileTree}
    (h : (g.scan c (known.map fun type => (type, Searcher.always))).exec tree = (.ok all, tree')) :
    g.Shows tree known all := by
  induction known generalizing all with
  | nil =>
    obtain rfl : [] = all := Except.ok.inj (Prod.mk.inj h).1
    exact .nil
  | cons type rest ih =>
    rw [List.map_cons, scan] at h
    obtain ⟨m, tree₁, hm, h⟩ := FileTask.exec_bind_eq_ok h
    obtain ⟨hcompile, rfl⟩ := Prod.mk.inj hm
    obtain ⟨entities, tree₁, hload, h⟩ := FileTask.exec_bind_eq_ok h
    rw [Catalog.exec_load] at hload
    obtain ⟨hloaded, rfl⟩ := Prod.mk.inj hload
    obtain ⟨found, tree₁, hfound, h⟩ := FileTask.exec_bind_eq_ok h
    have htest : ∀ e, m.test e = .ok true := by
      intro e
      obtain rfl : _ = m := Except.ok.inj hcompile
      rfl
    -- so has looking at all entities of the document
    obtain rfl : tree = tree₁ := by
      have hagrees : (g.keep m entities).Agrees tree tree := agrees_keep m fun _ _ => rfl
      rw [← hagrees.here, hfound]
    obtain ⟨more, tree₁, hmore, h⟩ := FileTask.exec_bind_eq_ok h
    obtain ⟨hall, rfl⟩ := Prod.mk.inj h
    rw [← Except.ok.inj hall]
    exact .cons ⟨entities, hloaded, shown_of_exec_keep htest hfound⟩ (ih hmore)

/-! ## Narrowing a scan -/

/-- Entities are seen under the types of their documents. -/
def Typed (g : Engine) (tree : FileTree) (c : EntityClass) : Prop :=
  ∀ type (seens : List (Entity c)), g.ShowsType tree type seens → ∀ e ∈ seens, e.type = type

/-- Of a type without a document nothing is seen. -/
theorem Shows.filter_of_unknown {known : List String} {all : List (Entity c)}
    (h : g.Shows tree known all) (htyped : g.Typed tree c) (hunknown : type ∉ known) :
    (all.filter fun e => e.type == type) = [] := by
  induction h with
  | nil => rfl
  | @cons first seens more rest hshows _ ih =>
    obtain ⟨hfirst, hrest⟩ := not_or.1 (mt List.mem_cons.2 hunknown)
    rw [List.filter_append, ih hrest, List.append_nil, List.filter_eq_nil_iff]
    intro e he
    rw [htyped first seens hshows e he, beq_iff_eq]
    exact fun heq => hfirst heq.symm

/-- Of a type with a document the entities in it are seen. -/
theorem Shows.showsType_filter {known : List String} {all : List (Entity c)}
    (h : g.Shows tree known all) (htyped : g.Typed tree c) (hknown : known.Nodup)
    (hmem : type ∈ known) : g.ShowsType tree type (all.filter fun e => e.type == type) := by
  induction h with
  | nil => cases hmem
  | @cons first seens more rest hshows hrest ih =>
    obtain ⟨hfresh, hrestNodup⟩ := List.nodup_cons.1 hknown
    rw [List.filter_append]
    by_cases hfirst : first = type
    · -- this is the document, and of the others nothing is seen
      subst hfirst
      have hall : (seens.filter fun e => e.type == first) = seens :=
        List.filter_eq_self.2 fun e he => beq_iff_eq.2 (htyped first seens hshows e he)
      rw [hall, hrest.filter_of_unknown htyped hfresh, List.append_nil]
      exact hshows
    · have hnone : (seens.filter fun e => e.type == type) = [] := by
        refine List.filter_eq_nil_iff.2 fun e he => ?_
        rw [htyped first seens hshows e he, beq_iff_eq]
        exact hfirst
      rw [hnone, List.nil_append]
      exact ih hrestNodup ((List.mem_cons.1 hmem).resolve_left fun he => hfirst he.symm)

/-! ## Identities -/

/-- An entity as it is seen differs from the stored one in its bag at most. -/
theorem Sound.rebagged_of_view (h : g.Sound p used tree base) {entities : List (Entity c)}
    (hload : (tree.shelf g.root c).load type = .ok entities) {e seen : Entity c}
    (he : e ∈ entities) (hview : (g.view e).exec tree = (.ok seen, tree)) :
    Entity.Rebagged p e seen := by
  obtain ⟨unique, -, hkept⟩ := (h.good c).all type entities hload e he
  obtain ⟨seen', hview', hrebagged, -⟩ := exec_view (p := p) hkept.keeps
  obtain rfl : seen' = seen := Except.ok.inj (Prod.mk.inj (hview'.symm.trans hview)).1
  exact hrebagged

/-- The entities that are seen in a document are those in the document, up to their bags. -/
theorem Sound.rebagged_of_views (h : g.Sound p used tree base) {entities seens : List (Entity c)}
    (hall : ∀ e ∈ entities, ∃ entities, (tree.shelf g.root c).load type = .ok entities
      ∧ e ∈ entities)
    (hviews : List.Forall₂ (fun e seen => (g.view e).exec tree = (.ok seen, tree)) entities seens) :
    List.Forall₂ (Entity.Rebagged p) entities seens := by
  induction hviews with
  | nil => exact .nil
  | @cons e seen rest seens hview _ ih =>
    obtain ⟨loaded, hload, he⟩ := hall e (List.mem_cons_self ..)
    exact .cons (h.rebagged_of_view hload he hview)
      (ih fun x hx => hall x (List.mem_cons_of_mem _ hx))

theorem ids_of_rebagged {entities seens : List (Entity c)}
    (h : List.Forall₂ (Entity.Rebagged p) entities seens) :
    seens.map Entity.id = entities.map Entity.id := by
  induction h with
  | nil => rfl
  | cons hrebagged _ ih => rw [List.map_cons, List.map_cons, hrebagged.id, ih]

theorem Sound.typed (h : g.Sound p used tree base) (c : EntityClass) : g.Typed tree c := by
  rintro type seens ⟨entities, hload, hviews⟩
  have hrebagged := h.rebagged_of_views (fun e he => ⟨entities, hload, he⟩) hviews
  have htypes : ∀ e ∈ entities, e.type = type := by
    intro e he
    obtain ⟨unique, -, hkept⟩ := (h.good c).all type entities hload e he
    exact hkept.type
  -- seeing an entity keeps its type, one by one
  clear hload hviews
  induction hrebagged with
  | nil => exact fun e he => absurd he List.not_mem_nil
  | @cons e seen rest seens hseen _ ih =>
    intro x hx
    rcases List.mem_cons.1 hx with rfl | hx
    · rw [hseen.type]
      exact htypes e (List.mem_cons_self ..)
    · exact ih (fun y hy => htypes y (List.mem_cons_of_mem _ hy)) x hx

/-- The identities of the entities that are seen in a document are those in the document. -/
theorem Sound.ids_of_showsType (h : g.Sound p used tree base) {seens : List (Entity c)}
    (hshows : g.ShowsType tree type seens) :
    ∃ entities, (tree.shelf g.root c).load type = .ok entities
      ∧ seens.map Entity.id = entities.map Entity.id := by
  obtain ⟨entities, hload, hviews⟩ := hshows
  exact ⟨entities, hload,
    ids_of_rebagged (h.rebagged_of_views (fun e he => ⟨entities, hload, he⟩) hviews)⟩

/-- An identity that is seen belongs to one of the documents. -/
theorem Sound.mem_of_shows (h : g.Sound p used tree base) {known : List String}
    {all : List (Entity c)} (hshows : g.Shows tree known all) {id : Id}
    (hid : id ∈ all.map Entity.id) : ∃ type ∈ known, ∃ entities,
      (tree.shelf g.root c).load type = .ok entities ∧ id ∈ entities.map Entity.id := by
  induction hshows with
  | nil => cases hid
  | @cons type seens more rest hfirst _ ih =>
    rw [List.map_append] at hid
    rcases List.mem_append.1 hid with hhere | hmore
    · obtain ⟨entities, hload, hids⟩ := h.ids_of_showsType hfirst
      exact ⟨type, List.mem_cons_self .., entities, hload, hids ▸ hhere⟩
    · obtain ⟨other, hother, found⟩ := ih hmore
      exact ⟨other, List.mem_cons_of_mem _ hother, found⟩

/-- No identity is seen twice. -/
theorem Sound.nodup_of_shows (h : g.Sound p used tree base) {known : List String}
    {all : List (Entity c)} (hshows : g.Shows tree known all) (hknown : known.Nodup) :
    (all.map Entity.id).Nodup := by
  induction hshows with
  | nil => exact List.nodup_nil
  | @cons type seens more rest hfirst hrest ih =>
    obtain ⟨hfresh, hrestNodup⟩ := List.nodup_cons.1 hknown
    obtain ⟨entities, hload, hids⟩ := h.ids_of_showsType hfirst
    rw [List.map_append, hids, List.nodup_append]
    refine ⟨((h.good c).named type entities hload).distinct, ih hrestNodup, ?_⟩
    intro id hhere id' hmore
    obtain ⟨other, hother, entities', hload', hthere⟩ := h.mem_of_shows hrest hmore
    obtain ⟨e, he, rfl⟩ := List.mem_map.1 hhere
    obtain ⟨e', he', rfl⟩ := List.mem_map.1 hthere
    -- the list names no type twice, so the two documents are different ones
    have hne : type ≠ other := by
      rintro rfl
      exact hfresh hother
    exact (h.good c).apart type other entities entities' hload hload' hne e he e' he'

/-! ## Searches -/

theorem filter_sublist {evaluator : Evaluator c} {s : Searcher} {es kept : List (Entity c)}
    (h : s.filter evaluator es = .ok kept) : List.Sublist kept es := by
  cases hm : s.compile evaluator with
  | error f => rw [Searcher.filter, hm] at h; cases h
  | ok m =>
    rw [Searcher.filter, hm] at h
    exact CompiledSearcher.filter_sublist h

/-- What a search with a given plan does. -/
theorem exec_search_of_plan {s : Searcher} {plan : Plan} (hpaths : s.checkPaths = .ok ())
    (hplan : s.plan = .ok plan) (hnonempty : plan.isEmpty = false) (tree : FileTree) :
    (g.search c s).exec tree
      = (Catalog.types g.root c >>= fun known => g.scan c (documents known plan)).exec tree := by
  rw [search, hpaths, hplan, FileTask.exec_bind, FileTask.exec_ofOutcome]
  simp only
  rw [FileTask.exec_bind, FileTask.exec_ofOutcome]
  simp only [hnonempty, Bool.false_eq_true, if_false]

/-- A full scan that comes to an end has seen the documents of all known types. -/
theorem shows_of_search {all : List (Entity c)}
    (h : ((g.search c .always).exec tree).1 = .ok all) :
    ∃ known, (tree.shelf g.root c).types = .ok known ∧ g.Shows tree known all := by
  have hsearch : (g.search c .always).exec tree = (.ok all, tree) :=
    Prod.ext h (exec_search_unchanged g c .always tree)
  have hplan : Searcher.always.plan = .ok (.everyType .always) := rfl
  rw [exec_search_of_plan rfl hplan rfl] at hsearch
  obtain ⟨known, tree₁, htypes, hscan⟩ := FileTask.exec_bind_eq_ok hsearch
  rw [Catalog.exec_types] at htypes
  obtain ⟨hknown, rfl⟩ := Prod.mk.inj htypes
  exact ⟨known, hknown, shows_of_exec_scan hscan⟩

/-- A search filters the entities of the types that its plan leaves open, and fails as this
    fails. -/
theorem Shows.exec_search {s : Searcher} {plan : Plan} {known : List String}
    {all : List (Entity c)} (h : g.Shows tree known all)
    (htypes : (tree.shelf g.root c).types = .ok known) (htyped : g.Typed tree c)
    (hknown : known.Nodup) (hpaths : s.checkPaths = .ok ()) (hplan : s.plan = .ok plan) :
    (g.search c s).exec tree
      = (s.filter (g.evaluators.forClass c) (all.filter fun e => plan.opens e.type), tree) := by
  have hfaithful := Searcher.plan_faithful hpaths (g.evaluators.forClass c) hplan
  have hlist : (Catalog.types g.root c).exec tree = (.ok known, tree) := by
    rw [Catalog.exec_types, htypes]
  have hnothing : s.filter (g.evaluators.forClass c) [] = .ok [] :=
    Searcher.filter_eq_ok_iff.2 ⟨hpaths, fun _ he => absurd he List.not_mem_nil, rfl⟩
  cases plan with
  | everyType whole =>
    obtain rfl : whole = s := hfaithful
    have hopen : (all.filter fun e => (Plan.everyType whole).opens e.type) = all :=
      List.filter_eq_self.2 fun _ _ => rfl
    rw [exec_search_of_plan hpaths hplan rfl, FileTask.exec_bind_of_ok hlist, hopen]
    exact h.exec_scan hpaths
  | byType residuals =>
    match residuals, Searcher.length_residuals s hplan with
    | [], _ =>
      -- no type remains
      have hopen : (all.filter fun e => (Plan.byType []).opens e.type) = [] :=
        List.filter_eq_nil_iff.2 fun _ _ => Bool.false_ne_true
      rw [hopen, hnothing, search, hpaths, hplan]
      rfl
    | [(type, residual)], _ =>
      -- one type remains; it may have no document
      have hopen : ∀ e : Entity c,
          (Plan.byType [(type, residual)]).opens e.type = (e.type == type) := by
        intro e
        by_cases htype : type = e.type
        · simp [Plan.opens, Entries.contains, Entries.get?, htype]
        · simp [Plan.opens, Entries.contains, Entries.get?, htype, Ne.symm htype]
      simp only [hopen]
      rw [exec_search_of_plan hpaths hplan rfl, FileTask.exec_bind_of_ok hlist]
      by_cases hmem : type ∈ known
      · have hdocuments : documents known (.byType [(type, residual)]) = [(type, residual)] := by
          simp [documents, hmem]
        have hresidual := Searcher.checkPaths_of_mem_residuals hpaths hplan (List.mem_singleton.2 rfl)
        have hsame := (hfaithful.2 type (all.filter fun e => e.type == type)
          fun e he => beq_iff_eq.1 (List.mem_filter.1 he).2).1 residual (by simp [Entries.get?])
        rw [hdocuments, exec_scan_one hresidual (h.showsType_filter htyped hknown hmem), hsame]
      · have hdocuments : documents known (.byType [(type, residual)]) = [] := by
          simp [documents, hmem]
        rw [hdocuments, h.filter_of_unknown htyped hmem, hnothing]
        rfl

/-- A search finds what the searcher keeps of all entities. -/
theorem search_of_shows {s : Searcher} {known : List String} {all found : List (Entity c)}
    (htypes : (tree.shelf g.root c).types = .ok known) (hshows : g.Shows tree known all)
    (htyped : g.Typed tree c) (hknown : known.Nodup)
    (hfound : s.filter (g.evaluators.forClass c) all = .ok found) :
    (g.search c s).exec tree = (.ok found, tree) := by
  obtain ⟨hpaths, htests, rfl⟩ := Searcher.filter_eq_ok_iff.1 hfound
  obtain ⟨plan, hplan, -⟩ := Searcher.plan_keepsPaths s
  rw [hshows.exec_search htypes htyped hknown hpaths hplan]
  refine Prod.ext (Searcher.filter_eq_ok_iff.2 ⟨hpaths, fun e he =>
    htests e (List.mem_filter.1 he).1, ?_⟩) rfl
  exact (Plan.filter_keeps_open
    (Searcher.plan_faithful hpaths (g.evaluators.forClass c) hplan) all).symm

/-- After every run below an empty root, with one raw-text rule at most: where a search for
    everything comes to an end and the searcher filters what it has found, a search with the
    searcher finds just that, in the same order, and no entity twice. -/
theorem search_eq_filter (hbare : tree.Bare g.root base) (hlength : g.rules.length ≤ 1)
    {steps : List Step} (hallows : g.Allows Number.InRange steps) {s : Searcher}
    {all found : List (Entity c)}
    (hall : ((g.search c .always).exec (g.after tree steps)).1 = .ok all)
    (hfound : s.filter (g.evaluators.forClass c) all = .ok found) :
    ((g.search c s).exec (g.after tree steps)).1 = .ok found
      ∧ (found.map Entity.id).Nodup := by
  have huniform := uniform_of_length hlength
  have hsound := sound_after hbare Number.stable_inRange huniform hallows
  obtain ⟨known, htypes, hshows⟩ := shows_of_search hall
  have hknown : known.Nodup :=
    (ascending_after hbare Number.stable_inRange huniform hallows c known htypes).imp ne_of_lt
  constructor
  · rw [search_of_shows htypes hshows (hsound.typed c) hknown hfound]
  · exact (hsound.nodup_of_shows hshows hknown).sublist ((filter_sublist hfound).map _)

/-- A searcher for notes with a given text. -/
def noteSearcher : Searcher := .all [.typeEq "Note", .propertyEq "$.content" (.string "t")]

/-- The note of the sample run is found by its type and its text, which stands in a file. -/
theorem search_note :
    FileTree.sample.Bare "/g" ["g"] ∧ (Engine.sample [noteRule]).rules.length ≤ 1
      ∧ (Engine.sample [noteRule]).Allows Number.InRange noteRun
      ∧ ∃ all found : List Node,
        (((Engine.sample [noteRule]).search .node .always).exec
          ((Engine.sample [noteRule]).after .sample noteRun)).1 = .ok all
        ∧ noteSearcher.filter Evaluator.builtin all = .ok found
        ∧ (((Engine.sample [noteRule]).search .node noteSearcher).exec
          ((Engine.sample [noteRule]).after .sample noteRun)).1 = .ok found
        ∧ (found.map Entity.id).Nodup := by
  have hrun : ((((Engine.sample [noteRule]).search .node .always).exec
      ((Engine.sample [noteRule]).after .sample noteRun)).1
        >>= noteSearcher.filter Evaluator.builtin).isOk = true := by decide +kernel
  cases hall : (((Engine.sample [noteRule]).search .node .always).exec
      ((Engine.sample [noteRule]).after .sample noteRun)).1 with
  | error f => rw [hall] at hrun; cases hrun
  | ok all =>
    cases hfound : noteSearcher.filter Evaluator.builtin all with
    | error f =>
      rw [hall, show (Except.ok all >>= noteSearcher.filter Evaluator.builtin) = .error f
        from hfound] at hrun
      cases hrun
    | ok found =>
      exact ⟨FileTree.bare_sample, by decide, allows_noteRun, all, found, rfl, hfound,
        search_eq_filter FileTree.bare_sample (by decide) allows_noteRun hall hfound⟩

end PropertyGraph.Engine
