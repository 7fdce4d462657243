/-
  PropertyGraph.Proofs.Storage.Looking

  Looking at a graph while the shelves go through stages.  A lookup reads the index at one stage
  and a document at that one or a later one.  A search reads the list of types, and then one
  document after the other, each at some stage; so it finds what a search finds where the documents
  contain what they do when they are read.
-/
import PropertyGraph.Proofs.Storage.Contents
import PropertyGraph.Proofs.Storage.Interleaving

namespace PropertyGraph

open FileProgram (Looks Passes Sees)

variable {c : EntityClass} {g : Engine} {p : Number → Prop} {root : String} {base : Place}
  {tree tree' : FileTree} {used : List String} {stages stages' : List Shelves}

/-! ## Lookups along stages -/

namespace Shelf

/-- The entity of an identity in the documents of a shelf, by the type that an index gives. -/
def follow (t : Shelf c) (id : Id) : Option String → Outcome (Option (Entity c))
  | none => .ok none
  | some type => (t.load type).map (Catalog.find id)

/-- The entity of an identity, by the index of one shelf and the documents of another one. -/
def getFrom (s t : Shelf c) (id : Id) : Outcome (Option (Entity c)) := do
  let key ← id.requireText
  t.follow id (← s.index.map (Entries.get? key))

theorem getFrom_self (s : Shelf c) (id : Id) : s.getFrom s id = s.get id := by
  rw [getFrom, get]
  cases id.requireText with
  | error f => rfl
  | ok key =>
    cases s.index with
    | error f => rfl
    | ok index =>
      show s.follow id (Entries.get? key index) = match Entries.get? key index with
        | none => _
        | some type => _
      cases Entries.get? key index with
      | none => rfl
      | some type =>
        show (s.load type).map _ = (s.load type >>= fun entities => pure (Catalog.find id entities))
        cases s.load type <;> rfl

theorem getFrom_of_error {f : Failure} {id : Id} (hkey : id.requireText = .error f)
    (s t : Shelf c) : s.getFrom t id = .error f := by
  rw [getFrom, hkey]
  rfl

theorem getFrom_of_key {key : String} {id : Id} (hkey : id.requireText = .ok key) (s t : Shelf c) :
    s.getFrom t id = s.index.map (Entries.get? key) >>= t.follow id := by
  rw [getFrom, hkey]
  rfl

end Shelf

namespace Catalog

theorem sees_typeOf {key : String} {o : Outcome (Option String)}
    (h : (typeOf root c key).outcome.Sees root stages o stages') :
    ∃ s rest, s :: rest <:+ stages ∧ stages' <:+ s :: rest
      ∧ o = (s c).index.map (Entries.get? key) := by
  obtain ⟨outcome, between, hindex, hlast, ho⟩ := FileTask.sees_bind_pure h
  obtain ⟨s, rest, hsuffix, hlater, hs⟩ := sees_index hindex
  exact ⟨s, rest, hsuffix, hlast.trans hlater, hs ▸ ho⟩

theorem sees_find (hne : stages ≠ []) {id : Id} {type : String} {o : Outcome (Option (Entity c))}
    (h : (load root c type >>= fun entities => pure (find id entities)).outcome.Sees root stages o
      stages') : ∃ t ∈ stages, o = (t c).follow id (some type) := by
  obtain ⟨outcome, between, hload, -, ho⟩ := FileTask.sees_bind_pure h
  obtain ⟨t, rest, hsuffix, -, ht⟩ := sees_load hne hload
  exact ⟨t, hsuffix.mem (List.mem_cons_self ..), by rw [ho, ht]; rfl⟩

/-- A lookup uses the index of one stage and a document of another one. -/
theorem sees_get (hne : stages ≠ []) {id : Id} {o : Outcome (Option (Entity c))}
    (h : (get root c id).outcome.Sees root stages o stages') :
    ∃ s ∈ stages, ∃ t ∈ stages, o = (s c).getFrom (t c) id := by
  rw [get] at h
  cases hkey : id.requireText with
  | error f =>
    obtain ⟨s, rest, rfl⟩ := List.exists_cons_of_ne_nil hne
    rw [hkey] at h
    refine ⟨s, List.mem_cons_self .., s, List.mem_cons_self .., ?_⟩
    rw [Shelf.getFrom_of_error hkey]
    exact h.eq_of_done
  | ok key =>
    rw [hkey] at h
    have htyped : (typeOf root c key >>= fun found => match found with
        | none => pure none
        | some type => load root c type >>= fun entities =>
          pure (find id entities)).outcome.Sees root stages o stages' := h
    rcases FileTask.sees_bind htyped
      with ⟨f, between, rfl, htype, -⟩ | ⟨found, between, htype, hnext⟩
    · obtain ⟨s, rest, hsuffix, -, hs⟩ := sees_typeOf htype
      have hmem := hsuffix.mem (List.mem_cons_self ..)
      exact ⟨s, hmem, s, hmem, by rw [Shelf.getFrom_of_key hkey, ← hs]; rfl⟩
    · obtain ⟨s, rest, hsuffix, -, hs⟩ := sees_typeOf htype
      have hmem := hsuffix.mem (List.mem_cons_self ..)
      cases found with
      | none =>
        refine ⟨s, hmem, s, hmem, ?_⟩
        rw [Shelf.getFrom_of_key hkey, ← hs]
        exact hnext.eq_of_done
      | some type =>
        -- the document is read at a later stage than the index, or at the same one
        obtain ⟨t, ht, ho⟩ := sees_find (htype.ne_nil hne) hnext
        refine ⟨s, hmem, t, htype.suffix.mem ht, ?_⟩
        rw [Shelf.getFrom_of_key hkey, ← hs, ho]
        rfl

end Catalog

namespace Engine

theorem looks_get (hrules : g.rules = []) (c : EntityClass) (id : Id) :
    (g.get c id).outcome.Looks := by
  refine FileTask.looks_bind (Catalog.looks_get g.root c id) fun found => ?_
  cases found with
  | none => exact trivial
  | some e =>
    refine FileTask.looks_bind ?_ fun _ => trivial
    rw [view_eq_pure hrules]
    exact trivial

theorem sees_get (hrules : g.rules = []) (hne : stages ≠ []) {id : Id}
    {o : Outcome (Option (Entity c))}
    (h : (g.get c id).outcome.Sees g.root stages o stages') :
    ∃ s ∈ stages, ∃ t ∈ stages, o = (s c).getFrom (t c) id := by
  rcases FileTask.sees_bind h with ⟨f, between, rfl, hget, -⟩ | ⟨found, between, hget, hnext⟩
  · exact Catalog.sees_get hne hget
  · obtain ⟨s, hs, t, ht, hfound⟩ := Catalog.sees_get hne hget
    refine ⟨s, hs, t, ht, ?_⟩
    rw [← hfound]
    cases found with
    | none => exact hnext.eq_of_done
    | some e =>
      have hseen : (g.view e >>= fun seen => pure (some seen)).outcome.Sees g.root between o
          stages' := hnext
      rw [view_eq_pure hrules] at hseen
      exact hseen.eq_of_done

/-! ## Searches along stages -/

/-- What a searcher keeps of a document. -/
def keptOf (g : Engine) (load : String → Outcome (List (Entity c))) (document : String × Searcher) :
    Outcome (List (Entity c)) := do
  let m ← document.2.compile (g.evaluators.forClass c)
  m.filter (← load document.1)

/-- What a scan finds where documents contain what `load` gives. -/
def scanOf (g : Engine) (load : String → Outcome (List (Entity c))) :
    List (String × Searcher) → Outcome (List (Entity c))
  | [] => .ok []
  | document :: rest => do
    let found ← g.keptOf load document
    let more ← scanOf g load rest
    return found ++ more

/-- What a search finds where the list of types is `types` and documents contain what `load`
    gives. -/
def searchOf (g : Engine) (types : Outcome (List String))
    (load : String → Outcome (List (Entity c))) (s : Searcher) : Outcome (List (Entity c)) := do
  s.checkPaths
  let plan ← s.plan
  if plan.isEmpty then return []
  else g.scanOf load (documents (← types) plan)

theorem keep_eq_filter (hrules : g.rules = []) (m : CompiledSearcher c)
    (entities : List (Entity c)) : g.keep m entities = FileTask.ofOutcome (m.filter entities) := by
  induction entities with
  | nil => rfl
  | cons e rest ih =>
    rw [keep, view_eq_pure hrules, ih, CompiledSearcher.filter]
    show (FileTask.ofOutcome (m.test e) >>= _) = _
    cases m.test e with
    | error f => rfl
    | ok hit => cases m.filter rest <;> rfl

theorem looks_scan (hrules : g.rules = []) (c : EntityClass)
    (documents : List (String × Searcher)) : (g.scan c documents).outcome.Looks := by
  induction documents with
  | nil => exact trivial
  | cons document rest ih =>
    refine FileTask.looks_bind trivial fun m => ?_
    refine FileTask.looks_bind (Catalog.looks_load g.root c document.1) fun entities => ?_
    refine FileTask.looks_bind ?_ fun found => FileTask.looks_bind ih fun _ => trivial
    rw [keep_eq_filter hrules]
    exact trivial

theorem looks_search (hrules : g.rules = []) (c : EntityClass) (s : Searcher) :
    (g.search c s).outcome.Looks := by
  refine FileTask.looks_bind trivial fun _ => FileTask.looks_bind trivial fun plan => ?_
  cases plan.isEmpty with
  | true => exact trivial
  | false =>
    exact FileTask.looks_bind (Catalog.looks_types g.root c) fun known =>
      looks_scan hrules c (documents known plan)

/-- A scan is one of the documents as they are. -/
theorem exec_scan_of_rules (hrules : g.rules = []) (documents : List (String × Searcher))
    (tree : FileTree) :
    (g.scan c documents).exec tree = (g.scanOf (tree.shelf g.root c).load documents, tree) := by
  induction documents with
  | nil => rfl
  | cons document rest ih =>
    rw [scan, scanOf, keptOf, bind_assoc]
    refine FileTask.exec_bind_of_unchanged (FileTask.exec_ofOutcome _ _) fun m _ => ?_
    rw [bind_assoc]
    refine FileTask.exec_bind_of_unchanged (Catalog.exec_load ..) fun entities _ => ?_
    refine FileTask.exec_bind_of_unchanged (exec_keep_of_rules hrules m entities tree) fun _ _ => ?_
    exact FileTask.exec_bind_of_unchanged ih fun _ _ => rfl

theorem exec_search_of_rules (hrules : g.rules = []) (s : Searcher) (tree : FileTree) :
    (g.search c s).exec tree
      = (g.searchOf (tree.shelf g.root c).types (tree.shelf g.root c).load s, tree) := by
  rw [search, searchOf]
  refine FileTask.exec_bind_of_unchanged (FileTask.exec_ofOutcome _ _) fun _ _ => ?_
  refine FileTask.exec_bind_of_unchanged (FileTask.exec_ofOutcome _ _) fun plan _ => ?_
  cases plan.isEmpty with
  | true => rfl
  | false =>
    exact FileTask.exec_bind_of_unchanged (Catalog.exec_types ..) fun types _ =>
      exec_scan_of_rules hrules _ tree

theorem scanOf_congr {load load' : String → Outcome (List (Entity c))}
    {documents : List (String × Searcher)}
    (h : ∀ document ∈ documents, load document.1 = load' document.1) :
    g.scanOf load documents = g.scanOf load' documents := by
  induction documents with
  | nil => rfl
  | cons document rest ih =>
    rw [scanOf, scanOf, keptOf, keptOf, h document (List.mem_cons_self ..),
      ih fun d hd => h d (List.mem_cons_of_mem _ hd)]

/-- What is kept of a document is kept of it at one stage. -/
theorem sees_kept (hrules : g.rules = []) (hne : stages ≠ []) {m : CompiledSearcher c}
    {type : String}
    {next : List (Entity c) → FileTask (List (Entity c))} {o : Outcome (List (Entity c))}
    (h : (Catalog.load g.root c type >>= fun entities => g.keep m entities >>= next).outcome.Sees
      g.root stages o stages') :
    ∃ s ∈ stages, (∃ f, (s c).load type >>= m.filter = .error f ∧ o = .error f)
      ∨ ∃ found between, (s c).load type >>= m.filter = .ok found ∧ between <:+ stages
        ∧ between ≠ [] ∧ (next found).outcome.Sees g.root between o stages' := by
  rcases FileTask.sees_bind h with ⟨f, between, rfl, hload, -⟩ | ⟨entities, between, hload, hnext⟩
  · obtain ⟨s, later, hsuffix, -, hs⟩ := Catalog.sees_load hne hload
    exact ⟨s, hsuffix.mem (List.mem_cons_self ..), .inl ⟨f, by rw [← hs]; rfl, rfl⟩⟩
  · obtain ⟨s, later, hsuffix, -, hs⟩ := Catalog.sees_load hne hload
    refine ⟨s, hsuffix.mem (List.mem_cons_self ..), ?_⟩
    rw [← hs]
    rw [keep_eq_filter hrules] at hnext
    show (∃ f, m.filter entities = .error f ∧ _)
      ∨ ∃ found between, m.filter entities = .ok found ∧ _
    cases hfilter : m.filter entities with
    | error f =>
      rw [hfilter] at hnext
      exact .inl ⟨f, rfl, hnext.eq_of_done⟩
    | ok found =>
      rw [hfilter] at hnext
      exact .inr ⟨found, between, rfl, hload.suffix, hload.ne_nil hne, hnext⟩

/-- What is kept of a document stands in it. -/
theorem sublist_of_keptOf {load : String → Outcome (List (Entity c))} {document : String × Searcher}
    {kept : List (Entity c)} (h : g.keptOf load document = .ok kept) :
    ∃ entities, load document.1 = .ok entities ∧ List.Sublist kept entities := by
  rw [keptOf] at h
  cases hm : document.2.compile (g.evaluators.forClass c) with
  | error f => rw [hm] at h; cases h
  | ok m =>
    cases hload : load document.1 with
    | error f => rw [hm, hload] at h; cases h
    | ok entities =>
      rw [hm, hload] at h
      exact ⟨entities, rfl, CompiledSearcher.filter_sublist h⟩

/-- A scan finds what is kept of the documents, one after the other. -/
theorem scanOf_of_kept {load : String → Outcome (List (Entity c))}
    {documents : List (String × Searcher)} {kept : String × Searcher → List (Entity c)}
    (h : ∀ document ∈ documents, g.keptOf load document = .ok (kept document)) :
    g.scanOf load documents = .ok (documents.flatMap kept) := by
  induction documents with
  | nil => rfl
  | cons document rest ih =>
    rw [scanOf, h document (List.mem_cons_self ..), ih fun d hd => h d (List.mem_cons_of_mem _ hd)]
    rfl

/-- A scan that comes to an end finds what is kept of the documents. -/
theorem kept_of_scanOf {load : String → Outcome (List (Entity c))}
    {documents : List (String × Searcher)} {found : List (Entity c)}
    (h : g.scanOf load documents = .ok found) :
    ∃ kept : String × Searcher → List (Entity c),
      (∀ document ∈ documents, g.keptOf load document = .ok (kept document))
        ∧ found = documents.flatMap kept := by
  have hall : ∀ document ∈ documents, ∃ kept, g.keptOf load document = .ok kept := by
    induction documents generalizing found with
    | nil => exact fun _ hd => absurd hd List.not_mem_nil
    | cons first rest ih =>
      rw [scanOf] at h
      cases hfirst : g.keptOf load first with
      | error f => rw [hfirst] at h; cases h
      | ok kept =>
        cases hrest : g.scanOf load rest with
        | error f => rw [hfirst, hrest] at h; cases h
        | ok more => exact List.forall_mem_cons.2 ⟨⟨kept, hfirst⟩, ih hrest⟩
  choose! kept hkept using hall
  exact ⟨kept, hkept, Except.ok.inj (h.symm.trans (scanOf_of_kept hkept))⟩

/-- A scan reads each document at one stage. -/
theorem sees_scan (hrules : g.rules = []) (hne : stages ≠ []) {documents : List (String × Searcher)}
    (hnodup : (documents.map Prod.fst).Nodup) {o : Outcome (List (Entity c))}
    (h : (g.scan c documents).outcome.Sees g.root stages o stages') :
    ∃ load, (∀ type, ∃ s ∈ stages, load type = (s c).load type)
      ∧ o = g.scanOf load documents := by
  induction documents generalizing stages o stages' with
  | nil =>
    obtain ⟨s, rest, rfl⟩ := List.exists_cons_of_ne_nil hne
    exact ⟨(s c).load, fun type => ⟨s, List.mem_cons_self .., rfl⟩, h.eq_of_done⟩
  | cons document rest ih =>
    obtain ⟨type, residual⟩ := document
    obtain ⟨hfresh, hrest⟩ := List.nodup_cons.1 hnodup
    rw [scan] at h
    cases hm : residual.compile (g.evaluators.forClass c) with
    | error f =>
      rw [hm] at h
      obtain ⟨s, later, rfl⟩ := List.exists_cons_of_ne_nil hne
      refine ⟨(s c).load, fun type => ⟨s, List.mem_cons_self .., rfl⟩, ?_⟩
      rw [scanOf, keptOf, hm]
      exact h.eq_of_done
    | ok m =>
      rw [hm] at h
      have hkeptOf : ∀ load, g.keptOf load (type, residual) = load type >>= m.filter := by
        intro load
        rw [keptOf, hm]
        rfl
      obtain ⟨s, hs, ⟨f, hfilter, rfl⟩ | ⟨found, between, hfilter, hsuffix, hbetween, hnext⟩⟩ :=
        sees_kept hrules hne h
      · refine ⟨(s c).load, fun type => ⟨s, hs, rfl⟩, ?_⟩
        rw [scanOf, hkeptOf, hfilter]
        rfl
      · obtain ⟨outcome, last, hscan, -, ho⟩ := FileTask.sees_bind_pure hnext
        obtain ⟨load, hstages, houtcome⟩ := ih hbetween hrest hscan
        -- the other documents contain what they do when they are read
        have hothers : g.scanOf (Function.update load type ((s c).load type)) rest
            = g.scanOf load rest := scanOf_congr fun document hdocument =>
          Function.update_of_ne (fun he => hfresh (List.mem_map.2 ⟨document, hdocument, he⟩)) ..
        refine ⟨Function.update load type ((s c).load type), fun other => ?_, ?_⟩
        · by_cases hother : other = type
          · subst hother
            exact ⟨s, hs, Function.update_self ..⟩
          · obtain ⟨t, ht, hloaded⟩ := hstages other
            exact ⟨t, hsuffix.mem ht, by rw [Function.update_of_ne hother, hloaded]⟩
        · rw [scanOf, hkeptOf, hothers, Function.update_self, hfilter, ho, houtcome]
          rfl

/-- The documents that a plan asks for are distinct. -/
theorem nodup_documents {s : Searcher} {plan : Plan} (hplan : s.plan = .ok plan)
    {known : List String} (hknown : known.Nodup) : ((documents known plan).map Prod.fst).Nodup := by
  cases plan with
  | everyType whole =>
    rw [documents, List.map_map]
    exact (List.map_id known).symm ▸ hknown
  | byType residuals =>
    have hlength := Searcher.length_residuals s hplan
    cases residuals with
    | nil => exact List.nodup_nil
    | cons first rest =>
      obtain rfl : rest = [] := List.length_eq_zero_iff.1 (by simpa using hlength)
      exact (List.nodup_singleton first.1).sublist (List.filter_sublist.map Prod.fst)

/-- A search reads the list of types, and then each document, at some stage. -/
theorem sees_search (hrules : g.rules = []) (hne : stages ≠ [])
    (hnodup : ∀ s ∈ stages, ∀ types, (s c).types = .ok types → types.Nodup) {q : Searcher}
    {o : Outcome (List (Entity c))}
    (h : (g.search c q).outcome.Sees g.root stages o stages') :
    ∃ s rest load, s :: rest <:+ stages ∧ (∀ type, ∃ t ∈ s :: rest, load type = (t c).load type)
      ∧ o = g.searchOf (s c).types load q := by
  -- where the search ends before it reads, any stage will do
  have hnone : ∀ o, (∀ types load, g.searchOf (c := c) types load q = o) →
      ∃ s rest load, s :: rest <:+ stages ∧ (∀ type, ∃ t ∈ s :: rest, load type = (t c).load type)
        ∧ o = g.searchOf (s c).types load q := by
    intro o ho
    obtain ⟨s, rest, rfl⟩ := List.exists_cons_of_ne_nil hne
    exact ⟨s, rest, (s c).load, List.suffix_refl _, fun type => ⟨s, List.mem_cons_self .., rfl⟩,
      (ho _ _).symm⟩
  rw [search] at h
  cases hpaths : q.checkPaths with
  | error f =>
    rw [hpaths] at h
    refine hnone o fun types load => ?_
    rw [searchOf, hpaths]
    exact h.eq_of_done.symm
  | ok u =>
    cases hplan : q.plan with
    | error f =>
      rw [hpaths, hplan] at h
      refine hnone o fun types load => ?_
      rw [searchOf, hpaths, hplan]
      exact h.eq_of_done.symm
    | ok plan =>
      rw [hpaths, hplan] at h
      have hopen : (if plan.isEmpty = true then pure [] else Catalog.types g.root c >>= fun known =>
          g.scan c (documents known plan)).outcome.Sees g.root stages o stages' := h
      by_cases hempty : plan.isEmpty = true
      · rw [if_pos hempty] at hopen
        refine hnone o fun types load => ?_
        rw [searchOf, hpaths, hplan]
        show (if plan.isEmpty = true then _ else _) = o
        rw [if_pos hempty]
        exact hopen.eq_of_done.symm
      · rw [if_neg hempty] at hopen
        have hsearchOf : ∀ types load, g.searchOf (c := c) types load q
            = types >>= fun known => g.scanOf load (documents known plan) := by
          intro types load
          rw [searchOf, hpaths, hplan]
          exact if_neg hempty
        rcases FileTask.sees_bind hopen
          with ⟨f, between, rfl, htypes, -⟩ | ⟨known, between, htypes, hscan⟩
        · obtain ⟨s, rest, hsuffix, -, hs⟩ := Catalog.sees_types htypes
          refine ⟨s, rest, (s c).load, hsuffix, fun type => ⟨s, List.mem_cons_self .., rfl⟩, ?_⟩
          rw [hsearchOf, ← hs]
          rfl
        · obtain ⟨s, rest, hsuffix, hlater, hs⟩ := Catalog.sees_types htypes
          obtain ⟨load, hload, ho⟩ := sees_scan hrules (htypes.ne_nil hne) (nodup_documents hplan
            (hnodup s (hsuffix.mem (List.mem_cons_self ..)) known hs.symm)) hscan
          refine ⟨s, rest, load, hsuffix, fun type => ?_, ?_⟩
          · obtain ⟨t, ht, hloaded⟩ := hload type
            exact ⟨t, hlater.mem ht, hloaded⟩
          · rw [hsearchOf, ← hs, ho]
            rfl

end Engine

end PropertyGraph
