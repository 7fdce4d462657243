/-
  PropertyGraph.Proofs.Storage.Overlap

  Looking at a graph beside an edit, request by request.  Only calls that change a graph wait for
  each other; a look reads its documents while an edit writes them.  Unless the edit changes a type
  that cannot be told from looking before or after it.  An entity that moves to another type is in
  neither document for a while, and can be read in both, by a search that comes to the old document
  before it is changed and to the new one after that.
-/
import PropertyGraph.Proofs.Storage.Moving
import PropertyGraph.Proofs.Storage.Refinement

namespace PropertyGraph

variable {c : EntityClass} {g : Engine} {p : Number → Prop} {base : Place} {tree : FileTree}
  {used used' : List String}

/-! ## Looks beside an edit -/

/-- A list of found entities between two others, `id` being the identity that may be missed or
    listed twice: all are known, none is missed that both list under one type, and only entities of
    that identity are listed twice, under different types. -/
structure Entity.Between (id : Id) (all all' found : List (Entity c)) : Prop where
  known : ∀ e ∈ found, e ∈ all ∨ e ∈ all'
  complete : ∀ e ∈ all, ∀ e' ∈ all', e.id = e'.id → e.type = e'.type → e ∈ found ∨ e' ∈ found
  once : found.Pairwise fun x y => x.id = y.id → x.id = id ∧ x.type ≠ y.type

namespace Engine

open FileTree (Writable)
open Naming (indexStem)

section Between

variable {s s' : Shelf c} {id : Id} {load : String → Outcome (List (Entity c))}

theorem type_of_kept (hgood : s.Good fun type e => e.type = type) {document : String × Searcher}
    {kept : List (Entity c)} (h : g.keptOf s.load document = .ok kept) {e : Entity c}
    (he : e ∈ kept) : e.type = document.1 := by
  obtain ⟨entities, hload, hsub⟩ := sublist_of_keptOf h
  exact hgood.all _ _ hload e (hsub.subset he)

/-- Nothing is kept of a document twice. -/
theorem pairwise_of_kept (hgood : s.Good fun type e => e.type = type)
    {document : String × Searcher} {kept : List (Entity c)}
    (h : g.keptOf s.load document = .ok kept) : kept.Pairwise fun x y => x.id ≠ y.id := by
  obtain ⟨entities, hload, hsub⟩ := sublist_of_keptOf h
  exact (List.pairwise_map.1 (hgood.named _ _ hload).distinct).sublist hsub

/-- What is found where some documents are read as they were before an entity has moved, and the
    others as they are afterwards. -/
theorem between_of_scans (hgood : s.Good fun type e => e.type = type)
    (hgood' : s'.Good fun type e => e.type = type)
    (hothers : ∀ type entities, s'.load type = .ok entities → ∀ e ∈ entities, e.id ≠ id →
      ∃ before, s.load type = .ok before ∧ ∃ x ∈ before, x.id = e.id)
    (hload : ∀ type, load type = s.load type ∨ load type = s'.load type)
    {documents documents' : List (String × Searcher)} (hsub : documents ⊆ documents')
    (hnodup : (documents.map Prod.fst).Nodup) (hnodup' : (documents'.map Prod.fst).Nodup)
    {all all' : List (Entity c)} (hall : g.scanOf s.load documents = .ok all)
    (hall' : g.scanOf s'.load documents' = .ok all') :
    ∃ found, g.scanOf load documents = .ok found ∧ Entity.Between id all all' found := by
  obtain ⟨kept, hkept, rfl⟩ := kept_of_scanOf hall
  obtain ⟨kept', hkept', rfl⟩ := kept_of_scanOf hall'
  -- each document is seen as it was or as it is in the end
  have hseen : ∀ document ∈ documents, ∃ seen, g.keptOf load document = .ok seen
      ∧ (seen = kept document ∧ g.keptOf s.load document = .ok seen
        ∨ seen = kept' document ∧ g.keptOf s'.load document = .ok seen) := by
    intro document hdocument
    rcases hload document.1 with hold | hnew
    · have hsame : g.keptOf load document = g.keptOf s.load document := by
        rw [keptOf, keptOf, hold]
      exact ⟨_, hsame.trans (hkept document hdocument), .inl ⟨rfl, hkept document hdocument⟩⟩
    · have hsame : g.keptOf load document = g.keptOf s'.load document := by
        rw [keptOf, keptOf, hnew]
      have hkept' := hkept' document (hsub hdocument)
      exact ⟨_, hsame.trans hkept', .inr ⟨rfl, hkept'⟩⟩
  choose! seen hseen hcase using hseen
  refine ⟨_, scanOf_of_kept hseen, ?_, ?_, ?_⟩
  · intro e he
    obtain ⟨document, hdocument, he⟩ := List.mem_flatMap.1 he
    rcases hcase document hdocument with ⟨hold, -⟩ | ⟨hnew, -⟩
    · exact .inl (List.mem_flatMap.2 ⟨document, hdocument, hold ▸ he⟩)
    · exact .inr (List.mem_flatMap.2 ⟨document, hsub hdocument, hnew ▸ he⟩)
  · intro e he e' he' hid htype
    obtain ⟨document, hdocument, he⟩ := List.mem_flatMap.1 he
    obtain ⟨document', hdocument', he'⟩ := List.mem_flatMap.1 he'
    -- both stand in the document of their type
    have hnames : document.1 = document'.1 :=
      (type_of_kept hgood (hkept document hdocument) he).symm.trans
        (htype.trans (type_of_kept hgood' (hkept' document' hdocument') he'))
    obtain rfl := List.inj_on_of_nodup_map hnodup' (hsub hdocument) hdocument' hnames
    rcases hcase document hdocument with ⟨hold, -⟩ | ⟨hnew, -⟩
    · exact .inl (List.mem_flatMap.2 ⟨document, hdocument, hold ▸ he⟩)
    · exact .inr (List.mem_flatMap.2 ⟨document, hdocument, hnew ▸ he'⟩)
  · have htypes : ∀ document ∈ documents, ∀ e ∈ seen document, e.type = document.1 := by
      intro document hdocument e he
      rcases hcase document hdocument with ⟨-, hold⟩ | ⟨-, hnew⟩
      · exact type_of_kept hgood hold he
      · exact type_of_kept hgood' hnew he
    have hbefore : ∀ document ∈ documents, ∀ e ∈ seen document, e.id ≠ id →
        ∃ before, s.load document.1 = .ok before ∧ ∃ x ∈ before, x.id = e.id := by
      intro document hdocument e he hne
      rcases hcase document hdocument with ⟨-, hold⟩ | ⟨-, hnew⟩
      · obtain ⟨entities, hload, hsub⟩ := sublist_of_keptOf hold
        exact ⟨entities, hload, e, hsub.subset he, rfl⟩
      · obtain ⟨entities, hload, hsub⟩ := sublist_of_keptOf hnew
        exact hothers _ _ hload e (hsub.subset he) hne
    refine List.pairwise_flatMap.2 ⟨fun document hdocument => ?_, ?_⟩
    · rcases hcase document hdocument with ⟨-, hold⟩ | ⟨-, hnew⟩
      · exact (pairwise_of_kept hgood hold).imp fun hne hsame => absurd hsame hne
      · exact (pairwise_of_kept hgood' hnew).imp fun hne hsame => absurd hsame hne
    · refine (List.pairwise_map.1 hnodup).imp_of_mem fun {first second} hfirst hsecond hne => ?_
      intro e he e' he' hsame
      refine ⟨?_, by rw [htypes first hfirst e he, htypes second hsecond e' he']; exact hne⟩
      by_contra hid
      obtain ⟨entities, hload, x, hx, hxid⟩ := hbefore first hfirst e he hid
      obtain ⟨entities', hload', x', hx', hxid'⟩ := hbefore second hsecond e' he' (hsame ▸ hid)
      exact hgood.apart _ _ _ _ hload hload' hne x hx x' hx' (hxid.trans (hsame.trans hxid'.symm))

theorem documents_subset {known known' : List String} (h : known ⊆ known') (plan : Plan) :
    documents known plan ⊆ documents known' plan := by
  cases plan with
  | everyType s => exact List.map_subset _ h
  | byType residuals =>
    intro document hdocument
    obtain ⟨hmem, hknown⟩ := List.mem_filter.1 hdocument
    exact List.mem_filter.2 ⟨hmem, by simpa using h (by simpa using hknown)⟩

/-- What a search that comes to an end has gone through. -/
theorem searchOf_eq_ok {types : Outcome (List String)} {load : String → Outcome (List (Entity c))}
    {s : Searcher} {found : List (Entity c)} (h : g.searchOf types load s = .ok found) :
    ∃ plan, s.checkPaths = .ok () ∧ s.plan = .ok plan
      ∧ (plan.isEmpty = true ∧ found = []
        ∨ plan.isEmpty = false ∧ ∃ known, types = .ok known
          ∧ g.scanOf load (documents known plan) = .ok found) := by
  rw [searchOf] at h
  cases hpaths : s.checkPaths with
  | error f => rw [hpaths] at h; cases h
  | ok u =>
    cases hplan : s.plan with
    | error f => rw [hpaths, hplan] at h; cases h
    | ok plan =>
      rw [hpaths, hplan] at h
      refine ⟨plan, rfl, rfl, ?_⟩
      have hopen : (if plan.isEmpty = true then pure []
          else types >>= fun known => g.scanOf load (documents known plan)) = .ok found := h
      cases hempty : plan.isEmpty with
      | true =>
        rw [if_pos hempty] at hopen
        exact .inl ⟨rfl, (Except.ok.inj hopen).symm⟩
      | false =>
        rw [if_neg (by rw [hempty]; exact Bool.false_ne_true)] at hopen
        cases types with
        | error f => cases hopen
        | ok known => exact .inr ⟨rfl, known, rfl, hopen⟩

theorem searchOf_of_scan {load : String → Outcome (List (Entity c))} {s : Searcher} {plan : Plan}
    (hpaths : s.checkPaths = .ok ()) (hplan : s.plan = .ok plan) (hempty : plan.isEmpty = false)
    (known : List String) :
    g.searchOf (.ok known) load s = g.scanOf load (documents known plan) := by
  rw [searchOf, hpaths, hplan]
  show (if plan.isEmpty = true then _ else _) = _
  rw [if_neg (by rw [hempty]; exact Bool.false_ne_true)]
  rfl

/-- What a search finds where some documents are read as they were before an entity has moved, and
    the others as they are afterwards. -/
theorem between_of_searches (hgood : s.Good fun type e => e.type = type)
    (hgood' : s'.Good fun type e => e.type = type)
    (hothers : ∀ type entities, s'.load type = .ok entities → ∀ e ∈ entities, e.id ≠ id →
      ∃ before, s.load type = .ok before ∧ ∃ x ∈ before, x.id = e.id)
    (hload : ∀ type, load type = s.load type ∨ load type = s'.load type)
    (hascending : s.Ascending) (hascending' : s'.Ascending)
    (hsub : ∀ known known', s.types = .ok known → s'.types = .ok known' → known ⊆ known')
    {q : Searcher}
    {all all' : List (Entity c)} (hall : g.searchOf s.types s.load q = .ok all)
    (hall' : g.searchOf s'.types s'.load q = .ok all') :
    ∃ found, g.searchOf s.types load q = .ok found ∧ Entity.Between id all all' found := by
  -- A plan that is empty finds nothing before and after; otherwise both searches scan, each along
  -- the documents that its list of types gives.
  obtain ⟨plan, hpaths, hplan, ⟨hempty, rfl⟩ | ⟨hopen, known, htypes, hscan⟩⟩ := searchOf_eq_ok hall
  · refine ⟨[], ?_, ?_, ?_, .nil⟩
    · rw [searchOf, hpaths, hplan]
      exact if_pos hempty
    · exact fun e he => absurd he List.not_mem_nil
    · exact fun e he => absurd he List.not_mem_nil
  · obtain ⟨plan', -, hplan', ⟨hempty, -⟩ | ⟨-, known', htypes', hscan'⟩⟩ := searchOf_eq_ok hall'
    · obtain rfl := Except.ok.inj (hplan.symm.trans hplan')
      rw [hopen] at hempty
      cases hempty
    · obtain rfl := Except.ok.inj (hplan.symm.trans hplan')
      obtain ⟨found, hfound, hbetween⟩ := between_of_scans hgood hgood' hothers hload
        (documents_subset (hsub known known' htypes htypes') plan)
        (nodup_documents hplan (hascending.nodup htypes))
        (nodup_documents hplan (hascending'.nodup htypes')) hscan hscan'
      exact ⟨found, by rw [htypes, searchOf_of_scan hpaths hplan hopen]; exact hfound, hbetween⟩

end Between

/-- An edit gives an entity another type. -/
def Retypes (g : Engine) (tree : FileTree) (id : Id) (patch : Patch c) : Prop :=
  ∃ e type, ((g.get c id).exec tree).1 = .ok (some e) ∧ patch.type = some type ∧ type ≠ e.type

/-- What a search may find while an entity moves: each document is read as it is before or
    afterwards, and the list that is found lies between the two. -/
structure Blends (g : Engine) (c : EntityClass) (s : Searcher) (id : Id) (before after : FileTree)
    (o : Outcome (List (Entity c))) : Prop where
  documents : ∃ load, (∀ type, load type = (before.shelf g.root c).load type
      ∨ load type = (after.shelf g.root c).load type)
    ∧ o = g.searchOf (before.shelf g.root c).types load s
  entities : ∀ all all', ((g.search c s).exec before).1 = .ok all →
    ((g.search c s).exec after).1 = .ok all' →
    ∃ found, o = .ok found ∧ Entity.Between id all all' found

/-- An entity stands in the document of its type. -/
theorem Sound.types_good (h : g.Sound p used tree base) (c : EntityClass) :
    (tree.shelf g.root c).Good fun type e => e.type = type :=
  (h.good c).mono fun _ _ _ _ _ hholds => hholds.elim fun _ hkept => hkept.2.type

/-- The stages of an edit, from the shelf before to the shelf after it. -/
theorem Sound.stages_of_edit (h : g.Sound p used tree base) (hrules : g.rules = []) (stamp : Stamp)
    (id : Id) (patch : Patch c) :
    ∃ shelves, (tree.shelf g.root c).Changes id (patch.apply · stamp.time) shelves
        ((g.advance tree ⟨stamp, .edit c id patch⟩).shelf g.root c)
      ∧ (g.edit stamp id patch).outcome.Passes g.root tree
        (shelves.map (Function.update (tree.shelf g.root) c))
      ∧ ∀ c', c' ≠ c → (g.advance tree ⟨stamp, .edit c id patch⟩).shelf g.root c'
        = tree.shelf g.root c' := by
  obtain ⟨shelves, s', hchanges, hpasses⟩ := h.passes_edit hrules stamp id patch
  obtain ⟨before, hbefore⟩ := hpasses.last
  have hlast : Function.update (tree.shelf g.root) c s'
      = (g.advance tree ⟨stamp, .edit c id patch⟩).shelf g.root := by
    have hmapped := congrArg List.getLast? hbefore
    rw [List.getLast?_map, hchanges.getLast?_eq, List.getLast?_concat] at hmapped
    exact Option.some.inj hmapped
  rw [← hlast]
  refine ⟨shelves, ?_, hpasses, fun c' hne => Function.update_of_ne hne ..⟩
  rw [Function.update_self]
  exact hchanges

theorem retypes_of_moves (h : g.Sound p used tree base) (hrules : g.rules = []) {stamp : Stamp}
    {id : Id} {patch : Patch c}
    (hmoves : (tree.shelf g.root c).Moves id (patch.apply · stamp.time)) :
    g.Retypes tree id patch := by
  obtain ⟨old, kept, hlocate, hne⟩ := hmoves
  obtain ⟨key, index, entities, hlocated⟩ := Shelf.located_of_locate hlocate
  have htype := (h.finds c _ _ _ _ _ _ hlocated).type
  have hne : patch.type.getD kept.type ≠ old := hne
  cases hpatch : patch.type with
  | none =>
    rw [hpatch] at hne
    exact absurd htype hne
  | some type =>
    rw [hpatch] at hne
    refine ⟨kept, type, ?_, hpatch, fun he => hne (he.trans htype)⟩
    rw [exec_get_of_rules hrules, hlocated.get_eq]

/-- What a lookup shows beside an edit. -/
theorem Sound.get_beside (h : g.Sound p used tree base) (hp : Number.Stable p)
    (hrules : g.rules = []) (hshallow : (tree.shelf g.root c).Shallow) {stamp : Stamp} {id : Id}
    {patch : Patch c} {turns : List Bool} {c' : EntityClass} {other : Id}
    {o : Outcome (Option (Entity c'))}
    (hdone : (FileProgram.interleave (g.edit stamp id patch).outcome (g.get c' other).outcome tree
      turns).2.1 = .done o) :
    o = ((g.get c' other).exec tree).1
      ∨ o = ((g.get c' other).exec (g.advance tree ⟨stamp, .edit c id patch⟩)).1
      ∨ g.Retypes tree id patch ∧ c' = c ∧ other = id ∧ o = .ok none := by
  obtain ⟨shelves, hchanges, hpasses, hothers⟩ := h.stages_of_edit hrules stamp id patch
  obtain ⟨stages', hsees⟩ :=
    FileProgram.sees_of_interleave hpasses (looks_get hrules c' other) hdone
  obtain ⟨rest, hhead⟩ := hpasses.head
  obtain ⟨s, hs, t, ht, ho⟩ := sees_get hrules (hhead ▸ List.cons_ne_nil _ _) hsees
  obtain ⟨x, hx, rfl⟩ := List.mem_map.1 hs
  obtain ⟨y, hy, rfl⟩ := List.mem_map.1 ht
  rw [exec_get_of_rules hrules, exec_get_of_rules hrules, ho]
  by_cases hclass : c' = c
  · subst hclass
    rw [Function.update_self, Function.update_self]
    refine (hchanges.getFrom_eq (h.good c') hshallow hp (fun type entities => h.proper) hx hy
      other).imp_right (.imp_right fun hmissed => ?_)
    exact ⟨retypes_of_moves h hrules hmissed.1, rfl, hmissed.2⟩
  · rw [Function.update_of_ne hclass, Function.update_of_ne hclass, Shelf.getFrom_self]
    exact .inl rfl

/-- A search in the other class does not notice the edit. -/
theorem search_of_other_class (hrules : g.rules = []) {c' : EntityClass} (hclass : c' ≠ c)
    (hascending : (tree.shelf g.root c').Ascending) {shelves : List (Shelf c)}
    (hne : shelves ≠ []) {stages' : List Shelves} {q : Searcher} {o : Outcome (List (Entity c'))}
    (hsees : (g.search c' q).outcome.Sees g.root
      (shelves.map (Function.update (tree.shelf g.root) c)) o stages') :
    o = ((g.search c' q).exec tree).1 := by
  have hstages : ∀ s ∈ shelves.map (Function.update (tree.shelf g.root) c),
      s c' = tree.shelf g.root c' := by
    intro s hs
    obtain ⟨x, hx, rfl⟩ := List.mem_map.1 hs
    exact Function.update_of_ne hclass ..
  obtain ⟨s, rest, load, hsuffix, hload, ho⟩ := sees_search hrules
    (fun hnil => hne (List.map_eq_nil_iff.1 hnil))
    (fun s hs types htypes => hascending.nodup (hstages s hs ▸ htypes)) hsees
  have hloads : load = (tree.shelf g.root c').load := by
    funext type
    obtain ⟨t, ht, hloaded⟩ := hload type
    rw [hloaded, hstages t (hsuffix.mem ht)]
  rw [exec_search_of_rules hrules, ho, hloads, hstages s (hsuffix.mem (List.mem_cons_self ..))]

/-- A search in the class of the edit goes along the shelves of the class. -/
theorem searchOf_of_sees (hrules : g.rules = []) {s s' : Shelf c} {id : Id}
    {change : Entity c → Entity c} {shelves : List (Shelf c)}
    (hchanges : s.Changes id change shelves s') (hascending : s.Ascending)
    (hascending' : s'.Ascending) {stages' : List Shelves} {q : Searcher}
    {o : Outcome (List (Entity c))}
    (hsees : (g.search c q).outcome.Sees g.root
      (shelves.map (Function.update (tree.shelf g.root) c)) o stages') :
    ∃ x rest load, x :: rest <:+ shelves ∧ (∀ type, ∃ y ∈ x :: rest, load type = y.load type)
      ∧ o = g.searchOf x.types load q := by
  have hne : shelves.map (Function.update (tree.shelf g.root) c) ≠ [] := by
    intro hnil
    have hlast := hchanges.getLast?_eq
    rw [List.map_eq_nil_iff.1 hnil] at hlast
    cases hlast
  obtain ⟨t, rest, load, ⟨before, hbefore⟩, hload, ho⟩ := sees_search hrules hne
    (fun t ht types htypes => by
      obtain ⟨x, hx, rfl⟩ := List.mem_map.1 ht
      rw [Function.update_self] at htypes
      rcases hchanges.types_eq hx with hold | hnew
      · exact hascending.nodup (hold ▸ htypes)
      · exact hascending'.nodup (hnew ▸ htypes)) hsees
  have hshelves := congrArg (List.map (· c)) hbefore
  simp only [List.map_append, List.map_map, Function.comp_def, Function.update_self,
    List.map_id'] at hshelves
  refine ⟨t c, rest.map (· c), load, ⟨_, hshelves⟩, fun type => ?_, ho⟩
  obtain ⟨u, hu, hloaded⟩ := hload type
  have hmem : u c ∈ (t :: rest).map (· c) := List.mem_map_of_mem hu
  exact ⟨u c, hmem, hloaded⟩

/-- What a search shows beside an edit. -/
theorem Sound.search_beside (h : g.Sound p used tree base) (hp : Number.Stable p)
    (hrules : g.rules = []) (hascending : ∀ c, (tree.shelf g.root c).Ascending) {stamp : Stamp}
    {id : Id} {patch : Patch c} (haccepts : g.Accepts p ⟨stamp, .edit c id patch⟩)
    (h' : g.Sound p used' (g.advance tree ⟨stamp, .edit c id patch⟩) base)
    (hascending' : ((g.advance tree ⟨stamp, .edit c id patch⟩).shelf g.root c).Ascending)
    {turns : List Bool} {c' : EntityClass} {q : Searcher} {o : Outcome (List (Entity c'))}
    (hdone : (FileProgram.interleave (g.edit stamp id patch).outcome (g.search c' q).outcome tree
      turns).2.1 = .done o) :
    o = ((g.search c' q).exec tree).1
      ∨ o = ((g.search c' q).exec (g.advance tree ⟨stamp, .edit c id patch⟩)).1
      ∨ g.Retypes tree id patch ∧ c' = c
        ∧ g.Blends c' q id tree (g.advance tree ⟨stamp, .edit c id patch⟩) o := by
  obtain ⟨shelves, hchanges, hpasses, -⟩ := h.stages_of_edit hrules stamp id patch
  obtain ⟨stages', hsees⟩ :=
    FileProgram.sees_of_interleave hpasses (looks_search hrules c' q) hdone
  -- the stages of an edit differ in the shelf of its class only
  by_cases hclass : c' = c
  · subst hclass
    obtain ⟨x, rest, load, hsuffix, hload, rfl⟩ :=
      searchOf_of_sees hrules hchanges (hascending c') hascending' hsees
    rw [exec_search_of_rules hrules, exec_search_of_rules hrules]
    refine (hchanges.searchOf_eq hsuffix hload g q).imp_right (.imp_right ?_)
    rintro ⟨hmoved, htypes, hblend⟩
    rw [htypes]
    refine ⟨retypes_of_moves h hrules hmoved.moves, rfl, ⟨load, hblend, rfl⟩, ?_⟩
    intro all all' hall hall'
    rw [exec_search_of_rules hrules] at hall hall'
    have hproper : ∀ e : Entity c', e.Proper p → (patch.apply e stamp.time).Proper p := fun e he =>
      haccepts.2.1.apply he haccepts.1
    exact between_of_searches (h.types_good c') (h'.types_good c')
      (fun type entities hload e he hne =>
        hmoved.others (h.good c') hp (fun _ _ => h.proper) hproper hload he hne)
      hblend (hascending c') hascending'
      (fun known known' hknown hknown' => hmoved.types_subset (hascending c') hknown hknown')
      hall hall'
  · exact .inl (search_of_other_class hrules hclass (hascending c')
      (List.ne_nil_of_mem (List.mem_of_getLast? hchanges.getLast?_eq)) hsees)

/-- A run that creates a node of type `A` and one of type `B`. -/
def pairRun : List Step :=
  [⟨⟨"n", 0⟩, .create .node (.node "A" [])⟩, ⟨⟨"m", 1⟩, .create .node (.node "B" [])⟩]

/-- The edit that gives the first node the type of the other one. -/
def joinOther : Patch .node := ⟨some "B", none, ()⟩

theorem allows_pairRun (p : Number → Prop) :
    (Engine.sample []).Allows p
      (pairRun ++ [⟨⟨"x", 2⟩, .edit .node (.ofString "n") joinOther⟩]) where
  distinct := by decide
  slashless h := absurd rfl h
  accepted step hstep := by
    simp only [pairRun, List.cons_append, List.nil_append, List.mem_cons, List.not_mem_nil,
      or_false] at hstep
    rcases hstep with rfl | rfl | rfl
    · exact ⟨by decide, ⟨⟨List.nodup_nil, trivial⟩, trivial⟩, fun _ _ => rfl⟩
    · exact ⟨by decide, ⟨⟨List.nodup_nil, trivial⟩, trivial⟩, fun _ _ => rfl⟩
    · refine ⟨by decide, ⟨fun bag hbag => ?_, trivial⟩, fun bag hbag => ?_⟩ <;> cases hbag

/-- The first node is there before the edit and after it: what the documents hold is what the store in
    memory holds. -/
theorem found_beside_join :
    (∃ old : Node, (((Engine.sample []).get .node (.ofString "n")).exec
        ((Engine.sample []).after .sample pairRun)).1 = .ok (some old))
      ∧ ∃ new : Node, (((Engine.sample []).get .node (.ofString "n")).exec
        ((Engine.sample []).after .sample
          (pairRun ++ [⟨⟨"x", 2⟩, .edit .node (.ofString "n") joinOther⟩]))).1 = .ok (some new) := by
  have hindex : ∀ c, Writable (Engine.sample []).root (indexStem c) := writable_index_sample
  have htakes : ∀ type ∈ ["A", "B"], (Engine.sample []).Takes .node type := by
    intro type htype
    simp only [List.mem_cons, List.not_mem_nil, or_false] at htype
    rcases htype with rfl | rfl <;>
      exact ⟨rfl, Catalog.writable_document (hindex .node) rfl (by decide)⟩
  have hproper : ∀ type, (Body.node type []).Proper Number.Whole :=
    fun type => ⟨⟨List.nodup_nil, trivial⟩, trivial⟩
  have hshallow : ∀ type, (Body.node type []).Shallow := fun type =>
    ⟨show (Json.object []).nesting ≤ Node.maxNesting by decide, trivial⟩
  have hfirst : (Engine.sample []).MirrorsCall Number.Whole ["n"] .sample ["g"] .empty ⟨"n", 0⟩
      (.create .node (.node "A" [])) :=
    (mirrors_empty Number.lasting_whole FileTree.bare_sample).create rfl hindex (by decide) (hproper "A")
      (hshallow "A") (htakes "A" (by simp)) (by simp)
  have hpair : (Engine.sample []).MirrorsCall Number.Whole ["n", "m"] _ ["g"] _ ⟨"m", 1⟩
      (.create .node (.node "B" [])) :=
    hfirst.advance.create rfl hindex (by decide) (hproper "B") (hshallow "B")
      (htakes "B" (by simp)) (by simp)
  -- The three calls are carried out on both sides, one after the other.
  have hjoined : (Engine.sample []).MirrorsCall Number.Whole ["n", "m"] _ ["g"] _ ⟨"x", 2⟩
      (.edit .node (.ofString "n") joinOther) :=
    hpair.advance.edit rfl hindex (by decide) ⟨fun bag hbag => (by cases hbag), trivial⟩
      ⟨fun bag hbag => (by cases hbag), trivial⟩
      fun type htype => Option.some.inj htype ▸ htakes "B" (by simp)
  have hold := hpair.advance.exec_get rfl hindex .node "n"
  have hnew := hjoined.advance.exec_get rfl hindex .node "n"
  rw [after_append, after, pairRun, List.foldl_cons, List.foldl_cons, List.foldl_nil, hold, hnew]
  exact ⟨⟨_, rfl⟩, ⟨_, rfl⟩⟩

/-- A look at the two nodes beside the edit. -/
def besideJoin {α : Type} (look : FileTask α) (turns : List Bool) : FileProgram (Outcome α) :=
  (FileProgram.interleave
    ((Engine.sample []).edit (c := .node) ⟨"x", 2⟩ (.ofString "n") joinOther).outcome look.outcome
    ((Engine.sample []).after .sample pairRun) turns).2.1

/-- A lookup after the node has left the one document and before it stands in the other one does not
    find it, though it is there before the edit and after it.  A search that reads the one document
    before the edit and the other one after it lists the node twice. -/
theorem missed_and_listed_twice :
    (∃ old new : Node,
      (((Engine.sample []).get .node (.ofString "n")).exec
        ((Engine.sample []).after .sample pairRun)).1 = .ok (some old)
      ∧ (((Engine.sample []).get .node (.ofString "n")).exec ((Engine.sample []).after .sample
        (pairRun ++ [⟨⟨"x", 2⟩, .edit .node (.ofString "n") joinOther⟩]))).1 = .ok (some new))
    ∧ besideJoin ((Engine.sample []).get .node (.ofString "n"))
        (List.replicate 5 true ++ [false, false]) = .done (.ok none)
    ∧ ∃ found : List Node, besideJoin ((Engine.sample []).search .node .always)
        ([false, false] ++ List.replicate 8 true ++ [false]) = .done (.ok found)
      ∧ (found.filter fun e => e.id.same (.ofString "n")).length = 2 := by
  have hmissed : (besideJoin ((Engine.sample []).get .node (.ofString "n"))
      (List.replicate 5 true ++ [false, false])).result?.any
        (fun o => o.toOption.any Option.isNone) = true := by
    decide +kernel
  have htwice : (besideJoin ((Engine.sample []).search .node .always)
      ([false, false] ++ List.replicate 8 true ++ [false])).result?.any
        (fun o => o.toOption.any fun found : List Node =>
          (found.filter fun e => e.id.same (.ofString "n")).length == 2) = true := by
    decide +kernel
  refine ⟨?_, ?_, ?_⟩
  · obtain ⟨⟨old, hold⟩, new, hnew⟩ := found_beside_join
    exact ⟨old, new, hold, hnew⟩
  · obtain ⟨o, hdone, ho⟩ := FileProgram.done_of_result? hmissed
    obtain ⟨found, rfl, hnone⟩ := exists_of_any ho
    rw [hdone, Option.isNone_iff_eq_none.1 hnone]
  · obtain ⟨o, hdone, ho⟩ := FileProgram.done_of_result? htwice
    obtain ⟨found, rfl, htwo⟩ := exists_of_any ho
    exact ⟨found, hdone, of_decide_eq_true htwo⟩

/-- Looks beside an edit, after every run below an empty root and without raw-text rules, however
    the requests of the two take turns: what they give is what they give before the edit or after
    it, but for looks at an entity that moves to another type.  This one a lookup may miss, and a
    search that comes to its documents at different times may miss it or list it under both. -/
theorem looks_beside_edit (hbare : tree.Bare g.root base) (hrules : g.rules = [])
    {steps : List Step} {stamp : Stamp} {id : Id} {patch : Patch c}
    (hallows : g.Allows Number.InRange (steps ++ [⟨stamp, .edit c id patch⟩])) (turns : List Bool) :
    (∀ c' other o, (FileProgram.interleave (g.edit stamp id patch).outcome (g.get c' other).outcome
          (g.after tree steps) turns).2.1 = .done o →
        o = ((g.get c' other).exec (g.after tree steps)).1
          ∨ o = ((g.get c' other).exec (g.after tree (steps ++ [⟨stamp, .edit c id patch⟩]))).1
          ∨ g.Retypes (g.after tree steps) id patch ∧ c' = c ∧ other = id ∧ o = .ok none)
      ∧ ∀ c' q o, (FileProgram.interleave (g.edit stamp id patch).outcome (g.search c' q).outcome
          (g.after tree steps) turns).2.1 = .done o →
        o = ((g.search c' q).exec (g.after tree steps)).1
          ∨ o = ((g.search c' q).exec (g.after tree (steps ++ [⟨stamp, .edit c id patch⟩]))).1
          ∨ g.Retypes (g.after tree steps) id patch ∧ c' = c
            ∧ g.Blends c' q id (g.after tree steps)
              (g.after tree (steps ++ [⟨stamp, .edit c id patch⟩])) o := by
  have huniform : g.Uniform := uniform_of_length (by rw [hrules]; exact Nat.zero_le 1)
  have hbefore := hallows.before
  have h := sound_after hbare Number.stable_inRange huniform hbefore
  have h' := sound_after hbare Number.stable_inRange huniform hallows
  have hascending := ascending_after hbare Number.stable_inRange huniform hbefore
  have hascending' := ascending_after hbare Number.stable_inRange huniform hallows c
  have hshallow := shallow_after hbare Number.stable_inRange huniform hbefore c
  have haccepts := hallows.accepted ⟨stamp, .edit c id patch⟩ (by simp)
  rw [after_append] at h' hascending' ⊢
  exact ⟨fun _ _ _ => h.get_beside Number.stable_inRange hrules hshallow,
    fun _ _ _ => h.search_beside Number.stable_inRange hrules hascending haccepts h' hascending'⟩

/-- A lookup beside the edit that misses the node does so because the node moves. -/
theorem looks_beside_join :
    FileTree.sample.Bare "/g" ["g"] ∧ (Engine.sample []).rules = []
      ∧ (Engine.sample []).Allows Number.InRange
        (pairRun ++ [⟨⟨"x", 2⟩, .edit .node (.ofString "n") joinOther⟩])
      ∧ ∀ turns o, besideJoin ((Engine.sample []).get .node (.ofString "n")) turns = .done o →
        o = (((Engine.sample []).get .node (.ofString "n")).exec
            ((Engine.sample []).after .sample pairRun)).1
          ∨ o = (((Engine.sample []).get .node (.ofString "n")).exec
            ((Engine.sample []).after .sample
              (pairRun ++ [⟨⟨"x", 2⟩, .edit .node (.ofString "n") joinOther⟩]))).1
          ∨ (Engine.sample []).Retypes ((Engine.sample []).after .sample pairRun) (.ofString "n")
              joinOther ∧ o = .ok none := by
  refine ⟨FileTree.bare_sample, rfl, allows_pairRun _, fun turns o hdone => ?_⟩
  rcases (looks_beside_edit FileTree.bare_sample rfl (allows_pairRun _) turns).1 .node
    (.ofString "n") o hdone with hbefore | hafter | ⟨hretypes, -, -, hnone⟩
  · exact .inl hbefore
  · exact .inr (.inl hafter)
  · exact .inr (.inr ⟨hretypes, hnone⟩)

end Engine

end PropertyGraph
