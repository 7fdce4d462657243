/-
  PropertyGraph.Proofs.Storage.Moving

  What a look finds along the stages of an edit.  Where at most one document changes, reading it
  before or after its write is as good as looking at once.  An entity that moves is not found by
  the old index in the document that it has left, nor by the new index in the other document before
  it has come there; all other identities are found as before or as afterwards.
-/
import PropertyGraph.Proofs.Storage.EditStages
import PropertyGraph.Proofs.Storage.Looking

namespace PropertyGraph

namespace Shelf

variable {c : EntityClass} {p : Number → Prop} {s s' x y : Shelf c} {id : Id}
  {change : Entity c → Entity c} {shelves : List (Shelf c)}

/-- While a type is recorded the documents stay, and the index is the old one or the new one. -/
theorem of_mem_recordings {index : Entries String} {types : List String} {key type : String}
    (h : x ∈ s.recordings index types key type) :
    x.text = s.text ∧ (x.index = s.index ∨ x.index = .ok (index.insert key type)) := by
  rw [recordings] at h
  rcases List.mem_cons.1 h with rfl | h
  · exact ⟨rfl, .inl rfl⟩
  · rcases List.mem_cons.1 h with rfl | h
    · exact ⟨rfl, .inr rfl⟩
    · obtain ⟨types', -, rfl⟩ := List.mem_map.1 h
      exact ⟨rfl, .inr rfl⟩

/-- In the end the type is recorded. -/
theorem getLast?_recordings {index : Entries String} {types : List String}
    (hindex : s.index = .ok index) (htypes : s.types = .ok types) (key type : String) :
    (s.recordings index types key type).getLast? = some (s.record key type) := by
  rw [recordings]
  cases hadd : Catalog.addType types type with
  | none =>
    rw [record_of_listed hindex htypes hadd]
    rfl
  | some types' =>
    rw [record_of_unlisted hindex htypes hadd]
    rfl

/-- The list of types is the old one until the end. -/
theorem types_of_suffix_recordings {index : Entries String} {types : List String}
    {key type : String} {rest : List (Shelf c)}
    (h : x :: rest <:+ s.recordings index types key type) : x.types = s.types ∨ rest = [] := by
  rw [recordings] at h
  rcases List.suffix_cons_iff.1 h with heq | h
  · rw [(List.cons.inj heq).1]
    exact .inl rfl
  · rcases List.suffix_cons_iff.1 h with heq | h
    · rw [(List.cons.inj heq).1]
      exact .inl rfl
    · cases hadd : Catalog.addType types type with
      | none =>
        rw [hadd] at h
        cases List.suffix_nil.1 h
      | some types' =>
        rw [hadd] at h
        rcases List.suffix_cons_iff.1 h with heq | h
        · exact .inr (List.cons.inj heq).2
        · cases List.suffix_nil.1 h

theorem load_congr {type : String} (h : x.text type = y.text type) : x.load type = y.load type := by
  rw [load, load, h]

theorem getFrom_of_indexed {key : String} (hkey : id.requireText = .ok key)
    {index : Entries String} (hindex : x.index = .ok index) {found : Option String}
    (hfound : Entries.get? key index = found) (y : Shelf c) :
    x.getFrom y id = y.follow id found := by
  rw [getFrom_of_key hkey, hindex, ← hfound]
  rfl

/-- What a lookup finds where the index is an old one or a new one that do not differ on the
    identity, and each document is an old one or a new one. -/
theorem getFrom_of_index_eq (id : Id)
    (hx : ∀ key, id.requireText = .ok key →
      x.index.map (Entries.get? key) = s.index.map (Entries.get? key))
    (hs' : ∀ key, id.requireText = .ok key →
      s'.index.map (Entries.get? key) = s.index.map (Entries.get? key))
    (hy : ∀ type, y.load type = s.load type ∨ y.load type = s'.load type) :
    x.getFrom y id = s.get id ∨ x.getFrom y id = s'.get id := by
  rw [← getFrom_self s, ← getFrom_self s']
  cases hkey : id.requireText with
  | error f => exact .inl (by rw [getFrom_of_error hkey, getFrom_of_error hkey])
  | ok key =>
    rw [getFrom_of_key hkey, getFrom_of_key hkey, getFrom_of_key hkey, hx key hkey, hs' key hkey]
    cases s.index.map (Entries.get? key) with
    | error f => exact .inl rfl
    | ok found =>
      cases found with
      | none => exact .inl rfl
      | some type =>
        show (y.load type).map (Catalog.find id) = (s.load type).map (Catalog.find id)
          ∨ (y.load type).map (Catalog.find id) = (s'.load type).map (Catalog.find id)
        exact (hy type).imp (congrArg _) (congrArg _)

/-- The document that an entity has left can be read, and the entity is not found there. -/
theorem follow_left {key old : String} {index : Entries String} {entities : List (Entity c)}
    {kept : Entity c} (hlocated : s.Located id key old index entities kept)
    (hnamed : Catalog.Named entities) (hshallow : s.Shallow) (hp : Number.Stable p)
    (hproper : ∀ e ∈ entities, e.Proper p) :
    (s.put old (entities.filter fun e => !e.id.same id)).follow id (some old) = .ok none := by
  rw [follow, s.load_put_self (checkType_of_load hlocated.loaded),
    Document.decode_entitiesText_of_entities hp
      (fun e he => hproper e (List.mem_of_mem_filter he))
      (fun e he => hshallow old entities hlocated.loaded e (List.mem_of_mem_filter he))]
  refine congrArg Except.ok (List.find?_eq_none.2 fun e he => ?_)
  obtain ⟨written, hwritten, rfl⟩ := List.mem_map.1 he
  obtain ⟨hmem, hother⟩ := List.mem_filter.1 hwritten
  obtain ⟨key', hkey'⟩ := hnamed.texts written hmem
  have hid : written.reread.id = written.id := by
    show written.id.reread = written.id
    rw [hkey']
    rfl
  rw [hid]
  simpa using hother

/-- An entity is to move to another document. -/
def Moves (s : Shelf c) (id : Id) (change : Entity c → Entity c) : Prop :=
  ∃ old kept, s.locate id = .ok (old, kept) ∧ (change kept).type ≠ old

/-- An entity has moved to another document, and is recorded there. -/
def Moved (s s' : Shelf c) (id : Id) (change : Entity c → Entity c) : Prop :=
  ∃ key old index entities entities' kept, s.Located id key old index entities kept
    ∧ s.load (change kept).type = .ok entities' ∧ (change kept).type ≠ old
    ∧ (change kept).id = id
    ∧ s' = ((s.put old (entities.filter fun e => !e.id.same id)).put (change kept).type
      (entities' ++ [change kept])).record key (change kept).type

theorem Moved.moves (h : s.Moved s' id change) : s.Moves id change := by
  obtain ⟨_, _, _, _, _, _, hlocated, -, hne, -⟩ := h
  exact ⟨_, _, hlocated.locate_eq, hne⟩

/-- The identities in a document that can be read are those that were written. -/
theorem mem_of_load_put {type : String} {entities read : List (Entity c)} (hp : Number.Stable p)
    (hproper : ∀ e ∈ entities, e.Proper p) (htexts : ∀ e ∈ entities, ∃ key, e.id = .ofString key)
    (hload : (s.put type entities).load type = .ok read) {e : Entity c} (he : e ∈ read) :
    ∃ x ∈ entities, x.id = e.id := by
  rw [eq_of_load_put hp hproper hload] at he
  obtain ⟨x, hx, rfl⟩ := List.mem_map.1 he
  refine ⟨x, hx, ?_⟩
  obtain ⟨key, hkey⟩ := htexts x hx
  show x.id = x.id.reread
  rw [hkey]
  rfl

/-- When an entity has moved the documents contain no other identities than before. -/
theorem Moved.others (h : s.Moved s' id change) {P : String → Entity c → Prop}
    (hgood : s.Good P) (hp : Number.Stable p)
    (hproper : ∀ type entities, s.load type = .ok entities → ∀ e ∈ entities, e.Proper p)
    (hchange : ∀ e, e.Proper p → (change e).Proper p) {type : String} {entities : List (Entity c)}
    (hload : s'.load type = .ok entities) {e : Entity c} (he : e ∈ entities) (hne : e.id ≠ id) :
    ∃ before, s.load type = .ok before ∧ ∃ x ∈ before, x.id = e.id := by
  obtain ⟨key, old, index, others, entities', kept, hlocated, hload', htype, hid, rfl⟩ := h
  have hnamed := hgood.named _ _ hlocated.loaded
  have hnamed' := hgood.named _ _ hload'
  rw [load_record] at hload
  -- the document is the one the entity came into, the one it has left, or another one
  by_cases hnew : type = (change kept).type
  · subst hnew
    refine ⟨entities', hload', ?_⟩
    have hall : ∀ x ∈ entities' ++ [change kept], x.Proper p ∧ ∃ key, x.id = .ofString key := by
      intro x hx
      rcases List.mem_append.1 hx with hx | hx
      · exact ⟨hproper _ _ hload' x hx, hnamed'.texts x hx⟩
      · rw [List.mem_singleton.1 hx]
        exact ⟨hchange _ (hproper _ _ hlocated.loaded kept hlocated.mem), key,
          hid.trans hlocated.id_eq⟩
    obtain ⟨x, hx, hsame⟩ := mem_of_load_put hp (fun x hx => (hall x hx).1)
      (fun x hx => (hall x hx).2) hload he
    rcases List.mem_append.1 hx with hx | hx
    · exact ⟨x, hx, hsame⟩
    · rw [List.mem_singleton.1 hx, hid] at hsame
      exact absurd hsame.symm hne
  · rw [load_put_of_ne _ hnew] at hload
    by_cases hold : type = old
    · subst hold
      refine ⟨others, hlocated.loaded, ?_⟩
      obtain ⟨x, hx, hsame⟩ := mem_of_load_put hp
        (fun x hx => hproper _ _ hlocated.loaded x (List.mem_of_mem_filter hx))
        (fun x hx => hnamed.texts x (List.mem_of_mem_filter hx)) hload he
      exact ⟨x, List.mem_of_mem_filter hx, hsame⟩
    · rw [load_put_of_ne _ hold] at hload
      exact ⟨entities, hload, e, he, rfl⟩

/-- The document that an entity comes into did not contain it. -/
theorem follow_fresh {P : String → Entity c → Prop} (hgood : s.Good P) {key old type : String}
    {index : Entries String} {entities entities' : List (Entity c)} {kept : Entity c}
    (hlocated : s.Located id key old index entities kept) (hload : s.load type = .ok entities')
    (hne : type ≠ old) : s.follow id (some type) = .ok none := by
  rw [follow, hload]
  refine congrArg Except.ok (List.find?_eq_none.2 fun e he hsame => ?_)
  rw [hlocated.id_eq, Catalog.same_iff ((hgood.named _ _ hload).texts e he)] at hsame
  exact hgood.apart _ _ _ _ hload hlocated.loaded hne e he kept hlocated.mem
    (hsame.trans (hlocated.id_of_named (hgood.named _ _ hlocated.loaded)).symm)

/-- What is found by the index and in a document from before or after an entity has moved: what was
    found before or is found afterwards, or the entity is not found. -/
theorem Moved.getFrom_eq (h : s.Moved s' id change) {P : String → Entity c → Prop}
    (hgood : s.Good P) (hshallow : s.Shallow) (hp : Number.Stable p)
    (hproper : ∀ type entities, s.load type = .ok entities → ∀ e ∈ entities, e.Proper p)
    (hx : x.index = s.index ∨ x.index = s'.index)
    (hy : ∀ type, y.load type = s.load type ∨ y.load type = s'.load type) (other : Id) :
    x.getFrom y other = s.get other ∨ x.getFrom y other = s'.get other
      ∨ other = id ∧ x.getFrom y other = .ok none := by
  obtain ⟨key, old, index, entities, entities', kept, hlocated, hload, hne, -, hs'⟩ := h
  have hindex' : s'.index = .ok (index.insert key (change kept).type) := by
    rw [hs']
    exact index_record hlocated.indexed _ _
  by_cases hother : other = id
  · subst hother
    have hentry := Entries.get?_insert_self key (change kept).type index
    rcases hx with hold | hnew
    · -- the old index leads to the document that the entity leaves
      rw [getFrom_of_indexed hlocated.named (hold.trans hlocated.indexed) hlocated.typed]
      rcases hy old with hbefore | hafter
      · rw [← getFrom_self s, getFrom_of_indexed hlocated.named hlocated.indexed hlocated.typed,
          follow, hbefore]
        exact .inl rfl
      · refine .inr (.inr ⟨rfl, ?_⟩)
        rw [follow, hafter, hs', load_record, load_put_of_ne _ hne.symm]
        exact follow_left hlocated (hgood.named _ _ hlocated.loaded) hshallow hp
          (hproper _ _ hlocated.loaded)
    · -- the new index leads to the document that the entity comes into
      rw [getFrom_of_indexed hlocated.named (hnew.trans hindex') hentry]
      rcases hy (change kept).type with hbefore | hafter
      · refine .inr (.inr ⟨rfl, ?_⟩)
        rw [follow, hbefore]
        exact follow_fresh hgood hlocated hload hne
      · rw [← getFrom_self s', getFrom_of_indexed hlocated.named hindex' hentry, follow, hafter]
        exact .inr (.inl rfl)
  · -- both indexes say the same of all other identities
    have hsame : ∀ key', other.requireText = .ok key' →
        s'.index.map (Entries.get? key') = s.index.map (Entries.get? key') := by
      intro key' hkey'
      rw [hindex', hlocated.indexed]
      refine congrArg Except.ok (Entries.get?_insert_of_ne (fun he => hother ?_) _ _)
      rw [Catalog.eq_ofString_of_requireText hkey', he, hlocated.id_eq]
    refine (getFrom_of_index_eq other (fun key' hkey' => ?_) hsame hy).imp_right .inl
    rcases hx with hold | hnew
    · rw [hold]
    · rw [hnew, hsame key' hkey']

/-- When an entity has moved the list of types names all types that it named before. -/
theorem Moved.types_subset (h : s.Moved s' id change) (hascending : s.Ascending)
    {known known' : List String} (hknown : s.types = .ok known) (hknown' : s'.types = .ok known') :
    known ⊆ known' := by
  obtain ⟨key, old, index, others, entities', kept, hlocated, hload', htype, hid, rfl⟩ := h
  intro type hmem
  rw [types_record (show ((s.put old _).put _ _).types = .ok known from hknown)] at hknown'
  rw [← Except.ok.inj hknown']
  exact ((Catalog.ascending_recorded (hascending known hknown) _).2 type).2 (.inr hmem)

namespace Changes

theorem getLast?_eq (h : s.Changes id change shelves s') : shelves.getLast? = some s' := by
  cases h with
  | still => rfl
  | put type entities => rfl
  | @moved key old index entities entities' kept e types left placed hlocated _ _ _ _ htypes hleft
      hplaced =>
    subst hplaced hleft
    rw [List.getLast?_cons_cons, List.getLast?_cons]
    rw [getLast?_recordings (s := (s.put old _).put e.type _) hlocated.indexed htypes]
    rfl

/-- A document is at each stage as it was, or as it is in the end. -/
theorem text_eq (h : s.Changes id change shelves s') (hx : x ∈ shelves) (type : String) :
    x.text type = s.text type ∨ x.text type = s'.text type := by
  cases h with
  | still => exact .inl (by rw [List.mem_singleton.1 hx])
  | put _ entities =>
    rcases List.mem_cons.1 hx with rfl | hx
    · exact .inl rfl
    · exact .inr (by rw [List.mem_singleton.1 hx])
  | @moved key old index entities entities' kept e types left placed _ _ _ hne _ _ hleft hplaced =>
    rcases List.mem_cons.1 hx with rfl | hx
    · exact .inl rfl
    · rcases List.mem_cons.1 hx with rfl | hx
      · -- the document that the entity has left stays as it is
        by_cases hold : type = old
        · refine .inr ?_
          rw [hold, text_record, hplaced]
          exact (if_neg hne.symm).symm
        · exact .inl (by rw [hleft]; exact if_neg hold)
      · exact .inr (by rw [(of_mem_recordings hx).1]; rfl)

theorem load_eq (h : s.Changes id change shelves s') (hx : x ∈ shelves) (type : String) :
    x.load type = s.load type ∨ x.load type = s'.load type :=
  (h.text_eq hx type).imp load_congr load_congr

/-- Unless an entity moves, index and list of types stay and one document at most changes. -/
theorem stays_or_moved (h : s.Changes id change shelves s') :
    (s'.index = s.index ∧ s'.types = s.types
        ∧ ∃ type, ∀ other, other ≠ type → s'.load other = s.load other)
      ∨ s.Moved s' id change := by
  cases h with
  | still => exact .inl ⟨rfl, rfl, "", fun _ _ => rfl⟩
  | put type entities => exact .inl ⟨rfl, rfl, type, fun _ hne => s.load_put_of_ne hne entities⟩
  | moved hlocated hchange hid hne hload _ hleft hplaced =>
    subst hchange hleft hplaced
    exact .inr ⟨_, _, _, _, _, _, hlocated, hload, hne, hid, rfl⟩

/-- The list of types is the old one, or that of the last stage. -/
theorem types_of_suffix (h : s.Changes id change shelves s') {rest : List (Shelf c)}
    (hsuffix : x :: rest <:+ shelves) : x.types = s.types ∨ rest = [] := by
  cases h with
  | still =>
    rcases List.suffix_cons_iff.1 hsuffix with heq | hsuffix
    · exact .inr (List.cons.inj heq).2
    · cases List.suffix_nil.1 hsuffix
  | put type entities =>
    rcases List.suffix_cons_iff.1 hsuffix with heq | hsuffix
    · exact .inl (by rw [(List.cons.inj heq).1])
    · rcases List.suffix_cons_iff.1 hsuffix with heq | hsuffix
      · exact .inr (List.cons.inj heq).2
      · cases List.suffix_nil.1 hsuffix
  | moved _ _ _ _ _ _ hleft hplaced =>
    rcases List.suffix_cons_iff.1 hsuffix with heq | hsuffix
    · exact .inl (by rw [(List.cons.inj heq).1])
    · rcases List.suffix_cons_iff.1 hsuffix with heq | hsuffix
      · exact .inl (by rw [(List.cons.inj heq).1, hleft]; rfl)
      · refine (types_of_suffix_recordings hsuffix).imp_left fun htypes => ?_
        rw [htypes, hplaced, hleft]
        rfl

theorem index_eq (h : s.Changes id change shelves s') (hx : x ∈ shelves) :
    x.index = s.index ∨ x.index = s'.index := by
  cases h with
  | still => exact .inl (by rw [List.mem_singleton.1 hx])
  | put type entities =>
    refine .inl ?_
    rcases List.mem_cons.1 hx with rfl | hx
    · rfl
    · rw [List.mem_singleton.1 hx]
      rfl
  | moved hlocated _ _ _ _ _ hleft hplaced =>
    rcases List.mem_cons.1 hx with rfl | hx
    · exact .inl rfl
    · rcases List.mem_cons.1 hx with rfl | hx
      · exact .inl (by rw [hleft]; rfl)
      · refine (of_mem_recordings hx).2.imp (fun hold => ?_) fun hnew => ?_
        · rw [hold, hplaced, hleft]
          rfl
        · rw [hnew]
          exact (index_record (by rw [hplaced, hleft]; exact hlocated.indexed) _ _).symm

/-- What is found at two stages of an edit: what was found before or is found afterwards, or
    nothing, where the entity moves. -/
theorem getFrom_eq {P : String → Entity c → Prop} (h : s.Changes id change shelves s')
    (hgood : s.Good P) (hshallow : s.Shallow) (hp : Number.Stable p)
    (hproper : ∀ type entities, s.load type = .ok entities → ∀ e ∈ entities, e.Proper p)
    (hx : x ∈ shelves) (hy : y ∈ shelves) (other : Id) :
    x.getFrom y other = s.get other ∨ x.getFrom y other = s'.get other
      ∨ s.Moves id change ∧ other = id ∧ x.getFrom y other = .ok none := by
  rcases h.stays_or_moved with ⟨hindex, -⟩ | hmoved
  · refine (getFrom_of_index_eq other (fun key _ => ?_) (fun key _ => by rw [hindex])
      (h.load_eq hy)).imp_right .inl
    rcases h.index_eq hx with hold | hnew
    · rw [hold]
    · rw [hnew, hindex]
  · refine (hmoved.getFrom_eq hgood hshallow hp hproper (h.index_eq hx) (h.load_eq hy)
      other).imp_right (.imp_right fun hmissed => ⟨hmoved.moves, hmissed⟩)

theorem eq_of_suffix (h : s.Changes id change shelves s') (hsuffix : [x] <:+ shelves) : x = s' := by
  obtain ⟨before, hbefore⟩ := hsuffix
  have hlast := h.getLast?_eq
  rw [← hbefore, List.getLast?_concat] at hlast
  exact Option.some.inj hlast

theorem types_eq (h : s.Changes id change shelves s') (hx : x ∈ shelves) :
    x.types = s.types ∨ x.types = s'.types := by
  obtain ⟨before, rest, hsplit⟩ := List.append_of_mem hx
  have hsuffix : x :: rest <:+ shelves := ⟨before, hsplit.symm⟩
  rcases h.types_of_suffix hsuffix with htypes | rfl
  · exact .inl htypes
  · exact .inr (by rw [h.eq_of_suffix hsuffix])

/-- What a search finds at stages of an edit: what it finds before or afterwards, or, where the
    entity moves, something of both. -/
theorem searchOf_eq (h : s.Changes id change shelves s') {rest : List (Shelf c)}
    (hsuffix : x :: rest <:+ shelves) {load : String → Outcome (List (Entity c))}
    (hload : ∀ type, ∃ y ∈ x :: rest, load type = y.load type) (g : Engine) (q : Searcher) :
    g.searchOf x.types load q = g.searchOf s.types s.load q
      ∨ g.searchOf x.types load q = g.searchOf s'.types s'.load q
      ∨ s.Moved s' id change ∧ x.types = s.types
        ∧ ∀ type, load type = s.load type ∨ load type = s'.load type := by
  have hloads : ∀ type, load type = s.load type ∨ load type = s'.load type := by
    intro type
    obtain ⟨y, hy, hloaded⟩ := hload type
    rw [hloaded]
    exact h.load_eq (hsuffix.mem hy) type
  rcases h.types_of_suffix hsuffix with htypes | rfl
  · rcases h.stays_or_moved with ⟨-, hsame, type, hothers⟩ | hmoved
    · -- what has become of the one document decides
      have hdocuments : ∀ t : Shelf c, load type = t.load type →
          (∀ other, other ≠ type → t.load other = s.load other) → load = t.load := by
        intro t ht hrest
        funext other
        by_cases hother : other = type
        · rw [hother, ht]
        · rw [hrest other hother]
          exact (hloads other).elim (fun hold => hold) fun hnew => hnew.trans (hothers other hother)
      rcases hloads type with hold | hnew
      · exact .inl (by rw [htypes, hdocuments s hold fun _ _ => rfl])
      · exact .inr (.inl (by rw [htypes, hsame, hdocuments s' hnew hothers]))
    · exact .inr (.inr ⟨hmoved, htypes, hloads⟩)
  · -- at the last stage everything is as it is in the end
    obtain rfl := h.eq_of_suffix hsuffix
    refine .inr (.inl (congrArg (g.searchOf x.types · q) (funext fun type => ?_)))
    obtain ⟨y, hy, hloaded⟩ := hload type
    rw [hloaded, List.mem_singleton.1 hy]

end Changes

end Shelf

end PropertyGraph
