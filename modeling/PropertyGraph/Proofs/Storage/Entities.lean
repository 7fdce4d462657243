/-
  PropertyGraph.Proofs.Storage.Entities

  The entities of a document under distinct identities that are texts: which of them a
  lookup finds, and which are left when one is replaced or taken out.
-/
import PropertyGraph.Storage.Catalog

namespace PropertyGraph.Catalog

variable {c : EntityClass} {key : String} {e s : Entity c} {entities : List (Entity c)}

/-- All identities are texts, and no two are the same. -/
structure Named (entities : List (Entity c)) : Prop where
  texts : ∀ e ∈ entities, ∃ key, e.id = .ofString key
  distinct : (entities.map Entity.id).Nodup

theorem same_ofString {first second : String} :
    (Id.ofString first).same (.ofString second) = true ↔ first = second := by
  show (first == second) = true ↔ _
  rw [beq_iff_eq]

theorem ofString_inj {first second : String} (h : Id.ofString first = Id.ofString second) :
    first = second := by
  have hvalue : Json.string first = .string second := congrArg Id.value h
  exact Json.string.inj hvalue

/-- An identity that must be a text and is one. -/
theorem eq_ofString_of_requireText {id : Id} (h : id.requireText = .ok key) :
    id = .ofString key := by
  obtain ⟨value⟩ := id
  cases value with
  | string text =>
    obtain rfl : text = key := Except.ok.inj h
    rfl
  | _ => cases h

/-- Among identities that are texts, being the same is being equal. -/
theorem same_iff (h : ∃ text, e.id = .ofString text) :
    e.id.same (.ofString key) = true ↔ e.id = .ofString key := by
  obtain ⟨text, htext⟩ := h
  rw [htext, same_ofString]
  exact ⟨fun he => by rw [he], ofString_inj⟩

theorem Named.tail {rest : List (Entity c)} (h : Named (e :: rest)) : Named rest where
  texts x hx := h.texts x (List.mem_cons_of_mem _ hx)
  distinct := (List.nodup_cons.1 h.distinct).2

theorem Named.head_ne {rest : List (Entity c)} (h : Named (e :: rest)) {x : Entity c}
    (hx : x ∈ rest) : x.id ≠ e.id := by
  intro he
  exact (List.nodup_cons.1 h.distinct).1 (List.mem_map.2 ⟨x, hx, he⟩)

theorem Named.sublist {some : List (Entity c)} (h : Named entities) (hsub : List.Sublist some entities) :
    Named some where
  texts x hx := h.texts x (hsub.subset hx)
  distinct := h.distinct.sublist (hsub.map _)

/-- An identity belongs to one entity only. -/
theorem Named.eq_of_id (h : Named entities) {x : Entity c} (he : e ∈ entities) (hx : x ∈ entities)
    (hid : x.id = e.id) : x = e := by
  induction entities with
  | nil => cases he
  | cons head rest ih =>
    rcases List.mem_cons.1 he with hhead | hrest
    · rcases List.mem_cons.1 hx with hhead' | hrest'
      · rw [hhead, hhead']
      · exact absurd (hhead ▸ hid) (h.head_ne hrest')
    · rcases List.mem_cons.1 hx with hhead' | hrest'
      · exact absurd (hhead' ▸ hid.symm) (h.head_ne hrest)
      · exact ih h.tail hrest hrest'

/-- The entity of an identity is the one that a lookup finds. -/
theorem Named.find_eq_some_iff (h : Named entities) :
    find (.ofString key) entities = some e ↔ e ∈ entities ∧ e.id = .ofString key := by
  constructor
  · intro hfind
    have hmem := List.mem_of_find?_eq_some hfind
    exact ⟨hmem, (same_iff (h.texts e hmem)).1
      (List.find?_some (p := fun e : Entity c => e.id.same (.ofString key)) hfind)⟩
  · rintro ⟨hmem, hid⟩
    cases hfind : find (.ofString key) entities with
    | none =>
      have hnone := List.find?_eq_none.1 hfind e hmem
      exact absurd ((same_iff ⟨key, hid⟩).2 hid) hnone
    | some x =>
      have hx := List.mem_of_find?_eq_some hfind
      have hsame := (same_iff (h.texts x hx)).1
        (List.find?_some (p := fun e : Entity c => e.id.same (.ofString key)) hfind)
      rw [h.eq_of_id hmem hx (hsame.trans hid.symm)]

/-! ## Replacing and taking out -/

theorem ids_replaceFirst (h : Named entities) (hs : s.id = .ofString key)
    (hmem : ∃ e ∈ entities, e.id = .ofString key) :
    (replaceFirst s entities).map Entity.id = entities.map Entity.id := by
  induction entities with
  | nil =>
    obtain ⟨e, he, -⟩ := hmem
    cases he
  | cons head rest ih =>
    rw [replaceFirst, hs]
    by_cases hsame : head.id.same (.ofString key) = true
    · rw [if_pos hsame, List.map_cons, List.map_cons, hs,
        (same_iff (h.texts head (List.mem_cons_self ..))).1 hsame]
    · rw [if_neg hsame, List.map_cons, List.map_cons, ih h.tail]
      obtain ⟨e, he, hid⟩ := hmem
      rcases List.mem_cons.1 he with rfl | he
      · exact absurd ((same_iff ⟨key, hid⟩).2 hid) hsame
      · exact ⟨e, he, hid⟩

theorem mem_of_mem_replaceFirst (h : e ∈ replaceFirst s entities) : e = s ∨ e ∈ entities := by
  induction entities with
  | nil => exact .inl (List.mem_singleton.1 h)
  | cons head rest ih =>
    rw [replaceFirst] at h
    split at h
    · rcases List.mem_cons.1 h with hnew | hrest
      · exact .inl hnew
      · exact .inr (List.mem_cons_of_mem _ hrest)
    · rcases List.mem_cons.1 h with hhead | hrest
      · exact .inr (hhead ▸ List.mem_cons_self ..)
      · rcases ih hrest with hnew | hold
        · exact .inl hnew
        · exact .inr (List.mem_cons_of_mem _ hold)

/-- What stands in the list after a replacement: the new entity, and the others. -/
theorem mem_replaceFirst_iff (h : Named entities) (hs : s.id = .ofString key)
    (hmem : ∃ e ∈ entities, e.id = .ofString key) :
    e ∈ replaceFirst s entities ↔ e = s ∨ e ∈ entities ∧ e.id ≠ .ofString key := by
  induction entities with
  | nil =>
    obtain ⟨e, he, -⟩ := hmem
    cases he
  | cons head rest ih =>
    rw [replaceFirst, hs]
    by_cases hsame : head.id.same (.ofString key) = true
    · -- the head stays, and the replacement happens in the rest
      have hhead := (same_iff (h.texts head (List.mem_cons_self ..))).1 hsame
      rw [if_pos hsame, List.mem_cons, List.mem_cons]
      constructor
      · rintro (rfl | he)
        · exact .inl rfl
        · exact .inr ⟨.inr he, hhead ▸ h.head_ne he⟩
      · rintro (rfl | ⟨rfl | he, hne⟩)
        · exact .inl rfl
        · exact absurd hhead hne
        · exact .inr he
    · have hhead : head.id ≠ .ofString key := fun hid => hsame ((same_iff ⟨key, hid⟩).2 hid)
      have hrest : ∃ e ∈ rest, e.id = .ofString key := by
        obtain ⟨e, he, hid⟩ := hmem
        rcases List.mem_cons.1 he with rfl | he
        · exact absurd hid hhead
        · exact ⟨e, he, hid⟩
      rw [if_neg hsame, List.mem_cons, List.mem_cons, ih h.tail hrest]
      constructor
      · rintro (rfl | rfl | ⟨he, hne⟩)
        · exact .inr ⟨.inl rfl, hhead⟩
        · exact .inl rfl
        · exact .inr ⟨.inr he, hne⟩
      · rintro (rfl | ⟨rfl | he, hne⟩)
        · exact .inr (.inl rfl)
        · exact .inl rfl
        · exact .inr (.inr ⟨he, hne⟩)

/-- After a replacement the identities are as distinct as before. -/
theorem Named.replaceFirst (h : Named entities) (hs : s.id = .ofString key)
    (hmem : ∃ e ∈ entities, e.id = .ofString key) : Named (replaceFirst s entities) where
  texts x hx := by
    rcases (mem_replaceFirst_iff h hs hmem).1 hx with hnew | ⟨hold, -⟩
    · rw [hnew]
      exact ⟨key, hs⟩
    · exact h.texts x hold
  distinct := by
    rw [ids_replaceFirst h hs hmem]
    exact h.distinct

theorem mem_others_iff (h : Named entities) :
    e ∈ entities.filter (fun e => !e.id.same (.ofString key))
      ↔ e ∈ entities ∧ e.id ≠ .ofString key := by
  rw [List.mem_filter, Bool.not_eq_true', ← Bool.not_eq_true]
  constructor
  · rintro ⟨hmem, hsame⟩
    exact ⟨hmem, fun hid => hsame ((same_iff ⟨key, hid⟩).2 hid)⟩
  · rintro ⟨hmem, hid⟩
    exact ⟨hmem, fun hsame => hid ((same_iff (h.texts e hmem)).1 hsame)⟩

theorem removeFirst_sublist (id : Id) (entities : List (Entity c)) :
    List.Sublist (removeFirst id entities) entities := by
  induction entities with
  | nil => exact .slnil
  | cons head rest ih =>
    rw [removeFirst]
    split
    · exact List.sublist_cons_self head rest
    · exact ih.cons_cons head

theorem removeFirst_eq_eraseP (id : Id) (entities : List (Entity c)) :
    removeFirst id entities = entities.eraseP fun e => e.id.same id := by
  induction entities with
  | nil => rfl
  | cons head rest ih =>
    rw [removeFirst, List.eraseP_cons]
    cases head.id.same id with
    | true => rfl
    | false => simpa using ih

theorem mem_removeFirst_iff (h : Named entities) :
    e ∈ removeFirst (.ofString key) entities ↔ e ∈ entities ∧ e.id ≠ .ofString key := by
  induction entities with
  | nil => simp [removeFirst]
  | cons head rest ih =>
    rw [removeFirst]
    by_cases hsame : head.id.same (.ofString key) = true
    · have hhead := (same_iff (h.texts head (List.mem_cons_self ..))).1 hsame
      rw [if_pos hsame, List.mem_cons]
      constructor
      · exact fun he => ⟨.inr he, hhead ▸ h.head_ne he⟩
      · rintro ⟨rfl | he, hne⟩
        · exact absurd hhead hne
        · exact he
    · have hhead : head.id ≠ .ofString key := fun hid => hsame ((same_iff ⟨key, hid⟩).2 hid)
      rw [if_neg hsame, List.mem_cons, List.mem_cons, ih h.tail]
      constructor
      · rintro (rfl | ⟨he, hne⟩)
        · exact ⟨.inl rfl, hhead⟩
        · exact ⟨.inr he, hne⟩
      · rintro ⟨rfl | he, hne⟩
        · exact .inl rfl
        · exact .inr ⟨he, hne⟩

/-! ## Appending, and lookups of others -/

theorem find_append_of_ne {x : Entity c} {other : String} (hx : x.id = .ofString key) (hne : other ≠ key) :
    find (.ofString other) (entities ++ [x]) = find (.ofString other) entities := by
  have hnot : x.id.same (.ofString other) = false := by
    rw [hx, ← Bool.not_eq_true, same_ofString]
    exact hne.symm
  rw [find, find, List.find?_append, List.find?_singleton, hnot]
  simp

/-- Two documents with the same other entities give the same for another identity. -/
theorem find_eq_of_mem_iff {entities' : List (Entity c)} {other : String} (h : Named entities)
    (h' : Named entities')
    (hmem : ∀ e, e.id ≠ .ofString key → (e ∈ entities' ↔ e ∈ entities)) (hne : other ≠ key) :
    find (.ofString other) entities' = find (.ofString other) entities := by
  have hid : ∀ e : Entity c, e.id = .ofString other → e.id ≠ .ofString key := by
    intro e he hkey
    exact hne (ofString_inj (he.symm.trans hkey))
  apply Option.ext
  intro e
  rw [h'.find_eq_some_iff, h.find_eq_some_iff]
  constructor
  · rintro ⟨hmem', he⟩
    exact ⟨(hmem e (hid e he)).1 hmem', he⟩
  · rintro ⟨hmem', he⟩
    exact ⟨(hmem e (hid e he)).2 hmem', he⟩

theorem Named.append {x : Entity c} (h : Named entities) (hx : x.id = .ofString key)
    (hfresh : ∀ e ∈ entities, e.id ≠ .ofString key) : Named (entities ++ [x]) where
  texts e he := by
    rcases List.mem_append.1 he with hold | hlast
    · exact h.texts e hold
    · rw [List.mem_singleton.1 hlast]
      exact ⟨key, hx⟩
  distinct := by
    rw [List.map_append, List.nodup_append]
    refine ⟨h.distinct, by simp, fun id hold id' hlast => ?_⟩
    obtain ⟨e, he, rfl⟩ := List.mem_map.1 hold
    obtain ⟨e', he', rfl⟩ := List.mem_map.1 hlast
    rw [List.mem_singleton.1 he', hx]
    exact hfresh e he

end PropertyGraph.Catalog
