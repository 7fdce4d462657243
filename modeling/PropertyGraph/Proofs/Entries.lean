/-
  PropertyGraph.Proofs.Entries

  More laws of entries: what is in them after a write or a removal, and when collapsing
  leaves them as they are.
-/
import PropertyGraph.Entries

namespace PropertyGraph.Entries

variable {α β : Type}

/-! ## Membership -/

theorem mem_insert {key : String} {value : α} {entries : Entries α} {e : String × α}
    (h : e ∈ insert key value entries) : e = (key, value) ∨ e ∈ entries := by
  induction entries with
  | nil => exact .inl (by simpa [insert] using h)
  | cons entry rest ih =>
    obtain ⟨k, v⟩ := entry
    by_cases hk : k = key
    · rcases List.mem_cons.1 (by simpa [insert, hk] using h) with h | h
      · exact .inl h
      · exact .inr (List.mem_cons_of_mem _ h)
    · rcases List.mem_cons.1 (by simpa [insert, hk] using h) with h | h
      · exact .inr (by rw [h]; exact List.mem_cons_self ..)
      · rcases ih h with h | h
        · exact .inl h
        · exact .inr (List.mem_cons_of_mem _ h)

/-- What a key gives is one of the entries. -/
theorem mem_of_get? {key : String} {value : α} {entries : Entries α}
    (h : get? key entries = some value) : (key, value) ∈ entries := by
  induction entries with
  | nil => simp [get?] at h
  | cons entry rest ih =>
    obtain ⟨k, v⟩ := entry
    by_cases hk : k = key
    · have hv : v = value := by simpa [get?, hk] using h
      simp [hk, hv]
    · exact List.mem_cons_of_mem _ (ih (by simpa [get?, hk] using h))

/-- Under distinct keys every entry is what its key gives. -/
theorem get?_of_mem {key : String} {value : α} {entries : Entries α}
    (hnodup : (keys entries).Nodup) (h : (key, value) ∈ entries) :
    get? key entries = some value := by
  induction entries with
  | nil => cases h
  | cons entry rest ih =>
    obtain ⟨k, v⟩ := entry
    have hcons : k ∉ keys rest ∧ (keys rest).Nodup := List.nodup_cons.1 hnodup
    rcases List.mem_cons.1 h with h | h
    · simp [get?, (Prod.mk.inj h).1, (Prod.mk.inj h).2]
    · have hk : k ≠ key := by
        rintro rfl
        exact hcons.1 (List.mem_map.2 ⟨_, h, rfl⟩)
      simpa [get?, hk] using ih hcons.2 h

theorem get?_eq_none_iff {key : String} {entries : Entries α} :
    get? key entries = none ↔ key ∉ keys entries := by
  induction entries with
  | nil => simp [get?, keys]
  | cons entry rest ih =>
    obtain ⟨k, v⟩ := entry
    by_cases hk : k = key
    · simp [get?, keys, hk]
    · have hk' : ¬ key = k := fun h => hk h.symm
      simpa [get?, keys, hk, hk'] using ih

/-- No entry stands under a key that gives nothing. -/
theorem ne_of_get?_eq_none {key : String} {entries : Entries α} (h : get? key entries = none)
    {e : String × α} (he : e ∈ entries) : e.1 ≠ key :=
  fun heq => get?_eq_none_iff.1 h (List.mem_map.2 ⟨e, he, heq⟩)

/-- Under distinct keys no entry has the key of one before it. -/
theorem not_mem_keys_of_nodup {before after : Entries α} {e : String × α}
    (h : (keys (before ++ e :: after)).Nodup) : e.1 ∉ keys before := by
  intro hmem
  rw [keys, List.map_append, List.nodup_append] at h
  exact h.2.2 e.1 hmem e.1 (by simp) rfl

/-! ## Removing -/

theorem get?_erase_of_ne {key other : String} (h : other ≠ key) (entries : Entries α) :
    get? other (erase key entries) = get? other entries := by
  induction entries with
  | nil => rfl
  | cons entry rest ih =>
    obtain ⟨k, v⟩ := entry
    by_cases hk : k = key
    · simp [erase, get?, hk, Ne.symm h]
    · by_cases ho : k = other
      · subst ho
        simp [erase, get?, hk]
      · simp [erase, get?, hk, ho, ih]

theorem sublist_erase (key : String) (entries : Entries α) :
    List.Sublist (erase key entries) entries := by
  induction entries with
  | nil => exact .slnil
  | cons entry rest ih =>
    obtain ⟨k, v⟩ := entry
    by_cases hk : k = key
    · simp [erase, hk]
    · simpa [erase, hk] using ih

/-- Removing keeps the keys distinct. -/
theorem nodup_keys_erase {entries : Entries α} (h : (keys entries).Nodup) (key : String) :
    (keys (erase key entries)).Nodup :=
  h.sublist ((sublist_erase key entries).map _)

/-- Under distinct keys nothing is left under a key that was removed. -/
theorem get?_erase_self {key : String} {entries : Entries α} (h : (keys entries).Nodup) :
    get? key (erase key entries) = none := by
  induction entries with
  | nil => rfl
  | cons entry rest ih =>
    obtain ⟨k, v⟩ := entry
    have hcons : k ∉ keys rest ∧ (keys rest).Nodup := List.nodup_cons.1 h
    by_cases hk : k = key
    · subst hk
      simpa [erase, get?_eq_none_iff] using hcons.1
    · simpa [erase, get?, hk] using ih hcons.2

/-- Under distinct keys a removal takes away all there is under a key, and nothing else. -/
theorem erase_eq_filter {key : String} {entries : Entries α} (h : (keys entries).Nodup) :
    erase key entries = entries.filter fun entry => entry.1 ≠ key := by
  induction entries with
  | nil => rfl
  | cons entry rest ih =>
    obtain ⟨k, v⟩ := entry
    obtain ⟨hhead, hrest⟩ : k ∉ keys rest ∧ (keys rest).Nodup := List.nodup_cons.1 h
    by_cases hk : k = key
    · subst hk
      have hothers : ∀ entry ∈ rest, decide (entry.1 ≠ k) = true := by
        intro entry hentry
        simpa using fun he : entry.1 = k => hhead (he ▸ List.mem_map_of_mem hentry)
      rw [List.filter_cons_of_neg (by simp), List.filter_eq_self.2 hothers]
      simp [erase]
    · rw [List.filter_cons_of_pos (by simpa using hk), ← ih hrest]
      simp [erase, hk]

/-! ## Collapsing -/

theorem nodup_keys_collapse (entries : Entries α) : (keys (collapse entries)).Nodup := by
  have hfold : ∀ more acc : Entries α, (keys acc).Nodup → (keys (insertAll acc more)).Nodup := by
    intro more
    induction more with
    | nil => exact fun _ h => h
    | cons e rest ih => exact fun acc h => ih _ (nodup_keys_insert h e.1 e.2)
  exact hfold entries [] List.nodup_nil

/-- Collapsing makes no new entries. -/
theorem mem_of_mem_collapse {entries : Entries α} {e : String × α} (h : e ∈ collapse entries) :
    e ∈ entries := by
  have hfold : ∀ more acc : Entries α, e ∈ insertAll acc more → e ∈ acc ∨ e ∈ more := by
    intro more
    induction more with
    | nil => exact fun _ h => .inl h
    | cons x rest ih =>
      intro acc hmem
      rcases ih (insert x.1 x.2 acc) hmem with hnew | hrest
      · rcases mem_insert hnew with rfl | hold
        · exact .inr (List.mem_cons_self ..)
        · exact .inl hold
      · exact .inr (List.mem_cons_of_mem _ hrest)
  exact (hfold entries [] h).resolve_left List.not_mem_nil

theorem insert_of_not_mem {key : String} {value : α} {entries : Entries α}
    (h : key ∉ keys entries) : insert key value entries = entries ++ [(key, value)] := by
  induction entries with
  | nil => rfl
  | cons entry rest ih =>
    obtain ⟨k, v⟩ := entry
    have hcons : ¬ key = k ∧ key ∉ keys rest := by simpa [keys] using h
    have hk : ¬ k = key := fun he => hcons.1 he.symm
    simp [insert, hk, ih hcons.2]

/-- Entries under distinct keys collapse to themselves. -/
theorem collapse_of_nodup {entries : Entries α} (h : (keys entries).Nodup) :
    collapse entries = entries := by
  have hfold : ∀ more acc : Entries α, (keys (acc ++ more)).Nodup →
      insertAll acc more = acc ++ more := by
    intro more
    induction more with
    | nil => intro acc _; simp [insertAll]
    | cons e rest ih =>
      intro acc hacc
      have hkey : e.1 ∉ keys acc := not_mem_keys_of_nodup hacc
      have hstep : insertAll acc (e :: rest) = insertAll (acc ++ [e]) rest := by
        rw [insertAll, List.foldl_cons, insert_of_not_mem hkey]
        rfl
      rw [hstep, ih (acc ++ [e]) (by simpa using hacc), List.append_assoc, List.singleton_append]
  simpa [collapse] using hfold entries [] (by simpa using h)

/-- What a key gives after collapsing, if all values that stand under it are the same. -/
theorem get?_collapse {key : String} {value : α} {entries : Entries α}
    (h : ∀ e ∈ entries, e.1 = key → e.2 = value) :
    get? key (collapse entries) = if key ∈ keys entries then some value else none := by
  have hfold : ∀ more acc : Entries α, (∀ e ∈ more, e.1 = key → e.2 = value) →
      get? key (insertAll acc more) = if key ∈ keys more then some value else get? key acc := by
    intro more
    induction more with
    | nil => exact fun acc _ => rfl
    | cons e rest ih =>
      intro acc hmore
      obtain ⟨k, v⟩ := e
      have hrest := ih (insert k v acc) fun e he => hmore e (List.mem_cons_of_mem _ he)
      have hstep : insertAll acc ((k, v) :: rest) = insertAll (insert k v acc) rest := rfl
      rw [hstep, hrest]
      by_cases hk : k = key
      · have hv : v = value := hmore (k, v) (List.mem_cons_self ..) hk
        have hmem : key ∈ keys ((k, v) :: rest) := by simp [keys, hk]
        rw [if_pos hmem, ← hk, ← hv, get?_insert_self, ite_self]
      · have hk' : key ≠ k := fun he => hk he.symm
        have hmem : key ∈ keys ((k, v) :: rest) ↔ key ∈ keys rest := by simp [keys, hk']
        rw [get?_insert_of_ne hk']
        simp only [hmem]
  simpa [collapse, get?] using hfold entries [] h

/-! ## Writing -/

/-- Writing what stands there already changes nothing. -/
theorem insert_of_get? {key : String} {value : α} {entries : Entries α}
    (h : get? key entries = some value) : insert key value entries = entries := by
  induction entries with
  | nil => cases h
  | cons entry rest ih =>
    obtain ⟨k, v⟩ := entry
    by_cases hk : k = key
    · have hv : v = value := by simpa [get?, hk] using h
      simp [insert, hk, hv]
    · have hrest := ih (by simpa [get?, hk] using h)
      simp [insert, hk, hrest]

/-- A change under a key that stands there keeps the keys. -/
theorem keys_insert_of_mem {key : String} {entries : Entries α} (h : key ∈ keys entries)
    (value : α) :
    keys (insert key value entries) = keys entries := by
  rw [keys_insert, if_pos h]

theorem mem_keys_iff {key : String} {entries : Entries α} :
    key ∈ keys entries ↔ ∃ value, get? key entries = some value := by
  rw [← Option.ne_none_iff_exists', ne_eq, get?_eq_none_iff, Decidable.not_not]

/-- A change from a value that is passed over to another one leaves what is let pass. -/
theorem filter_values_insert {p : α → Bool} {key : String} {old new : α} {entries : Entries α}
    (hget : get? key entries = some old) (hold : p old = false) (hnew : p new = false) :
    (insert key new entries).values.filter p = entries.values.filter p := by
  induction entries with
  | nil => cases hget
  | cons entry rest ih =>
    obtain ⟨k, v⟩ := entry
    rw [get?] at hget
    rw [insert]
    split at hget
    · next hk =>
      obtain rfl := Option.some.inj hget
      rw [if_pos hk]
      simp [values, hold, hnew]
    · next hk =>
      rw [if_neg hk]
      have hrest := ih hget
      simp only [values, List.map_cons, List.filter_cons] at hrest ⊢
      rw [hrest]

/-- So does the removal of a value that is passed over. -/
theorem filter_values_erase {p : α → Bool} {key : String} {old : α} {entries : Entries α}
    (hget : get? key entries = some old) (hold : p old = false) :
    (erase key entries).values.filter p = entries.values.filter p := by
  induction entries with
  | nil => cases hget
  | cons entry rest ih =>
    obtain ⟨k, v⟩ := entry
    rw [get?] at hget
    rw [erase]
    split at hget
    · next hk =>
      obtain rfl := Option.some.inj hget
      rw [if_pos hk]
      simp [values, hold]
    · next hk =>
      rw [if_neg hk]
      have hrest := ih hget
      simp only [values, List.map_cons, List.filter_cons] at hrest ⊢
      rw [hrest]

theorem insertAll_append (first second third : Entries α) :
    insertAll first (second ++ third) = insertAll (insertAll first second) third := by
  rw [insertAll, insertAll, insertAll, List.foldl_append]

end PropertyGraph.Entries
