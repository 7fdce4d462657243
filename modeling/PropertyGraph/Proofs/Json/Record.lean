/-
  PropertyGraph.Proofs.Json.Record

  Reading records from entries that stand in the order of their fields, as printed records
  have them.  `Reads` says which record some entries give; it follows the way a record is
  put together, so that a printed record is read field by field.
-/
import PropertyGraph.Json.Record

namespace PropertyGraph.Json.Record

variable {α β : Type}

/-- A record takes in some entries one after the other, each under a field of its own. -/
def Takes (a : Record α) : a.State → List (Option String × Tree) → a.State → Prop
  | s, [], t => s = t
  | _, (none, _) :: _, _ => False
  | s, (some key, value) :: rest, t =>
    ∃ next, a.accept s key value = some (.ok next) ∧ Takes a next rest t

/-- Some entries give a record. -/
def Reads (a : Record α) (entries : List (Option String × Tree)) (x : α) : Prop :=
  ∃ final, a.Takes a.start entries final ∧ a.finish final = .ok x

/-- A key that names no field of a record. -/
def Foreign (a : Record α) (key : String) : Prop := ∀ s value, a.accept s key value = none

/-! ## Keys of no field -/

theorem foreign_field {name key : String} {decode : Tree → Decoded α} {absent : Decoded α}
    (h : key ≠ name) : (field name decode absent).Foreign key :=
  fun _ _ => if_neg h

theorem foreign_both {a : Record α} {b : Record β} {key : String} (ha : a.Foreign key)
    (hb : b.Foreign key) : (both a b).Foreign key := by
  intro s value
  simp [both, ha s.1 value, hb s.2 value]

theorem foreign_map {f : α → β} {a : Record α} {key : String} (h : a.Foreign key) :
    (map f a).Foreign key := h

theorem foreign_nothing {x : α} {key : String} : (nothing x).Foreign key := fun _ _ => rfl

/-! ## Taking in -/

theorem absorb_of_takes {a : Record α} {s t : a.State} {entries : List (Option String × Tree)}
    (h : a.Takes s entries t) (unknown : Unknown) : a.absorb unknown s entries = .ok t := by
  induction entries generalizing s with
  | nil => exact congrArg Except.ok h
  | cons e rest ih =>
    obtain ⟨key | key, value⟩ := e
    · exact h.elim
    · obtain ⟨next, haccept, hrest⟩ := h
      rw [absorb, haccept]
      exact ih hrest

/-- Where unknown keys are refused, an entry under one ends the reading. -/
theorem absorb_of_foreign {a : Record α} {key : String} (h : a.Foreign key) (s : a.State) (t : Tree)
    (rest : List (Option String × Tree)) :
    a.absorb .refused s ((some key, t) :: rest) = .error .misfit := by
  rw [absorb, h s t]
  rfl

/-- Entries of the second of two records leave the first alone. -/
theorem takes_both_right {a : Record α} {b : Record β} {s : a.State} {t u : b.State}
    {entries : List (Option String × Tree)} (h : b.Takes t entries u)
    (hforeign : ∀ key value, (some key, value) ∈ entries → a.Foreign key) :
    (both a b).Takes (s, t) entries (s, u) := by
  induction entries generalizing t with
  | nil => exact congrArg (Prod.mk s) h
  | cons e rest ih =>
    obtain ⟨key | key, value⟩ := e
    · exact h.elim
    · obtain ⟨next, haccept, hrest⟩ := h
      have hkey : a.accept s key value = none := hforeign key value (List.mem_cons_self ..) s value
      refine ⟨(s, next), by simp [both, hkey, haccept, Except.map], ih hrest ?_⟩
      exact fun k v hk => hforeign k v (List.mem_cons_of_mem _ hk)

/-- Entries of the first of two records come before those of the second. -/
theorem takes_both {a : Record α} {b : Record β} {s s' : a.State} {t t' : b.State}
    {first second : List (Option String × Tree)} (ha : a.Takes s first s')
    (hb : b.Takes t second t')
    (hforeign : ∀ key value, (some key, value) ∈ second → a.Foreign key) :
    (both a b).Takes (s, t) (first ++ second) (s', t') := by
  induction first generalizing s with
  | nil =>
    obtain rfl : s = s' := ha
    exact takes_both_right hb hforeign
  | cons e rest ih =>
    obtain ⟨key | key, value⟩ := e
    · exact ha.elim
    · obtain ⟨next, haccept, hrest⟩ := ha
      exact ⟨(next, t), by simp [both, haccept, Except.map], ih hrest⟩

/-! ## Reading -/

theorem reads_field {name : String} {decode : Tree → Decoded α} {absent : Decoded α} {t : Tree}
    {x : α} (h : decode t = .ok x) : (field name decode absent).Reads [(some name, t)] x :=
  ⟨some x, ⟨some x, by simp [field, h, Except.map], rfl⟩, rfl⟩

theorem reads_absent {name : String} {decode : Tree → Decoded α} {x : α} :
    (field name decode (.ok x)).Reads [] x := ⟨none, rfl, rfl⟩

theorem reads_nothing {x : α} : (nothing x).Reads [] x := ⟨(), rfl, rfl⟩

theorem reads_map {f : α → β} {a : Record α} {entries : List (Option String × Tree)} {x : α}
    (h : a.Reads entries x) : (map f a).Reads entries (f x) := by
  obtain ⟨final, htakes, hfinish⟩ := h
  refine ⟨final, ?_, by simp [map, hfinish, Except.map]⟩
  have hstart : ∀ (s t : a.State) entries, a.Takes s entries t → (map f a).Takes s entries t := by
    intro s t entries
    induction entries generalizing s with
    | nil => exact id
    | cons e rest ih =>
      obtain ⟨key | key, value⟩ := e
      · exact id
      · rintro ⟨next, haccept, hrest⟩
        exact ⟨next, haccept, ih next hrest⟩
  exact hstart _ _ _ htakes

theorem reads_both {a : Record α} {b : Record β} {first second : List (Option String × Tree)}
    {x : α} {y : β} (ha : a.Reads first x) (hb : b.Reads second y)
    (hforeign : ∀ key value, (some key, value) ∈ second → a.Foreign key) :
    (both a b).Reads (first ++ second) (x, y) := by
  obtain ⟨s, htakesA, hfinishA⟩ := ha
  obtain ⟨t, htakesB, hfinishB⟩ := hb
  exact ⟨(s, t), takes_both htakesA htakesB hforeign,
    by simp [both, hfinishA, hfinishB, bind, Except.bind]⟩

/-- An object with entries that give a record is decoded as that record. -/
theorem decode_of_reads {a : Record α} {entries : List (Option String × Tree)} {x : α}
    (h : a.Reads entries x) : a.decode (.object entries true) = .ok x := by
  obtain ⟨final, htakes, hfinish⟩ := h
  have habsorb := absorb_of_takes htakes .skipped
  simp [decode, read, ofEntries, habsorb, hfinish, bind, Except.bind]

/-! ## What a reading that succeeds has read -/

/-- A key names a field of a record, which takes in only values that satisfy `P`. -/
def Demands (a : Record α) (key : String) (P : Tree → Prop) : Prop :=
  ∀ s value, ∃ taken, a.accept s key value = some taken ∧ ∀ next, taken = .ok next → P value

theorem demands_field {name : String} {decode : Tree → Decoded α} {absent : Decoded α} :
    (field name decode absent).Demands name fun t => ∃ x, decode t = .ok x := by
  intro s value
  refine ⟨_, if_pos rfl, fun next hnext => ?_⟩
  split at hnext
  · cases hnext
  · cases hdecode : decode value with
    | error e => rw [hdecode] at hnext; cases hnext
    | ok x => exact ⟨x, rfl⟩

theorem demands_map {f : α → β} {a : Record α} {key : String} {P : Tree → Prop}
    (h : a.Demands key P) : (map f a).Demands key P := h

theorem demands_both_left {a : Record α} {b : Record β} {key : String} {P : Tree → Prop}
    (h : a.Demands key P) : (both a b).Demands key P := by
  intro s value
  obtain ⟨taken, haccept, hP⟩ := h s.1 value
  refine ⟨taken.map fun next => (next, s.2), by simp [both, haccept], fun next hnext => ?_⟩
  cases taken with
  | error e => cases hnext
  | ok first => exact hP first rfl

theorem demands_both_right {a : Record α} {b : Record β} {key : String} {P : Tree → Prop}
    (hforeign : a.Foreign key) (h : b.Demands key P) : (both a b).Demands key P := by
  intro s value
  obtain ⟨taken, haccept, hP⟩ := h s.2 value
  refine ⟨taken.map fun next => (s.1, next), by simp [both, hforeign s.1 value, haccept],
    fun next hnext => ?_⟩
  cases taken with
  | error e => cases hnext
  | ok second => exact hP second rfl

theorem of_absorb {a : Record α} {s t : a.State} {entries : List (Option String × Tree)}
    {unknown : Unknown} (h : a.absorb unknown s entries = .ok t) {key : String} {value : Tree}
    (hmem : (some key, value) ∈ entries) {P : Tree → Prop} (hdemands : a.Demands key P) :
    P value := by
  induction entries generalizing s with
  | nil => cases hmem
  | cons e rest ih =>
    obtain ⟨k | k, v⟩ := e
    · cases h
    · rw [absorb] at h
      cases haccept : a.accept s k v with
      | none =>
        rw [haccept] at h
        -- an unknown field is passed by, so it is another one
        have hother : (some key, value) ∈ rest := by
          rcases List.mem_cons.1 hmem with he | hrest
          · obtain ⟨hkey, hvalue⟩ := Prod.mk.inj he
            obtain ⟨taken, htaken, -⟩ := hdemands s value
            rw [Option.some.inj hkey, hvalue, haccept] at htaken
            cases htaken
          · exact hrest
        simp only at h
        split at h
        · cases h
        · cases hskip : v.skip with
          | error e => rw [hskip] at h; cases h
          | ok u => rw [hskip] at h; exact ih h hother
      | some taken =>
        rw [haccept] at h
        cases taken with
        | error e => cases h
        | ok next =>
          rcases List.mem_cons.1 hmem with he | hrest
          · obtain ⟨hkey, hvalue⟩ := Prod.mk.inj he
            obtain ⟨taken, htaken, hP⟩ := hdemands s value
            rw [Option.some.inj hkey, hvalue, haccept] at htaken
            exact hP next (Option.some.inj htaken).symm
          · exact ih h hrest

/-- The value of a field of an object that was read is one that the field takes in. -/
theorem of_decode {a : Record α} {entries : List (Option String × Tree)} {closed : Bool} {x : α}
    (h : a.decode (.object entries closed) = .ok x) {key : String} {value : Tree}
    (hmem : (some key, value) ∈ entries) {P : Tree → Prop} (hdemands : a.Demands key P) :
    P value := by
  rw [decode, read, ofEntries] at h
  cases habsorb : a.absorb .skipped a.start entries with
  | error e => rw [habsorb] at h; cases h
  | ok t => exact of_absorb habsorb hmem hdemands

end PropertyGraph.Json.Record
