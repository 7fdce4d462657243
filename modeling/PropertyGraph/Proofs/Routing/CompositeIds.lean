/-
  PropertyGraph.Proofs.Routing.CompositeIds

  Composite identities and what is read as one.  A composite is written as an object of two fields.
  It is read from such an object, the fields in either order and nothing beside them, and also from
  an array that holds the two by place; nothing else is read as a composite.  What is read from an
  object is composed to the same identity again, and what is read from an array never is.  `Listed`
  says that an array stands for a composite somewhere on the way to the innermost identity.
-/
import PropertyGraph.Proofs.Json.Record
import PropertyGraph.Proofs.Json.ValueTree
import PropertyGraph.Routing.CompositeId

namespace PropertyGraph

open Json (Tree Decoded Record)

namespace CompositeId

variable {p : Number → Prop} {v : Json} {suite : String} {c : CompositeId}

/-- A value is an object with the two entries of a composite and no others, in either order. -/
inductive Composed (suite : String) (id : Json) : Json → Prop
  | written : Composed suite id (.object [("suite", .string suite), ("id", id)])
  | turned : Composed suite id (.object [("id", id), ("suite", .string suite)])

/-! ## Reading -/

theorem decode_ofJson (h : v.Proper p) : Id.decode (.ofJson v) = .ok ⟨v⟩ := by
  rw [Id.decode, Tree.toJson_ofJson v h]
  rfl

/-- How the entries of an object are taken in, `found` being the fields seen so far. -/
def absorb (found : Option String × Option Id) (entries : List (Option String × Tree)) :
    Decoded (Option String × Option Id) :=
  record.absorb .refused found entries

/-- An entry is one of the two fields and the first under its key, or it is refused. -/
theorem absorb_cons (found : Option String × Option Id) (key : String) (t : Tree)
    (rest : List (Option String × Tree)) :
    absorb found ((some key, t) :: rest)
      = if key = "suite" then
          if found.1.isSome then .error .misfit
          else t.toText >>= fun s => absorb (some s, found.2) rest
        else if key = "id" then
          if found.2.isSome then .error .misfit
          else Id.decode t >>= fun id => absorb (found.1, some id) rest
        else .error .misfit := by
  obtain ⟨s, id⟩ := found
  by_cases hsuite : key = "suite"
  · subst hsuite
    cases s with
    | some s => rfl
    | none =>
      show ((t.toText.map some).map _ >>= _) = _
      cases t.toText <;> rfl
  · by_cases hid : key = "id"
    · subst hid
      cases id with
      | some id => rfl
      | none =>
        show (((Id.decode t).map some).map _ >>= _) = _
        cases Id.decode t <;> rfl
    · have hforeign : record.Foreign key :=
        Record.foreign_map (Record.foreign_both (Record.foreign_field hsuite)
          (Record.foreign_field hid))
      rw [if_neg hsuite, if_neg hid]
      exact Record.absorb_of_foreign hforeign _ t rest

/-- Entries that complete what has been seen to a composite: each gives a field that is still to
    come, and none is left over. -/
inductive Completes (c : CompositeId) : Option String × Option Id → List (String × Json) → Prop
  | done : Completes c (some c.suite, some c.id) []
  | suite {id : Option Id} {rest : List (String × Json)} :
    Completes c (some c.suite, id) rest →
    Completes c (none, id) (("suite", .string c.suite) :: rest)
  | id {suite : Option String} {rest : List (String × Json)} :
    Completes c (suite, some c.id) rest →
    Completes c (suite, none) (("id", c.id.value) :: rest)

section Completes

variable {entries : List (String × Json)} {found : Option String × Option Id}

/-- What has been seen belongs to the composite. -/
theorem Completes.agrees (h : c.Completes found entries) :
    (∀ s, found.1 = some s → s = c.suite) ∧ ∀ id, found.2 = some id → id = c.id := by
  induction h with
  | done => exact ⟨fun s hs => (Option.some.inj hs).symm, fun id hid => (Option.some.inj hid).symm⟩
  | suite _ ih => exact ⟨nofun, ih.2⟩
  | id _ ih => exact ⟨ih.1, nofun⟩

theorem Completes.absorb (h : c.Completes found entries) (hproper : Json.ProperEntries p entries) :
    absorb found (Tree.ofEntries entries) = .ok (some c.suite, some c.id) := by
  induction h with
  | done => rfl
  | suite _ ih =>
    rw [Tree.ofEntries, absorb_cons]
    exact ih hproper.2
  | id _ ih =>
    rw [Tree.ofEntries, absorb_cons, decode_ofJson hproper.1]
    exact ih hproper.2

theorem completes_of_absorb (hproper : Json.ProperEntries p entries)
    (h : absorb found (Tree.ofEntries entries) = .ok (some c.suite, some c.id)) :
    c.Completes found entries := by
  -- entry by entry, whatever has been seen before; a field that comes twice is refused
  induction entries generalizing found with
  | nil =>
    obtain rfl : found = (some c.suite, some c.id) := Except.ok.inj h
    exact .done
  | cons entry rest ih =>
    obtain ⟨key, w⟩ := entry
    obtain ⟨s, id⟩ := found
    rw [Tree.ofEntries, absorb_cons, decode_ofJson hproper.1] at h
    by_cases hsuite : key = "suite"
    · subst hsuite
      rw [if_pos rfl] at h
      cases s with
      | some s => cases h
      | none =>
        cases htext : (Tree.ofJson w).toText with
        | error fault =>
          rw [htext] at h
          cases h
        | ok s =>
          obtain rfl := Tree.toText_ofJson_eq_ok_iff.1 htext
          have hrest := ih hproper.2 h
          -- what is kept under a key is what the composite has there in the end
          obtain rfl := hrest.agrees.1 s rfl
          exact .suite hrest
    · rw [if_neg hsuite] at h
      by_cases hid : key = "id"
      · subst hid
        rw [if_pos rfl] at h
        cases id with
        | some id => cases h
        | none =>
          have hrest := ih hproper.2 h
          obtain rfl := congrArg Id.value (hrest.agrees.2 ⟨w⟩ rfl)
          exact .id hrest
      · rw [if_neg hid] at h
        cases h

/-- Two fields, each of them once, are the two entries in either order. -/
theorem completes_iff_composed :
    c.Completes (none, none) entries ↔ Composed c.suite c.id.value (.object entries) := by
  constructor
  · intro h
    cases h with
    | suite hrest =>
      cases hrest with
      | id hlast =>
        cases hlast
        exact .written
    | id hrest =>
      cases hrest with
      | suite hlast =>
        cases hlast
        exact .turned
  · rintro (_ | _)
    · exact .suite (.id .done)
    · exact .id (.suite .done)

end Completes

/-- The entries of an object are read as a composite exactly when they are its two fields, in
    either order. -/
theorem decode_object_eq_ok_iff {entries : List (String × Json)}
    (h : (Json.object entries).Proper p) :
    decode (.ofJson (.object entries)) = .ok c
      ↔ Composed c.suite c.id.value (.object entries) := by
  have hdecode : decode (.ofJson (.object entries))
      = absorb (none, none) (Tree.ofEntries entries) >>= record.finish := rfl
  rw [hdecode, ← completes_iff_composed]
  constructor
  · intro hread
    refine completes_of_absorb h.2 ?_
    cases hfound : absorb (none, none) (Tree.ofEntries entries) with
    | error fault =>
      rw [hfound] at hread
      cases hread
    | ok found =>
      rw [hfound] at hread
      -- both fields have been found, or there would be no record
      obtain ⟨_ | s, _ | id⟩ := found
      · cases hread
      · cases hread
      · cases hread
      · obtain rfl := Except.ok.inj hread
        rfl
  · intro hcompletes
    rw [hcompletes.absorb h.2]
    rfl

/-- How the items of an array are read, when there are enough of them. -/
theorem decode_items (first second : Tree) (rest : List Tree) :
    decode (.array (first :: second :: rest) true)
      = first.toText >>= fun s => Id.decode second >>= fun id =>
        if rest.isEmpty then .ok ⟨s, id⟩ else .error .malformed := by
  show (((first.toText.map _ >>= _) >>= _) : Decoded CompositeId) = _
  cases first.toText with
  | error fault => rfl
  | ok s =>
    show ((((Id.decode second).map _ >>= _) >>= _) : Decoded CompositeId) = _
    cases Id.decode second with
    | error fault => rfl
    | ok id => cases rest <;> rfl

theorem decode_item (t : Tree) : decode (.array [t] true) ≠ .ok c := by
  intro h
  replace h : (((t.toText.map _ >>= _) >>= _) : Decoded CompositeId) = .ok c := h
  cases htext : t.toText with
  | error fault =>
    rw [htext] at h
    cases h
  | ok s =>
    rw [htext] at h
    cases h

/-- An array is read as a composite when it holds the two fields by place. -/
theorem decode_array_eq_ok_iff {items : List Json} (h : Json.ProperItems p items) :
    decode (.ofJson (.array items)) = .ok c ↔ items = [.string c.suite, c.id.value] := by
  match items with
  | [] => exact ⟨nofun, nofun⟩
  | [first] => exact ⟨fun hread => absurd hread (decode_item _), nofun⟩
  | first :: second :: rest =>
    rw [Tree.ofJson, Tree.ofItems, Tree.ofItems, decode_items, decode_ofJson h.2.1]
    constructor
    · intro hread
      cases htext : (Tree.ofJson first).toText with
      | error fault =>
        rw [htext] at hread
        cases hread
      | ok s =>
        rw [htext] at hread
        obtain rfl := Tree.toText_ofJson_eq_ok_iff.1 htext
        cases rest with
        | nil =>
          obtain rfl := Except.ok.inj hread
          rfl
        | cons third rest => cases hread
    · rintro ⟨⟩
      rfl

/-! ## What is read as a composite -/

/-- A value is read as a composite exactly when it is the object of the two fields or the array of
    them. -/
theorem ofId_eq_ok_iff (h : v.Proper p) :
    ofId ⟨v⟩ = .ok c
      ↔ Composed c.suite c.id.value v ∨ v = .array [.string c.suite, c.id.value] := by
  have hdecode : ofId ⟨v⟩ = .ok c ↔ decode (.ofJson v) = .ok c := by
    rw [ofId]
    cases decode (.ofJson v) <;> simp
  rw [hdecode]
  cases v with
  | object entries =>
    rw [decode_object_eq_ok_iff h]
    simp
  | array items =>
    rw [decode_array_eq_ok_iff h]
    constructor
    · rintro rfl
      exact .inr rfl
    · rintro (hcomposed | heq)
      · cases hcomposed
      · exact Json.array.inj heq
  | _ =>
    refine ⟨nofun, ?_⟩
    rintro (hcomposed | heq)
    · cases hcomposed
    · cases heq

/-- What is not read as a composite is reported as it stands. -/
theorem ofId_eq_error {id : Id} {failure : Failure} (h : ofId id = .error failure) :
    failure = .identity (.notComposite id) := by
  rw [ofId] at h
  split at h
  · cases h
  · exact (Except.error.inj h).symm

/-- A composite is read as it was composed, whatever native identity it holds. -/
theorem ofId_toId_of_proper (h : c.id.value.Proper p) : ofId c.toId = .ok c := by
  have hproper : c.toId.value.Proper p := by
    show (Json.object _).Proper p
    exact ⟨by simp [Entries.keys], trivial, h, trivial⟩
  exact (ofId_eq_ok_iff hproper).2 (.inl .written)

/-! ## Composing again -/

/-- The object that an identity was read from is composed again, if the native identity is the
    same. -/
theorem Composed.same_toId {w : Json} (h : Composed suite w v) (id : Id) :
    (CompositeId.mk suite id).toId.same ⟨v⟩ = id.same ⟨w⟩ := by
  cases h <;> simp [toId, Id.same, Json.same, Json.sameEntries, Entries.get?]

/-- An array is never composed again. -/
theorem not_same_array (c : CompositeId) (items : List Json) :
    c.toId.same ⟨.array items⟩ = false := rfl

theorem Composed.isObject {w : Json} (h : Composed suite w v) : ∃ entries, v = .object entries := by
  cases h
  · exact ⟨_, rfl⟩
  · exact ⟨_, rfl⟩

theorem Composed.proper {w : Json} (h : Composed suite w v) (hproper : v.Proper p) : w.Proper p := by
  cases h with
  | written => exact hproper.2.2.1
  | turned => exact hproper.2.1

theorem Composed.get?_id {w : Json} (h : Composed suite w v) :
    Entries.get? "id" v.toBag = some w := by
  cases h <;> rfl

/-- What was read from an object is composed to the same identity again; what was read from an
    array is not. -/
theorem toId_same_iff (h : v.Proper p) (hread : ofId ⟨v⟩ = .ok c) :
    c.toId.same ⟨v⟩ = true ↔ ∃ entries, v = .object entries := by
  obtain hcomposed | rfl := (ofId_eq_ok_iff h).1 hread
  · refine ⟨fun _ => hcomposed.isObject, fun _ => ?_⟩
    exact (hcomposed.same_toId c.id).trans (hcomposed.proper h).same_self
  · exact ⟨fun hsame => (by rw [not_same_array] at hsame; cases hsame), nofun⟩

/-! ## Arrays for composites -/

/-- Somewhere on the way to the innermost native identity, an array stands for a composite. -/
inductive Listed : Json → Prop
  | array (suite : String) (id : Json) : Listed (.array [.string suite, id])
  | inside {suite : String} {id v : Json} : Composed suite id v → Listed id → Listed v

theorem not_listed_string (s : String) : ¬ Listed (.string s) := by
  intro h
  cases h with
  | inside hcomposed _ => cases hcomposed

theorem Composed.listed_iff {w : Json} (h : Composed suite w v) : Listed v ↔ Listed w := by
  refine ⟨fun hlisted => ?_, .inside h⟩
  cases hlisted with
  | array suite id => cases h
  | inside hinner hid =>
    obtain rfl := Option.some.inj (hinner.get?_id.symm.trans h.get?_id)
    exact hid

end CompositeId

end PropertyGraph
