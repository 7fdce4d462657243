/-
  PropertyGraph.Proofs.Json.Proper

  Values whose objects repeat no key and whose numbers all have some property.  A value that
  was read from a text is of this kind, the property being that the number has a place in
  64 bits.
-/
import PropertyGraph.Json.Basic
import PropertyGraph.Proofs.Entries

namespace PropertyGraph.Json

mutual

/-- No object in a value repeats a key, and all numbers in it satisfy `p`. -/
def Proper (p : Number → Prop) : Json → Prop
  | .number n => p n
  | .array items => ProperItems p items
  | .object entries => (Entries.keys entries).Nodup ∧ ProperEntries p entries
  | _ => True

/-- All of some values are proper. -/
def ProperItems (p : Number → Prop) : List Json → Prop
  | [] => True
  | v :: rest => Proper p v ∧ ProperItems p rest

/-- The values of some entries are proper. -/
def ProperEntries (p : Number → Prop) : List (String × Json) → Prop
  | [] => True
  | (_, v) :: rest => Proper p v ∧ ProperEntries p rest

end

variable {p q : Number → Prop}

theorem properItems_iff {items : List Json} :
    ProperItems p items ↔ ∀ v ∈ items, v.Proper p := by
  induction items with
  | nil => simp [ProperItems]
  | cons v rest ih => simp [ProperItems, ih]

theorem properEntries_iff {entries : List (String × Json)} :
    ProperEntries p entries ↔ ∀ e ∈ entries, e.2.Proper p := by
  induction entries with
  | nil => simp [ProperEntries]
  | cons e rest ih => simp [ProperEntries, ih]

mutual

/-- A weaker property of numbers holds as well. -/
theorem Proper.mono (h : ∀ n, p n → q n) : (v : Json) → v.Proper p → v.Proper q
  | .null, _ => trivial
  | .bool _, _ => trivial
  | .number n, hv => h n hv
  | .string _, _ => trivial
  | .array items, hv => ProperItems.mono h items hv
  | .object entries, hv => ⟨hv.1, ProperEntries.mono h entries hv.2⟩

theorem ProperItems.mono (h : ∀ n, p n → q n) : (items : List Json) →
    ProperItems p items → ProperItems q items
  | [], _ => trivial
  | v :: rest, hv => ⟨Proper.mono h v hv.1, ProperItems.mono h rest hv.2⟩

theorem ProperEntries.mono (h : ∀ n, p n → q n) : (entries : List (String × Json)) →
    ProperEntries p entries → ProperEntries q entries
  | [], _ => trivial
  | (_, v) :: rest, hv => ⟨Proper.mono h v hv.1, ProperEntries.mono h rest hv.2⟩

end

/-! ## Collapsing entries -/

theorem properEntries_insert {entries : Entries Json} (h : ProperEntries p entries) {key : String}
    {v : Json} (hv : v.Proper p) : ProperEntries p (entries.insert key v) := by
  rw [properEntries_iff] at h ⊢
  intro e he
  rcases Entries.mem_insert he with rfl | he
  · exact hv
  · exact h e he

/-- Collapsing makes proper values of entries under any keys. -/
theorem proper_collapse {entries : Entries Json} (h : ProperEntries p entries) :
    (Json.object (Entries.collapse entries)).Proper p := by
  have hfold : ∀ more acc : Entries Json, ProperEntries p more → ProperEntries p acc →
      ProperEntries p (Entries.insertAll acc more) := by
    intro more
    induction more with
    | nil => exact fun _ _ hacc => hacc
    | cons e rest ih =>
      intro acc hmore hacc
      exact ih _ hmore.2 (properEntries_insert hacc hmore.1)
  exact ⟨Entries.nodup_keys_collapse entries, hfold entries [] h trivial⟩

end PropertyGraph.Json
