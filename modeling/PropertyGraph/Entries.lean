/-
  PropertyGraph.Entries

  Entries under text keys, in the order in which the keys first came.  Property
  bags, stores and indexes are such lists: writing a present key changes its
  value and moves nothing, a new key goes to the end, and removing a key keeps
  the order of the others.
-/

namespace PropertyGraph

/-- A list of entries, each a key and its value. -/
abbrev Entries (α : Type) := List (String × α)

namespace Entries

variable {α β : Type}

/-- The keys, in order. -/
def keys (entries : Entries α) : List String := entries.map Prod.fst

/-- The values, in the order of their keys. -/
def values (entries : Entries α) : List α := entries.map Prod.snd

/-- The value of the first entry under `key`. -/
def get? (key : String) : Entries α → Option α
  | [] => none
  | (k, v) :: rest => if k = key then some v else get? key rest

/-- Writes `value` under `key`: in place when the key is present, else at the end. -/
def insert (key : String) (value : α) : Entries α → Entries α
  | [] => [(key, value)]
  | (k, v) :: rest => if k = key then (key, value) :: rest else (k, v) :: insert key value rest

/-- Drops the first entry under `key`. -/
def erase (key : String) : Entries α → Entries α
  | [] => []
  | (k, v) :: rest => if k = key then rest else (k, v) :: erase key rest

/-- Whether some entry stands under `key`. -/
def contains (key : String) (entries : Entries α) : Bool := (get? key entries).isSome

/-- Writes all entries of `more`, one after the other. -/
def insertAll (entries more : Entries α) : Entries α :=
  more.foldl (fun acc entry => insert entry.1 entry.2 acc) entries

/-- Repeated keys collapse: the first position and the last value win. -/
def collapse (entries : Entries α) : Entries α := insertAll [] entries

/-! ## Reading what was written -/

theorem get?_insert_self (key : String) (value : α) (entries : Entries α) :
    get? key (insert key value entries) = some value := by
  induction entries with
  | nil => simp [insert, get?]
  | cons entry rest ih =>
    obtain ⟨k, v⟩ := entry
    by_cases h : k = key
    · simp [insert, get?, h]
    · simp [insert, get?, h, ih]

theorem get?_insert_of_ne {key other : String} (h : other ≠ key) (value : α)
    (entries : Entries α) : get? other (insert key value entries) = get? other entries := by
  induction entries with
  | nil => simp [insert, get?, Ne.symm h]
  | cons entry rest ih =>
    obtain ⟨k, v⟩ := entry
    by_cases hk : k = key
    · subst hk; simp [insert, get?, Ne.symm h]
    · simp [insert, get?, hk, ih]

/-- A present key keeps its place; a new one goes to the end. -/
theorem keys_insert (key : String) (value : α) (entries : Entries α) :
    keys (insert key value entries)
      = if key ∈ keys entries then keys entries else keys entries ++ [key] := by
  induction entries with
  | nil => simp [insert, keys]
  | cons entry rest ih =>
    obtain ⟨k, v⟩ := entry
    by_cases hk : k = key
    · subst hk; simp [insert, keys]
    · simp only [keys] at ih
      by_cases hm : key ∈ rest.map Prod.fst <;> simp_all [insert, keys, Ne.symm hk]

/-- Writing keeps the keys distinct. -/
theorem nodup_keys_insert {entries : Entries α} (h : (keys entries).Nodup) (key : String)
    (value : α) : (keys (insert key value entries)).Nodup := by
  rw [keys_insert]
  split
  · exact h
  · next hm => exact List.nodup_append.2 ⟨h, by simp, by simp_all; exact fun a ha hk => hm (hk ▸ ha)⟩

end Entries

end PropertyGraph
