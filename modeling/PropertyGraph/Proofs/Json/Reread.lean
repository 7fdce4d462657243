/-
  PropertyGraph.Proofs.Json.Reread

  What a value is after it has been printed and read again.  Each number is what its text
  reads as and repeated keys collapse; all else is unchanged.  So a value without doubles,
  whose integers fit and whose keys are distinct, comes back as it was.  Reading succeeds as
  long as no bracket of the text is cut off by the nesting limit.
-/
import PropertyGraph.Json.Decode
import PropertyGraph.Proofs.Json.PrintedTree

namespace PropertyGraph.Json

/-! ## The value that is read back -/

mutual

/-- A value after it has been printed and read again. -/
def reread : Json → Json
  | .number n => .number n.reread
  | .array items => .array (rereadItems items)
  | .object entries => .object (Entries.collapse (rereadEntries entries))
  | v => v

/-- Values after they have been printed and read again. -/
def rereadItems : List Json → List Json
  | [] => []
  | v :: rest => reread v :: rereadItems rest

/-- Entries after they have been printed and read again, repeated keys included. -/
def rereadEntries : List (String × Json) → List (String × Json)
  | [] => []
  | (k, v) :: rest => (k, reread v) :: rereadEntries rest

end

/-- A bag after it has been printed and read again. -/
def rereadBag (bag : Bag) : Bag := Entries.collapse (rereadEntries bag)

theorem keys_rereadEntries (entries : List (String × Json)) :
    Entries.keys (rereadEntries entries) = Entries.keys entries := by
  induction entries with
  | nil => rfl
  | cons e rest ih =>
    obtain ⟨k, v⟩ := e
    simpa [rereadEntries, Entries.keys] using ih

/-! ## The nesting limit -/

namespace Tree

mutual

/-- No bracket in a tree is cut off by the nesting limit. -/
def withinLimit : Tree → Bool
  | .tooDeep _ => false
  | .array items _ => withinLimitItems items
  | .object entries _ => withinLimitEntries entries
  | _ => true

/-- No bracket in any item is cut off. -/
def withinLimitItems : List Tree → Bool
  | [] => true
  | t :: rest => withinLimit t && withinLimitItems rest

/-- No bracket in any entry is cut off. -/
def withinLimitEntries : List (Option String × Tree) → Bool
  | [] => true
  | (_, t) :: rest => withinLimit t && withinLimitEntries rest

end

theorem withinLimitItems_iff {items : List Tree} :
    withinLimitItems items = true ↔ ∀ t ∈ items, t.withinLimit = true := by
  induction items with
  | nil => simp [withinLimitItems]
  | cons t rest ih => simp [withinLimitItems, ih]

theorem withinLimitEntries_iff {entries : List (Option String × Tree)} :
    withinLimitEntries entries = true ↔ ∀ e ∈ entries, e.2.withinLimit = true := by
  induction entries with
  | nil => simp [withinLimitEntries]
  | cons e rest ih => simp [withinLimitEntries, ih]

/-- A bracket that is not cut off stands inside fewer than 127 others. -/
theorem limited_of_withinLimit {outer : Nat} {tree : Tree} {intact : Bool}
    (h : (limited outer tree intact).withinLimit = true) : limited outer tree intact = tree := by
  unfold limited at h ⊢
  split at h
  · next hlt => rw [if_pos hlt]
  · simp [withinLimit] at h

/-- If no bracket of a printed object is cut off, then none of a value in it. -/
theorem withinLimit_field {outer : Nat} {entries : List (String × Json)}
    (h : (printedTree outer (.object entries)).withinLimit = true) {e : String × Json}
    (he : e ∈ entries) : (printedTree (outer + 1) e.2).withinLimit = true := by
  rw [printedTree] at h
  have hopen := limited_of_withinLimit h
  rw [hopen, withinLimit, withinLimitEntries_iff, printedEntries_eq_map] at h
  exact h _ (List.mem_map_of_mem he)

mutual

/-- The tree of a printed value gives the value that is read back. -/
theorem toJson_printedTree (outer : Nat) (v : Json)
    (h : (printedTree outer v).withinLimit = true) :
    toJson (printedTree outer v) = .ok v.reread := by
  match v with
  | .null => rfl
  | .bool _ => rfl
  | .number _ => rfl
  | .string _ => rfl
  | .array items =>
    rw [printedTree] at h ⊢
    have hopen := limited_of_withinLimit h
    rw [hopen] at h ⊢
    have hitems := toItems_printedItems (outer + 1) items h
    simp [toJson, hitems, reread, bind, Except.bind]
  | .object entries =>
    rw [printedTree] at h ⊢
    have hopen := limited_of_withinLimit h
    rw [hopen] at h ⊢
    have hentries := toEntries_printedEntries (outer + 1) entries h
    simp [toJson, hentries, reread, bind, Except.bind]

theorem toItems_printedItems (outer : Nat) (items : List Json)
    (h : withinLimitItems (printedItems outer items) = true) :
    toItems (printedItems outer items) = .ok (rereadItems items) := by
  match items with
  | [] => rfl
  | v :: rest =>
    simp only [printedItems, withinLimitItems, Bool.and_eq_true] at h
    simp [printedItems, toItems, toJson_printedTree outer v h.1,
      toItems_printedItems outer rest h.2, rereadItems, bind, Except.bind]

theorem toEntries_printedEntries (outer : Nat) (entries : List (String × Json))
    (h : withinLimitEntries (printedEntries outer entries) = true) :
    toEntries (printedEntries outer entries) = .ok (rereadEntries entries) := by
  match entries with
  | [] => rfl
  | (k, v) :: rest =>
    simp only [printedEntries, withinLimitEntries, Bool.and_eq_true] at h
    simp [printedEntries, toEntries, toJson_printedTree outer v h.1,
      toEntries_printedEntries outer rest h.2, rereadEntries, bind, Except.bind]

end

/-- The tree of a printed bag gives the bag that is read back. -/
theorem toBag_printedTree (outer : Nat) (bag : Bag)
    (h : (printedTree outer (.object bag)).withinLimit = true) :
    toBag (printedTree outer (.object bag)) = .ok (rereadBag bag) := by
  rw [printedTree] at h ⊢
  have hopen := limited_of_withinLimit h
  rw [hopen] at h ⊢
  have hentries := toEntries_printedEntries (outer + 1) bag h
  simp [toBag, hentries, rereadBag, bind, Except.bind]

/-- If no bracket of a printed array is cut off, then none of an item in it. -/
theorem withinLimit_item {outer : Nat} {items : List Json}
    (h : (printedTree outer (.array items)).withinLimit = true) {v : Json} (hv : v ∈ items) :
    (printedTree (outer + 1) v).withinLimit = true := by
  rw [printedTree] at h
  have hopen := limited_of_withinLimit h
  rw [hopen, withinLimit, withinLimitItems_iff, printedItems_eq_map] at h
  exact h _ (List.mem_map_of_mem hv)

/-- What is not null is not taken for absent. -/
theorem toOption_printedTree {α : Type} {decode : Tree → Decoded α} {outer : Nat} {v : Json}
    (hv : v ≠ .null) :
    toOption decode (printedTree outer v) = (decode (printedTree outer v)).map some := by
  have hlimited : ∀ t : Tree, toOption decode t = (decode t).map some →
      toOption decode (limited outer t true)
        = (decode (limited outer t true)).map some := by
    intro t ht
    rw [limited]
    split
    · exact ht
    · rfl
  cases v with
  | null => exact absurd rfl hv
  | array items => exact hlimited _ rfl
  | object entries => exact hlimited _ rfl
  | _ => rfl

mutual

/-- A tree whose value is read has no bracket that is cut off. -/
theorem withinLimit_of_toJson (t : Tree) {v : Json} (h : toJson t = .ok v) :
    t.withinLimit = true := by
  match t with
  | .tooDeep _ => cases h
  | .array items closed =>
    cases hitems : toItems items with
    | error e => simp [toJson, hitems, bind, Except.bind] at h
    | ok vs => exact withinLimit_of_toItems items hitems
  | .object entries closed =>
    cases hentries : toEntries entries with
    | error e => simp [toJson, hentries, bind, Except.bind] at h
    | ok vs => exact withinLimit_of_toEntries entries hentries
  | .null | .bool _ | .number _ | .string _ | .plain _ _ | .broken => rfl

theorem withinLimit_of_toItems (items : List Tree) {vs : List Json} (h : toItems items = .ok vs) :
    withinLimitItems items = true := by
  match items with
  | [] => rfl
  | t :: rest =>
    cases ht : toJson t with
    | error e => simp [toItems, ht, bind, Except.bind] at h
    | ok v =>
      cases hrest : toItems rest with
      | error e => simp [toItems, ht, hrest, bind, Except.bind] at h
      | ok more =>
        rw [withinLimitItems, withinLimit_of_toJson t ht, withinLimit_of_toItems rest hrest]
        rfl

theorem withinLimit_of_toEntries (entries : List (Option String × Tree))
    {vs : List (String × Json)} (h : toEntries entries = .ok vs) :
    withinLimitEntries entries = true := by
  match entries with
  | [] => rfl
  | (none, _) :: _ => cases h
  | (some k, t) :: rest =>
    cases ht : toJson t with
    | error e => simp [toEntries, ht, bind, Except.bind] at h
    | ok v =>
      cases hrest : toEntries rest with
      | error e => simp [toEntries, ht, hrest, bind, Except.bind] at h
      | ok more =>
        rw [withinLimitEntries, withinLimit_of_toJson t ht, withinLimit_of_toEntries rest hrest]
        rfl

end

/-- A tree that is read as a bag has no bracket that is cut off. -/
theorem withinLimit_of_toBag {t : Tree} {bag : Bag} (h : toBag t = .ok bag) :
    t.withinLimit = true := by
  cases t with
  | object entries closed =>
    cases hentries : toEntries entries with
    | error e => simp [toBag, hentries, bind, Except.bind] at h
    | ok vs => exact withinLimit_of_toEntries entries hentries
  | tooDeep whole => cases h
  | array items closed => cases h
  | _ => rfl

end Tree

/-! ## Values that come back as they were -/

section Same

variable {p : Number → Prop}

mutual

/-- A proper value whose numbers are read back as they were is read back as it was. -/
theorem Proper.reread_of_same (hp : ∀ n, p n → n.reread = n) : (v : Json) → v.Proper p →
    v.reread = v
  | .null, _ => rfl
  | .bool _, _ => rfl
  | .number n, h => congrArg Json.number (hp n h)
  | .string _, _ => rfl
  | .array items, h => congrArg Json.array (ProperItems.reread_of_same hp items h)
  | .object entries, h => by
    rw [Json.reread, ProperEntries.reread_of_same hp entries h.2, Entries.collapse_of_nodup h.1]

theorem ProperItems.reread_of_same (hp : ∀ n, p n → n.reread = n) : (items : List Json) →
    ProperItems p items → rereadItems items = items
  | [], _ => rfl
  | v :: rest, h => by
    rw [rereadItems, Proper.reread_of_same hp v h.1, ProperItems.reread_of_same hp rest h.2]

theorem ProperEntries.reread_of_same (hp : ∀ n, p n → n.reread = n) :
    (entries : List (String × Json)) → ProperEntries p entries → rereadEntries entries = entries
  | [], _ => rfl
  | (_, v) :: rest, h => by
    rw [rereadEntries, Proper.reread_of_same hp v h.1, ProperEntries.reread_of_same hp rest h.2]

end

end Same

/-- Integers of 64 bits are. -/
theorem Proper.reread (v : Json) (h : v.Proper Number.Whole) : v.reread = v :=
  Proper.reread_of_same (fun _ => Number.Whole.reread) v h

/-- The tree of such a value gives the value itself. -/
theorem Proper.toJson_printedTree {v : Json} (hproper : v.Proper Number.Whole) {outer : Nat}
    (h : (printedTree outer v).withinLimit = true) : (printedTree outer v).toJson = .ok v := by
  rw [Tree.toJson_printedTree outer v h, Proper.reread v hproper]

section Kept

variable {p q : Number → Prop}

mutual

/-- What is read back is proper for every property that reading gives to the numbers. -/
theorem proper_reread (h : ∀ n, p n → q n.reread) : (v : Json) → v.Proper p → v.reread.Proper q
  | .null, _ => trivial
  | .bool _, _ => trivial
  | .number n, hv => h n hv
  | .string _, _ => trivial
  | .array items, hv => properItems_reread h items hv
  | .object entries, hv => proper_collapse (properEntries_reread h entries hv.2)

theorem properItems_reread (h : ∀ n, p n → q n.reread) : (items : List Json) →
    ProperItems p items → ProperItems q (rereadItems items)
  | [], _ => trivial
  | v :: rest, hv => ⟨proper_reread h v hv.1, properItems_reread h rest hv.2⟩

theorem properEntries_reread (h : ∀ n, p n → q n.reread) : (entries : List (String × Json)) →
    ProperEntries p entries → ProperEntries q (rereadEntries entries)
  | [], _ => trivial
  | (_, v) :: rest, hv => ⟨proper_reread h v hv.1, properEntries_reread h rest hv.2⟩

end

end Kept

end PropertyGraph.Json
