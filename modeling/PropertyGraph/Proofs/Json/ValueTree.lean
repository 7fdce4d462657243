/-
  PropertyGraph.Proofs.Json.ValueTree

  Values that are read from values.  A reader takes a tree; the tree of a value, which no text
  stands behind, gives the value back as long as its objects repeat no key.  Such a value is also
  the same as itself, whatever the order of its entries.  Where numbers are integers of 64 bits and
  no bracket is cut off, the text of a value has the tree of the value, so that it makes no
  difference whether a value is handed over or written and read.
-/
import PropertyGraph.Proofs.Json.Reread

namespace PropertyGraph

theorem Number.same_self (n : Number) : n.same n = true := by
  cases n with
  | integer i => exact beq_self_eq_true i
  | float x => rw [same, Decimal.Double.same, beq_self_eq_true, Bool.true_or]

namespace Json

variable {p : Number → Prop}

/-! ## Trees of values -/

namespace Tree

mutual

/-- The tree of a value gives the value back. -/
theorem toJson_ofJson : (v : Json) → v.Proper p → toJson (ofJson v) = .ok v
  | .null, _ => rfl
  | .bool _, _ => rfl
  | .number _, _ => rfl
  | .string _, _ => rfl
  | .array items, h => by
    simp [ofJson, toJson, toItems_ofItems items h, bind, Except.bind]
  | .object entries, h => by
    simp [ofJson, toJson, toEntries_ofEntries entries h.2, bind, Except.bind,
      Entries.collapse_of_nodup h.1]

theorem toItems_ofItems : (items : List Json) → ProperItems p items →
    toItems (ofItems items) = .ok items
  | [], _ => rfl
  | v :: rest, h => by
    simp [ofItems, toItems, toJson_ofJson v h.1, toItems_ofItems rest h.2, bind, Except.bind]

theorem toEntries_ofEntries : (entries : List (String × Json)) → ProperEntries p entries →
    toEntries (ofEntries entries) = .ok entries
  | [], _ => rfl
  | (key, v) :: rest, h => by
    simp [ofEntries, toEntries, toJson_ofJson v h.1, toEntries_ofEntries rest h.2, bind,
      Except.bind]

end

/-- The tree of an object gives its entries as a bag. -/
theorem toBag_ofJson {bag : Bag} (h : (Json.object bag).Proper p) :
    toBag (ofJson (.object bag)) = .ok bag := by
  simp [ofJson, toBag, toEntries_ofEntries bag h.2, bind, Except.bind,
    Entries.collapse_of_nodup h.1]

theorem ofEntries_append (first second : List (String × Json)) :
    ofEntries (first ++ second) = ofEntries first ++ ofEntries second := by
  induction first with
  | nil => rfl
  | cons entry rest ih =>
    obtain ⟨key, v⟩ := entry
    rw [List.cons_append, ofEntries, ofEntries, ih, List.cons_append]

theorem mem_of_mem_ofEntries {entries : List (String × Json)} {key : String} {t : Tree}
    (h : (some key, t) ∈ ofEntries entries) : ∃ v, (key, v) ∈ entries := by
  induction entries with
  | nil => cases h
  | cons entry rest ih =>
    obtain ⟨key', v⟩ := entry
    obtain heq | hmem := List.mem_cons.1 h
    · obtain ⟨hkey, -⟩ := Prod.mk.inj heq
      obtain rfl := Option.some.inj hkey
      exact ⟨v, List.mem_cons_self ..⟩
    · obtain ⟨w, hw⟩ := ih hmem
      exact ⟨w, List.mem_cons_of_mem _ hw⟩

/-- The tree of a value is read as a text exactly when the value is that text. -/
theorem toText_ofJson_eq_ok_iff {v : Json} {s : String} :
    toText (ofJson v) = .ok s ↔ v = .string s := by
  cases v <;> simp [ofJson, toText]

/-! ## Trees of texts -/

mutual

/-- The text of a value that comes back as it was has the tree of the value. -/
theorem printedTree_eq_ofJson (outer : Nat) : (v : Json) → v.Proper Number.Whole →
    (printedTree outer v).withinLimit = true → printedTree outer v = ofJson v
  | .null, _, _ => rfl
  | .bool _, _, _ => rfl
  | .number _, h, _ => congrArg (fun n => Tree.number (some n)) (Number.Whole.reread h)
  | .string _, _, _ => rfl
  | .array items, h, hlimit => by
    rw [printedTree] at hlimit ⊢
    have hopen := limited_of_withinLimit hlimit
    rw [hopen] at hlimit ⊢
    rw [printedItems_eq_ofItems (outer + 1) items h hlimit, ofJson]
  | .object entries, h, hlimit => by
    rw [printedTree] at hlimit ⊢
    have hopen := limited_of_withinLimit hlimit
    rw [hopen] at hlimit ⊢
    rw [printedEntries_eq_ofEntries (outer + 1) entries h.2 hlimit, ofJson]

theorem printedItems_eq_ofItems (outer : Nat) : (items : List Json) →
    ProperItems Number.Whole items → withinLimitItems (printedItems outer items) = true →
    printedItems outer items = ofItems items
  | [], _, _ => rfl
  | v :: rest, h, hlimit => by
    rw [printedItems, withinLimitItems, Bool.and_eq_true] at hlimit
    rw [printedItems, printedTree_eq_ofJson outer v h.1 hlimit.1,
      printedItems_eq_ofItems outer rest h.2 hlimit.2, ofItems]

theorem printedEntries_eq_ofEntries (outer : Nat) : (entries : List (String × Json)) →
    ProperEntries Number.Whole entries →
    withinLimitEntries (printedEntries outer entries) = true →
    printedEntries outer entries = ofEntries entries
  | [], _, _ => rfl
  | (key, v) :: rest, h, hlimit => by
    rw [printedEntries, withinLimitEntries, Bool.and_eq_true] at hlimit
    rw [printedEntries, printedTree_eq_ofJson outer v h.1 hlimit.1,
      printedEntries_eq_ofEntries outer rest h.2 hlimit.2, ofEntries]

end

end Tree

/-! ## The same value -/

mutual

/-- A value whose objects repeat no key is the same as itself. -/
theorem Proper.same_self : (v : Json) → v.Proper p → v.same v = true
  | .null, _ => rfl
  | .bool b, _ => beq_self_eq_true b
  | .number n, _ => Number.same_self n
  | .string s, _ => beq_self_eq_true s
  | .array items, h => ProperItems.same_self items h
  | .object entries, h => by
    rw [same, beq_self_eq_true, Bool.true_and]
    exact ProperEntries.same_of_get? entries entries h.2 fun key v hmem =>
      Entries.get?_of_mem h.1 hmem

theorem ProperItems.same_self : (items : List Json) → ProperItems p items →
    sameItems items items = true
  | [], _ => rfl
  | v :: rest, h => by
    rw [sameItems, Proper.same_self v h.1, ProperItems.same_self rest h.2, Bool.true_and]

/-- Entries are found the same wherever each is found under its key. -/
theorem ProperEntries.same_of_get? : (entries other : List (String × Json)) →
    ProperEntries p entries →
    (∀ key v, (key, v) ∈ entries → Entries.get? key other = some v) →
    sameEntries entries other = true
  | [], _, _, _ => rfl
  | (key, v) :: rest, other, h, hfound => by
    rw [sameEntries, hfound key v (List.mem_cons_self ..)]
    simp only [Proper.same_self v h.1, Bool.true_and]
    exact ProperEntries.same_of_get? rest other h.2 fun key' v' hmem =>
      hfound key' v' (List.mem_cons_of_mem _ hmem)

end

end Json

end PropertyGraph
