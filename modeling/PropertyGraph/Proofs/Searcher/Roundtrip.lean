/-
  PropertyGraph.Proofs.Searcher.Roundtrip

  A searcher that was printed is read as it was, if no bracket is cut off and its values have no
  doubles.  Each form of a searcher is an object with its kind in front, of which the fields are
  taken in twice: once as values, to find the kind, and once as the parts of that kind.
-/
import PropertyGraph.Proofs.Json.Nesting
import PropertyGraph.Searcher.Codec

namespace PropertyGraph.Searcher

open Json (Tree printedTree printedItems printedEntries)

variable {byNumber : Bool} {outer : Nat} {fields : List (String × Json)} {kind : Kind}

/-! ## The kind -/

/-- The views of a printed field. -/
def printedViews (outer : Nat) (v : Json) : Views :=
  ⟨printedTree outer v, fun _ => decodeAt true (printedTree outer v),
    fun _ => decodeMany (printedTree outer v)⟩

theorem fieldViews_printed (outer : Nat) (fields : List (String × Json)) :
    fieldViews (printedEntries outer fields)
      = fields.map fun f => (f.1, printedViews outer f.2) := by
  induction fields with
  | nil => rfl
  | cons f rest ih => rw [printedEntries, fieldViews, ih, List.map_cons, printedViews]

/-- Fields of other names are passed by when the kind is looked for. -/
theorem scanKind_printed (hkeys : ∀ f ∈ fields, f.1 ≠ "kind")
    (hlimit : Tree.withinLimitEntries (printedEntries outer fields) = true) :
    scanKind byNumber (some kind) (printedEntries outer fields) = .ok (some kind) := by
  induction fields with
  | nil => rfl
  | cons f rest ih =>
    obtain ⟨hkey, hrest⟩ := List.forall_mem_cons.1 hkeys
    simp only [printedEntries, Tree.withinLimitEntries, Bool.and_eq_true] at hlimit
    rw [printedEntries, scanKind, if_neg hkey, Tree.toJson_printedTree outer f.2 hlimit.1]
    exact ih hrest hlimit.2

/-- An object with a kind in front is read as what is built of its other fields. -/
theorem decodeAt_printed (kind : Kind) {name : String} (hname : kinds.get? name = some kind)
    (hkeys : ∀ f ∈ fields, f.1 ≠ "kind")
    (hlimit : (printedTree outer (.object (("kind", .string name) :: fields))).withinLimit = true)
    {s : Searcher} (hbuild : build kind
      (("kind", printedViews (outer + 1) (.string name))
        :: fields.map fun f => (f.1, printedViews (outer + 1) f.2)) = .ok s) :
    decodeAt byNumber (printedTree outer (.object (("kind", .string name) :: fields))) = .ok s := by
  rw [printedTree] at hlimit ⊢
  have hopen := Tree.limited_of_withinLimit hlimit
  rw [hopen] at hlimit ⊢
  simp only [Tree.withinLimit, printedEntries, Tree.withinLimitEntries, Bool.and_eq_true]
    at hlimit
  have hnamed : Kind.decode byNumber (printedTree (outer + 1) (.string name)) = .ok kind := by
    cases byNumber <;> simp [printedTree, Kind.decode, Tree.toText, hname, bind, Except.bind]
  have hkind : kindOfEntries byNumber
      (printedEntries (outer + 1) (("kind", .string name) :: fields)) true = .ok kind := by
    rw [kindOfEntries, printedEntries, scanKind, if_pos rfl, hnamed]
    simp [scanKind_printed hkeys hlimit.2, bind, Except.bind]
  rw [decodeAt, hkind, fieldViews_printed]
  simp only [List.map_cons, hbuild]
  rfl

/-! ## Searchers -/

mutual

/-- A printed searcher is read as it was. -/
theorem decodeAt_printedTree (byNumber : Bool) (outer : Nat) (s : Searcher)
    (hproper : s.toJson.Proper Number.Whole)
    (hlimit : (printedTree outer s.toJson).withinLimit = true) :
    decodeAt byNumber (printedTree outer s.toJson) = .ok s := by
  match s with
  | .always =>
    rw [toJson] at hlimit ⊢
    exact decodeAt_printed .always rfl (by simp) hlimit rfl
  | .never =>
    rw [toJson] at hlimit ⊢
    exact decodeAt_printed .never rfl (by simp) hlimit rfl
  | .typeEq type =>
    rw [toJson] at hlimit ⊢
    exact decodeAt_printed .typeEq rfl (by simp) hlimit rfl
  | .propertyEq path value =>
    rw [toJson] at hproper hlimit ⊢
    have hvalue := Json.Proper.toJson_printedTree hproper.2.2.2.1
      (Tree.withinLimit_field hlimit (e := ("value", value)) (by simp))
    refine decodeAt_printed .propertyEq rfl (by simp) hlimit ?_
    simp [build, single, hvalue, printedViews, printedTree, Tree.toText, bind, Except.bind]
  -- the parts of a list are one level further in, where they are read one by one
  | .all searchers =>
    rw [toJson] at hproper hlimit ⊢
    have hmany := decodeMany_printedTree (outer + 1) searchers hproper.2.2.1
      (Tree.withinLimit_field hlimit (e := ("searchers", .array (toItems searchers))) (by simp))
    refine decodeAt_printed .all rfl (by simp) hlimit ?_
    simp [build, single, printedViews, hmany, bind, Except.bind]
  | .any searchers =>
    rw [toJson] at hproper hlimit ⊢
    have hmany := decodeMany_printedTree (outer + 1) searchers hproper.2.2.1
      (Tree.withinLimit_field hlimit (e := ("searchers", .array (toItems searchers))) (by simp))
    refine decodeAt_printed .any rfl (by simp) hlimit ?_
    simp [build, single, printedViews, hmany, bind, Except.bind]
  | .not searcher =>
    rw [toJson] at hproper hlimit ⊢
    have hone := decodeAt_printedTree true (outer + 1) searcher hproper.2.2.1
      (Tree.withinLimit_field hlimit (e := ("searcher", searcher.toJson)) (by simp))
    refine decodeAt_printed .not rfl (by simp) hlimit ?_
    simp [build, single, printedViews, hone, bind, Except.bind]
  | .extension name args =>
    rw [toJson] at hproper hlimit ⊢
    have hargs := Json.Proper.toJson_printedTree hproper.2.2.2.1
      (Tree.withinLimit_field hlimit (e := ("args", args)) (by simp))
    refine decodeAt_printed .extension rfl (by simp) hlimit ?_
    simp [build, single, hargs, printedViews, printedTree, Tree.toText, bind, Except.bind]

/-- A printed array of searchers is read as it was. -/
theorem decodeMany_printedTree (outer : Nat) (searchers : List Searcher)
    (hproper : Json.ProperItems Number.Whole (toItems searchers))
    (hlimit : (printedTree outer (.array (toItems searchers))).withinLimit = true) :
    decodeMany (printedTree outer (.array (toItems searchers))) = .ok searchers := by
  rw [printedTree] at hlimit ⊢
  have hopen := Tree.limited_of_withinLimit hlimit
  rw [hopen] at hlimit ⊢
  exact decodeItems_printedItems (outer + 1) searchers hproper hlimit

/-- Printed searchers are read as they were. -/
theorem decodeItems_printedItems (outer : Nat) (searchers : List Searcher)
    (hproper : Json.ProperItems Number.Whole (toItems searchers))
    (hlimit : Tree.withinLimitItems (printedItems outer (toItems searchers)) = true) :
    decodeItems (printedItems outer (toItems searchers)) = .ok searchers := by
  match searchers with
  | [] => rfl
  | s :: rest =>
    simp only [toItems, printedItems, Tree.withinLimitItems, Bool.and_eq_true] at hlimit
    rw [toItems] at hproper ⊢
    rw [printedItems, decodeItems, decodeAt_printedTree true outer s hproper.1 hlimit.1,
      decodeItems_printedItems outer rest hproper.2 hlimit.2]

end

end PropertyGraph.Searcher
