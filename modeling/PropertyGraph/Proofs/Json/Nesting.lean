/-
  PropertyGraph.Proofs.Json.Nesting

  How deep the brackets of a value nest, and which values a reader takes: printing has no
  limit, reading one of 127 brackets inside one another.  A value that stands inside `outer`
  brackets is read as long as these and its own stay within the limit, and no bracket of its
  text is cut off then.
-/
import PropertyGraph.Proofs.Entity.Reread

namespace PropertyGraph

namespace Json

mutual

/-- The number of brackets of a value that stand inside one another at most. -/
def nesting : Json → Nat
  | .array items => nestingItems items + 1
  | .object entries => nestingEntries entries + 1
  | _ => 0

/-- The greatest nesting among some items. -/
def nestingItems : List Json → Nat
  | [] => 0
  | v :: rest => max (nesting v) (nestingItems rest)

/-- The greatest nesting among the values of some entries. -/
def nestingEntries : List (String × Json) → Nat
  | [] => 0
  | (_, v) :: rest => max (nesting v) (nestingEntries rest)

end

theorem nestingEntries_le_iff {entries : List (String × Json)} {n : Nat} :
    nestingEntries entries ≤ n ↔ ∀ e ∈ entries, e.2.nesting ≤ n := by
  induction entries with
  | nil => simp [nestingEntries]
  | cons e rest ih =>
    rw [nestingEntries, Nat.max_le, ih]
    simp

theorem nestingEntries_append (first second : List (String × Json)) :
    nestingEntries (first ++ second) = max (nestingEntries first) (nestingEntries second) := by
  induction first with
  | nil => simp [nestingEntries]
  | cons entry rest ih => simp [nestingEntries, ih, max_assoc]

theorem nestingEntries_collapse_le (entries : List (String × Json)) :
    nestingEntries (Entries.collapse entries) ≤ nestingEntries entries :=
  nestingEntries_le_iff.2 fun e he =>
    nestingEntries_le_iff.1 (Nat.le_refl _) e (Entries.mem_of_mem_collapse he)

mutual

/-- What is read back does not nest deeper than what was printed. -/
theorem nesting_reread_le : (v : Json) → v.reread.nesting ≤ v.nesting
  | .null => Nat.le_refl _
  | .bool _ => Nat.le_refl _
  | .number _ => Nat.le_refl _
  | .string _ => Nat.le_refl _
  | .array items => Nat.succ_le_succ (nestingItems_reread_le items)
  | .object entries =>
    Nat.succ_le_succ ((nestingEntries_collapse_le _).trans (nestingEntries_reread_le entries))

theorem nestingItems_reread_le : (items : List Json) →
    nestingItems (rereadItems items) ≤ nestingItems items
  | [] => Nat.le_refl _
  | v :: rest => max_le_max (nesting_reread_le v) (nestingItems_reread_le rest)

theorem nestingEntries_reread_le : (entries : List (String × Json)) →
    nestingEntries (rereadEntries entries) ≤ nestingEntries entries
  | [] => Nat.le_refl _
  | (_, v) :: rest => max_le_max (nesting_reread_le v) (nestingEntries_reread_le rest)

end

/-! ## Limits -/

namespace Tree

mutual

/-- A printed value is read without a bracket being cut off just when its brackets, with those
    around it, are not more than the reader takes. -/
theorem withinLimit_printedTree_iff {outer : Nat} (houter : outer ≤ maxDepth) : (v : Json) →
    ((printedTree outer v).withinLimit = true ↔ outer + v.nesting ≤ maxDepth)
  | .null => by simp [printedTree, withinLimit, nesting, houter]
  | .bool _ => by simp [printedTree, withinLimit, nesting, houter]
  | .number _ => by simp [printedTree, withinLimit, nesting, houter]
  | .string _ => by simp [printedTree, withinLimit, nesting, houter]
  | .array items => by
    rw [printedTree, nesting, limited]
    by_cases hinner : outer < maxDepth
    · rw [if_pos hinner, withinLimit, withinLimitItems_printedItems_iff hinner items]
      omega
    · rw [if_neg hinner, withinLimit]
      simp only [Bool.false_eq_true, false_iff]
      omega
  | .object entries => by
    rw [printedTree, nesting, limited]
    by_cases hinner : outer < maxDepth
    · rw [if_pos hinner, withinLimit, withinLimitEntries_printedEntries_iff hinner entries]
      omega
    · rw [if_neg hinner, withinLimit]
      simp only [Bool.false_eq_true, false_iff]
      omega

theorem withinLimitItems_printedItems_iff {outer : Nat} (houter : outer ≤ maxDepth) :
    (items : List Json) →
    (withinLimitItems (printedItems outer items) = true ↔ outer + nestingItems items ≤ maxDepth)
  | [] => by simp [printedItems, withinLimitItems, nestingItems, houter]
  | v :: rest => by
    rw [printedItems, withinLimitItems, Bool.and_eq_true, withinLimit_printedTree_iff houter v,
      withinLimitItems_printedItems_iff houter rest, nestingItems]
    omega

theorem withinLimitEntries_printedEntries_iff {outer : Nat} (houter : outer ≤ maxDepth) :
    (entries : List (String × Json)) →
    (withinLimitEntries (printedEntries outer entries) = true
      ↔ outer + nestingEntries entries ≤ maxDepth)
  | [] => by simp [printedEntries, withinLimitEntries, nestingEntries, houter]
  | (_, v) :: rest => by
    rw [printedEntries, withinLimitEntries, Bool.and_eq_true, withinLimit_printedTree_iff houter v,
      withinLimitEntries_printedEntries_iff houter rest, nestingEntries]
    omega

end

end Tree

end Json

/-! ## Nodes -/

open Json (printedTree maxDepth)

/-- The deepest bag of a node that can be read back from a document or a snapshot: three
    brackets stand around it there. -/
def Node.maxNesting : Nat := maxDepth - 3

/-- A node in a document is read back just when its bag is not nested too deep. -/
theorem Node.withinLimit_iff {node : Node} {key : String} (hid : node.id = .ofString key) :
    (printedTree 2 node.toJson).withinLimit = true
      ↔ (Json.object node.properties).nesting ≤ Node.maxNesting := by
  rw [Json.Tree.withinLimit_printedTree_iff (by decide)]
  have hnesting : node.toJson.nesting = (Json.object node.properties).nesting + 1 := by
    have htime : ∀ time : Option Int,
        Json.nestingEntries (optionalEntry "updateTime" Json.ofInt time) = 0 := by
      intro time
      cases time <;> rfl
    rw [Entity.toJson, hid, Json.nesting]
    simp only [List.cons_append, List.nil_append, EntityClass.endsEntries, Json.nestingEntries, htime,
      Json.nesting, Id.ofString]
    omega
  rw [hnesting, Node.maxNesting, maxDepth]
  omega

/-! ## Entities of both classes -/

variable {c : EntityClass}

/-- Endpoints that nest no deeper than a bag may. -/
def EntityClass.ShallowEnds : (c : EntityClass) → c.Ends → Prop
  | .node, _ => True
  | .relationship, (ends : Endpoints) =>
    ends.startId.value.nesting ≤ Node.maxNesting ∧ ends.endId.value.nesting ≤ Node.maxNesting

/-- An entity with nothing in it that nests too deep. -/
structure Entity.Shallow (e : Entity c) : Prop where
  properties : (Json.object e.properties).nesting ≤ Node.maxNesting
  ends : c.ShallowEnds e.ends

/-- An entity in a document is read back just when neither its bag nor its endpoints are nested too
    deep. -/
theorem Entity.withinLimit_iff {e : Entity c} {key : String} (hid : e.id = .ofString key) :
    (printedTree 2 e.toJson).withinLimit = true ↔ e.Shallow := by
  cases c with
  | node =>
    rw [Node.withinLimit_iff hid]
    exact ⟨fun h => ⟨h, trivial⟩, Entity.Shallow.properties⟩
  | relationship =>
    obtain ⟨id, type, properties, ⟨startId, endId⟩, updateTime⟩ := e
    obtain rfl : id = .ofString key := hid
    rw [Json.Tree.withinLimit_printedTree_iff (by decide)]
    -- texts and numbers do not nest, so bag and endpoints decide
    have hnesting : (Entity.toJson (c := .relationship)
        ⟨.ofString key, type, properties, ⟨startId, endId⟩, updateTime⟩).nesting
          = max (Json.object properties).nesting
              (max startId.value.nesting endId.value.nesting) + 1 := by
      rw [Entity.toJson, Json.nesting]
      cases updateTime <;>
        simp [EntityClass.endsEntries, optionalEntry, Json.nestingEntries, Json.nesting,
          Id.ofString, Json.ofInt]
    rw [hnesting]
    constructor
    · intro h
      have hall : max (Json.object properties).nesting
          (max startId.value.nesting endId.value.nesting) ≤ Node.maxNesting := by
        rw [Node.maxNesting]
        rw [maxDepth] at h ⊢
        omega
      simp only [Nat.max_le] at hall
      exact ⟨hall.1, hall.2⟩
    · rintro ⟨hbag, hstart, hend⟩
      have hall : max (Json.object properties).nesting
          (max startId.value.nesting endId.value.nesting) ≤ Node.maxNesting :=
        Nat.max_le.2 ⟨hbag, Nat.max_le.2 ⟨hstart, hend⟩⟩
      rw [Node.maxNesting] at hall
      rw [maxDepth] at hall ⊢
      omega

theorem Entity.nesting_reread_le (e : Entity c) : e.reread.toJson.nesting ≤ e.toJson.nesting := by
  have hid := Json.nesting_reread_le e.id.value
  have hbag : (Json.object (Json.rereadBag e.properties)).nesting
      ≤ (Json.object e.properties).nesting := Json.nesting_reread_le (.object e.properties)
  have hends : Json.nestingEntries (c.endsEntries (c.rereadEnds e.ends))
      ≤ Json.nestingEntries (c.endsEntries e.ends) := by
    cases c with
    | node => exact Nat.le_refl _
    | relationship =>
      have hstart := Json.nesting_reread_le e.ends.startId.value
      have hend := Json.nesting_reread_le e.ends.endId.value
      exact max_le_max hstart (max_le_max hend (Nat.le_refl _))
  rw [Entity.toJson, Entity.toJson, Json.nesting, Json.nesting]
  simp only [Json.nestingEntries_append]
  refine Nat.succ_le_succ (max_le_max (max_le_max ?_ hends) (Nat.le_refl _))
  exact max_le_max hid (max_le_max (Nat.le_refl _) (max_le_max hbag (Nat.le_refl _)))

/-- An entity that was read back is printed within the limit if it was before. -/
theorem Entity.withinLimit_reread {e : Entity c} (h : (printedTree 2 e.toJson).withinLimit = true) :
    (printedTree 2 e.reread.toJson).withinLimit = true := by
  rw [Json.Tree.withinLimit_printedTree_iff (by decide)] at h ⊢
  exact (Nat.add_le_add_left e.nesting_reread_le 2).trans h

end PropertyGraph
