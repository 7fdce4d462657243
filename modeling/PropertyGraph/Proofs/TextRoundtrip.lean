/-
  PropertyGraph.Proofs.TextRoundtrip

  Entities, bodies, states and searchers survive their texts.  Whatever is printed, compact or
  spread over lines, has one tree; the tree is read as the value, with the keys in order, with
  null where null was and with nothing where nothing was, as long as the value has no doubles
  and its brackets are no more than a reader takes.
-/
import PropertyGraph.Proofs.Json.CompactText
import PropertyGraph.Proofs.Memory.State
import PropertyGraph.Proofs.Transport.Requests

namespace PropertyGraph

open Json (Tree Decoded maxDepth printedTree)

variable {α : Type} {c : EntityClass}

/-- Both texts of an encoding are read as a value. -/
structure Json.Restores (decode : Tree → Decoded α) (encoding : Json) (a : α) : Prop where
  compact : decode (Tree.ofText encoding.text) = .ok a
  pretty : decode (Tree.ofText encoding.pretty) = .ok a

/-- Both texts have the tree of the encoding, so it is enough to read that. -/
theorem Json.restores_of_printedTree {decode : Tree → Decoded α} {encoding : Json} {a : α}
    (hlegible : encoding.Proper Number.Legible) (h : decode (printedTree 0 encoding) = .ok a) :
    Restores decode encoding a where
  compact := by rw [Tree.ofText_text hlegible, h]
  pretty := by rw [Tree.ofText_pretty hlegible, h]

/-- Within the depth of a reader no bracket of the outermost value is cut off. -/
theorem Json.withinLimit_of_nesting {v : Json} (h : v.nesting ≤ maxDepth) :
    (printedTree 0 v).withinLimit = true :=
  (Tree.withinLimit_printedTree_iff (Nat.zero_le _) v).2 (by omega)

/-! ## Entities and bodies -/

theorem Entity.restores {e : Entity c} (he : e.Proper Number.Whole)
    (hdepth : e.toJson.nesting ≤ maxDepth) : Json.Restores Entity.decode e.toJson e := by
  have hproper : e.toJson.Proper Number.Whole := he.toJson Number.stable_whole.whole
  apply Json.restores_of_printedTree (Json.Proper.mono Number.stable_whole.legible _ hproper)
  rw [Entity.decode_printedTree he.time (Json.withinLimit_of_nesting hdepth), he.reread]

theorem Body.Proper.toJson {p : Number → Prop} {b : Body c} (hb : b.Proper p) :
    b.toJson.Proper p := by
  refine ⟨?_, ?_⟩
  · cases c <;> simp [Entries.keys, EntityClass.endsEntries]
  · rw [Json.properEntries_iff]
    intro entry hentry
    rcases List.mem_append.1 hentry with hown | hends
    · simp only [List.mem_cons, List.not_mem_nil, or_false] at hown
      rcases hown with rfl | rfl
      · trivial
      · exact hb.properties
    · exact Json.properEntries_iff.1 (EntityClass.properEntries_ends hb.ends) entry hends

theorem Body.restores {b : Body c} (hb : b.Proper Number.Whole)
    (hdepth : b.toJson.nesting ≤ maxDepth) : Json.Restores Body.decode b.toJson b := by
  apply Json.restores_of_printedTree (Json.Proper.mono Number.stable_whole.legible _ hb.toJson)
  exact Body.decode_printedTree hb (Json.withinLimit_of_nesting hdepth)

/-! ## States -/

namespace GraphState

variable {s : GraphState}

/-- The entities of a state stand inside two brackets of its text. -/
theorem withinLimit_of_nesting (h : s.toJson.nesting ≤ maxDepth) : s.WithinLimit := by
  intro c e he
  have hmaps : ∀ c, (s.entriesJson c).nesting + 1 ≤ maxDepth := by
    rw [toJson_eq] at h
    simp only [Json.nesting, Json.nestingEntries] at h
    intro c
    cases c <;> omega
  -- the one bracket is that of the map, the other that of the state
  have hmap := hmaps c
  rw [entriesJson, Json.nesting] at hmap
  have hentity : e.2.toJson.nesting ≤ Json.nestingEntries
      ((s.entities c).map fun e => (e.1, e.2.toJson)) :=
    Json.nestingEntries_le_iff.1 (Nat.le_refl _) (e.1, e.2.toJson) (List.mem_map_of_mem he)
  exact (Tree.withinLimit_printedTree_iff (by decide) _).2 (by omega)

theorem restores (hkeys : ∀ c, (Entries.keys (s.entities c)).Nodup)
    (hall : ∀ c, ∀ e ∈ s.entities c, e.2.Proper Number.Whole)
    (hdepth : s.toJson.nesting ≤ maxDepth) : Json.Restores decode s.toJson s := by
  have hproper : s.Proper Number.Whole
      (Entries.keys s.nodes ++ Entries.keys s.relationships) := by
    refine ⟨hkeys, ?_, hall⟩
    intro c key hkey
    cases c with
    | node => exact List.mem_append_left _ hkey
    | relationship => exact List.mem_append_right _ hkey
  apply Json.restores_of_printedTree (proper_toJson hproper)
  exact decode_printedTree hproper (withinLimit_of_nesting hdepth)

end GraphState

/-! ## Searchers -/

theorem Searcher.restores {s : Searcher} (hs : s.toJson.Proper Number.Whole)
    (hdepth : s.toJson.nesting ≤ maxDepth) : Json.Restores Searcher.decode s.toJson s := by
  apply Json.restores_of_printedTree (Json.Proper.mono Number.stable_whole.legible _ hs)
  exact Searcher.decodeAt_printedTree false 0 s hs (Json.withinLimit_of_nesting hdepth)

/-! ## All of them -/

/-- Entities and bodies of both classes, states and searchers are read from the compact and
    from the pretty text of their encodings as they were. -/
theorem texts_restore :
    (∀ (c : EntityClass) (e : Entity c), e.Proper Number.Whole →
        e.toJson.nesting ≤ maxDepth → Json.Restores Entity.decode e.toJson e)
      ∧ (∀ (c : EntityClass) (b : Body c), b.Proper Number.Whole →
        b.toJson.nesting ≤ maxDepth → Json.Restores Body.decode b.toJson b)
      ∧ (∀ s : GraphState, (∀ c, (Entries.keys (s.entities c)).Nodup) →
        (∀ c, ∀ e ∈ s.entities c, e.2.Proper Number.Whole) →
        s.toJson.nesting ≤ maxDepth → Json.Restores GraphState.decode s.toJson s)
      ∧ (∀ s : Searcher, s.toJson.Proper Number.Whole →
        s.toJson.nesting ≤ maxDepth → Json.Restores Searcher.decode s.toJson s) :=
  ⟨fun _ _ => Entity.restores, fun _ _ => Body.restores, fun _ => GraphState.restores,
    fun _ => Searcher.restores⟩

/-- A relationship between ends without identities, its keys in no order and its time given. -/
def nullEnds : Relationship where
  id := ⟨.null⟩
  type := "Knows \u2764"
  properties := [("z", .null), ("a", .array [.bool true, .object [("\"", .ofInt (-1))]])]
  ends := (⟨⟨.null⟩, ⟨.ofInt 2⟩⟩ : Endpoints)
  updateTime := some 0

/-- A node without a time. -/
def untimed : Node where
  id := .ofString "b"
  type := ""
  properties := []
  ends := ()
  updateTime := none

/-- A search of two levels, with an extension that has no arguments. -/
def nestedSearch : Searcher :=
  .all [.not (.any []), .extension "near" .null, .propertyEq "$.z" .null]

theorem texts_restore_nulls :
    Json.Restores Entity.decode nullEnds.toJson nullEnds
      ∧ Json.Restores Body.decode
          (⟨"Knows", nullEnds.properties, nullEnds.ends⟩ : Body .relationship).toJson
          ⟨"Knows", nullEnds.properties, nullEnds.ends⟩
      ∧ Json.Restores GraphState.decode
          (⟨[("b", untimed), ("a", untimed)], [("null", nullEnds)]⟩ : GraphState).toJson
          ⟨[("b", untimed), ("a", untimed)], [("null", nullEnds)]⟩
      ∧ Json.Restores Searcher.decode nestedSearch.toJson nestedSearch := by
  obtain ⟨hentities, hbodies, hstates, hsearchers⟩ := texts_restore
  have hnull : nullEnds.Proper Number.Whole := by
    refine ⟨trivial, ?_, ⟨trivial, rfl⟩, ?_⟩
    · simp [nullEnds, Json.Proper, Json.ProperEntries, Json.ProperItems, Json.ofInt,
        Number.Whole, Number.fits, Entries.keys]
    · intro t ht
      obtain rfl := Option.some.inj ht
      decide
  have huntimed : untimed.Proper Number.Whole := by
    refine ⟨trivial, ?_, trivial, fun t ht => by cases ht⟩
    simp [untimed, Json.Proper, Json.ProperEntries, Entries.keys]
  refine ⟨hentities _ _ hnull (by decide), ?_, hstates _ ?_ ?_ (by decide),
    hsearchers _ ?_ (by decide)⟩
  · exact hbodies _ _ ⟨hnull.properties, hnull.ends⟩ (by decide)
  · intro c
    cases c <;> decide
  · intro c e he
    cases c with
    | node =>
      simp only [GraphState.entities, List.mem_cons, List.not_mem_nil, or_false] at he
      rcases he with rfl | rfl <;> exact huntimed
    | relationship =>
      obtain rfl := List.mem_singleton.1 he
      exact hnull
  · simp [nestedSearch, Searcher.toJson, Searcher.toItems, Json.Proper, Json.ProperEntries,
      Json.ProperItems, Entries.keys]

end PropertyGraph
