/-
  PropertyGraph.Proofs.Memory.State

  States as values and as texts.  All operations keep a state proper: its keys distinct and all
  its entities proper.  The text of such a state without doubles is read as that state, if all
  entities are within the nesting limit of the reader, and is not read at all otherwise.
-/
import PropertyGraph.Memory.State
import PropertyGraph.Proofs.Json.Nesting
import PropertyGraph.Proofs.Storage.Changes

namespace PropertyGraph.GraphState

open Json (Tree Record printedTree)

variable {c : EntityClass} {p : Number → Prop} {given given' : List String} {s t : GraphState}

/-! ## Proper states -/

@[simp] theorem entities_withEntities (s : GraphState) (c : EntityClass) (es : Entries (Entity c)) :
    (s.withEntities c es).entities c = es := by
  cases c <;> rfl

theorem entities_withEntities_of_ne (s : GraphState) {c c' : EntityClass} (h : c' ≠ c)
    (es : Entries (Entity c)) : (s.withEntities c es).entities c' = s.entities c' := by
  cases c <;> cases c' <;> first | rfl | exact absurd rfl h

theorem get_insert_self (s : GraphState) (key : String) (e : Entity c) :
    (s.insert key e).get c key = some e := by
  rw [GraphState.get, GraphState.insert, entities_withEntities]
  exact Entries.get?_insert_self ..

theorem get_insert_of_ne (s : GraphState) {key other : String} (h : other ≠ key) (e : Entity c) :
    (s.insert key e).get c other = s.get c other := by
  rw [GraphState.get, GraphState.insert, entities_withEntities]
  exact Entries.get?_insert_of_ne h _ _

/-- The keys of each class are distinct and among those given out, and all entities are proper. -/
structure Proper (p : Number → Prop) (given : List String) (s : GraphState) : Prop where
  distinct : ∀ c, (Entries.keys (s.entities c)).Nodup
  keys : ∀ c, ∀ key ∈ Entries.keys (s.entities c), key ∈ given
  all : ∀ c, ∀ e ∈ s.entities c, e.2.Proper p

theorem proper_empty : Proper p given empty where
  distinct c := by cases c <;> exact List.nodup_nil
  keys c key hkey := by cases c <;> cases hkey
  all c e he := by cases c <;> cases he

theorem Proper.mono (h : s.Proper p given) (hsub : ∀ key ∈ given, key ∈ given') :
    s.Proper p given' where
  distinct := h.distinct
  keys c key hkey := hsub key (h.keys c key hkey)
  all := h.all

theorem Proper.withEntities (h : s.Proper p given) {es : Entries (Entity c)}
    (hdistinct : (Entries.keys es).Nodup) (hkeys : ∀ key ∈ Entries.keys es, key ∈ given)
    (hall : ∀ e ∈ es, e.2.Proper p) : (s.withEntities c es).Proper p given := by
  have hcases : ∀ c', c' = c ∨ (s.withEntities c es).entities c' = s.entities c' := by
    intro c'
    by_cases hclass : c' = c
    · exact .inl hclass
    · exact .inr (entities_withEntities_of_ne s hclass es)
  refine ⟨fun c' => ?_, fun c' => ?_, fun c' => ?_⟩
  · rcases hcases c' with rfl | hsame
    · rw [entities_withEntities]
      exact hdistinct
    · rw [hsame]
      exact h.distinct c'
  · rcases hcases c' with rfl | hsame
    · rw [entities_withEntities]
      exact hkeys
    · rw [hsame]
      exact h.keys c'
  · rcases hcases c' with rfl | hsame
    · rw [entities_withEntities]
      exact hall
    · rw [hsame]
      exact h.all c'

theorem Proper.insert (h : s.Proper p given) {key : String} (hkey : key ∈ given) {e : Entity c}
    (he : e.Proper p) : (s.insert key e).Proper p given := by
  refine h.withEntities (Entries.nodup_keys_insert (h.distinct c) key e) (fun other hother => ?_)
    fun x hx => ?_
  · rw [Entries.keys_insert] at hother
    split at hother
    · exact h.keys c other hother
    · rcases List.mem_append.1 hother with hold | hnew
      · exact h.keys c other hold
      · rw [List.mem_singleton.1 hnew]
        exact hkey
  · rcases Entries.mem_insert hx with rfl | hold
    · exact he
    · exact h.all c x hold

theorem Proper.edit (h : s.Proper p given) {id : Id} {key : String} {patch : Patch c} {time : Int}
    (hpatch : patch.Proper p) (htime : TimeFits time) :
    (s.edit id key patch time).2.Proper p given := by
  rw [GraphState.edit]
  cases hget : s.get c key with
  | none => exact h
  | some e =>
    have hmem := Entries.mem_of_get? hget
    exact h.insert (h.keys c key (List.mem_map_of_mem hmem)) (hpatch.apply (h.all c _ hmem) htime)

theorem Proper.remove (h : s.Proper p given) {id : Id} {key : String} :
    (s.remove c id key).2.Proper p given := by
  rw [GraphState.remove]
  cases s.get c key with
  | none => exact h
  | some e =>
    have hsub := Entries.sublist_erase key (s.entities c)
    exact h.withEntities (Entries.nodup_keys_erase (h.distinct c) key)
      (fun other hother => h.keys c other ((hsub.map Prod.fst).subset hother))
      fun x hx => h.all c x (hsub.subset hx)

/-! ## States as texts -/

/-- No entity is nested deeper than a reader takes. -/
def WithinLimit (s : GraphState) : Prop :=
  ∀ c, ∀ e ∈ s.entities c, (printedTree 2 e.2.toJson).withinLimit = true

theorem withinLimit_empty : WithinLimit empty := by
  intro c e he
  cases c <;> cases he

theorem WithinLimit.insert (h : s.WithinLimit) (key : String) {e : Entity c}
    (he : (printedTree 2 e.toJson).withinLimit = true) : (s.insert key e).WithinLimit := by
  intro c' x hx
  rw [GraphState.insert] at hx
  by_cases hclass : c' = c
  · subst hclass
    rw [entities_withEntities] at hx
    rcases Entries.mem_insert hx with rfl | hold
    · exact he
    · exact h c' x hold
  · rw [entities_withEntities_of_ne s hclass] at hx
    exact h c' x hx

/-- The entities of a class as they are written. -/
def entriesJson (s : GraphState) (c : EntityClass) : Json :=
  .object ((s.entities c).map fun e => (e.1, e.2.toJson))

theorem toJson_eq (s : GraphState) :
    s.toJson = .object [("nodes", s.entriesJson .node),
      ("relationships", s.entriesJson .relationship)] := rfl

theorem proper_entriesJson (h : s.Proper Number.Whole given) (c : EntityClass) :
    (s.entriesJson c).Proper Number.Legible := by
  refine ⟨?_, Json.properEntries_iff.2 fun e he => ?_⟩
  · have hkeys := h.distinct c
    simpa [Entries.keys, Function.comp_def] using hkeys
  · obtain ⟨x, hx, rfl⟩ := List.mem_map.1 he
    exact Json.Proper.mono Number.stable_whole.legible _
      ((h.all c x hx).toJson Number.stable_whole.whole)

theorem proper_toJson (h : s.Proper Number.Whole given) : s.toJson.Proper Number.Legible :=
  ⟨show ["nodes", "relationships"].Nodup by decide, proper_entriesJson h .node,
    proper_entriesJson h .relationship, trivial⟩

theorem printedTree_toJson (s : GraphState) :
    printedTree 0 s.toJson
      = .object [(some "nodes", printedTree 1 (s.entriesJson .node)),
          (some "relationships", printedTree 1 (s.entriesJson .relationship))] true := by
  rw [toJson_eq, printedTree, Tree.limited, if_pos (by decide)]
  rfl

/-- The tree of the text of a state. -/
theorem ofText_pretty (h : s.Proper Number.Whole given) :
    Tree.ofText s.toJson.pretty
      = .object [(some "nodes", printedTree 1 (s.entriesJson .node)),
          (some "relationships", printedTree 1 (s.entriesJson .relationship))] true := by
  rw [Tree.ofText_pretty (proper_toJson h), printedTree_toJson]

theorem toMap_entriesJson (h : s.Proper Number.Whole given) (c : EntityClass)
    (hlimit : ∀ e ∈ s.entities c, (printedTree 2 e.2.toJson).withinLimit = true) :
    Tree.toMap Entity.decode (printedTree 1 (s.entriesJson c)) = .ok (s.entities c) := by
  rw [entriesJson, Document.toMap_printedTree (g := id) (by decide) (h.distinct c)]
  · exact congrArg Except.ok (List.map_id _)
  · intro e he
    have hproper := h.all c e he
    rw [Entity.decode_printedTree hproper.time (hlimit e he), hproper.reread]
    rfl

/-- The tree of a printed state within the nesting limit is read as the state. -/
theorem decode_printedTree (h : s.Proper Number.Whole given) (hlimit : s.WithinLimit) :
    decode (printedTree 0 s.toJson) = .ok s := by
  have hnodes := toMap_entriesJson h .node (hlimit .node)
  have hrelationships := toMap_entriesJson h .relationship (hlimit .relationship)
  rw [printedTree_toJson, decode]
  refine Record.decode_of_reads (Record.reads_map (x := (s.nodes, s.relationships))
    (f := fun x => (⟨x.1, x.2⟩ : GraphState))
    (Record.reads_both (Record.reads_field hnodes) (Record.reads_field hrelationships) ?_))
  intro key value hmem
  obtain ⟨hkey, -⟩ := Prod.mk.inj (List.mem_singleton.1 hmem)
  obtain rfl := Option.some.inj hkey
  exact Record.foreign_field (by decide)

/-- A state within the nesting limit is read as it was written. -/
theorem decode_pretty (h : s.Proper Number.Whole given) (hlimit : s.WithinLimit) :
    decode (Tree.ofText s.toJson.pretty) = .ok s := by
  rw [Tree.ofText_pretty (proper_toJson h), decode_printedTree h hlimit]

/-- A state that is read from its text is within the nesting limit. -/
theorem withinLimit_of_decode (h : s.Proper Number.Whole given)
    (hread : decode (Tree.ofText s.toJson.pretty) = .ok t) : s.WithinLimit := by
  rw [ofText_pretty h, decode] at hread
  have hclass : ∀ c, ∃ ys, Tree.toMap (Entity.decode (c := c)) (printedTree 1 (s.entriesJson c))
      = .ok ys := by
    intro c
    cases c with
    | node =>
      exact Record.of_decode hread (List.mem_cons_self ..)
        (Record.demands_map (Record.demands_both_left Record.demands_field))
    | relationship =>
      exact Record.of_decode hread (List.mem_cons_of_mem _ (List.mem_cons_self ..))
        (Record.demands_map (Record.demands_both_right (Record.foreign_field (by decide))
          Record.demands_field))
  intro c e he
  obtain ⟨ys, hys⟩ := hclass c
  obtain ⟨x, hx⟩ := Document.decoded_of_toMap (by decide) hys e he
  exact Entity.withinLimit_of_decode hx

/-- A state that is read from its text is the one that was written. -/
theorem eq_of_decode (h : s.Proper Number.Whole given)
    (hread : decode (Tree.ofText s.toJson.pretty) = .ok t) : t = s := by
  rw [decode_pretty h (withinLimit_of_decode h hread)] at hread
  exact (Except.ok.inj hread).symm

end PropertyGraph.GraphState
