/-
  PropertyGraph.Proofs.Entity.Reread

  Entities in documents.  An entity that was written into a document and is read from there
  has the same type and time; its identity, bag and endpoints are what reading makes of
  them.
-/
import PropertyGraph.Entity.Codec
import PropertyGraph.Proofs.Json.Record
import PropertyGraph.Proofs.Json.Reread

namespace PropertyGraph

open Json (Tree Record Decoded printedTree printedEntries)

variable {c : EntityClass} {p q : Number → Prop}

/-! ## The entity that is read back -/

/-- An identity after it has been printed and read again. -/
def Id.reread (id : Id) : Id := ⟨id.value.reread⟩

/-- Endpoints after they have been printed and read again. -/
def EntityClass.rereadEnds : (c : EntityClass) → c.Ends → c.Ends
  | .node, ends => ends
  | .relationship, (ends : Endpoints) =>
    (⟨ends.startId.reread, ends.endId.reread⟩ : Endpoints)

/-- An entity after it has been printed and read again. -/
def Entity.reread (e : Entity c) : Entity c :=
  { id := e.id.reread
    type := e.type
    properties := Json.rereadBag e.properties
    ends := c.rereadEnds e.ends
    updateTime := e.updateTime }

/-! ## Proper entities -/

/-- Whether a time has a place in 64 bits with sign. -/
def TimeFits (time : Int) : Prop := -9223372036854775808 ≤ time ∧ time ≤ 9223372036854775807

instance (time : Int) : Decidable (TimeFits time) := inferInstanceAs (Decidable (_ ∧ _))

/-- The endpoints are proper values. -/
def EntityClass.ProperEnds (p : Number → Prop) : (c : EntityClass) → c.Ends → Prop
  | .node, _ => True
  | .relationship, (ends : Endpoints) => ends.startId.value.Proper p ∧ ends.endId.value.Proper p

/-- All values in an entity are proper, and its time has a place. -/
structure Entity.Proper (p : Number → Prop) (e : Entity c) : Prop where
  id : e.id.value.Proper p
  properties : (Json.object e.properties).Proper p
  ends : c.ProperEnds p e.ends
  time : ∀ t, e.updateTime = some t → TimeFits t

theorem TimeFits.fits {t : Int} (h : TimeFits t) : Number.fits t = true := by
  simp only [TimeFits] at h
  simp only [Number.fits, Bool.and_eq_true, decide_eq_true_eq]
  omega

/-- What is read back is proper for every property that reading gives to the numbers. -/
theorem Entity.proper_reread (h : ∀ n, p n → q n.reread) {e : Entity c} (he : e.Proper p) :
    e.reread.Proper q where
  id := Json.proper_reread h _ he.id
  properties := Json.proper_reread h _ he.properties
  ends := by
    cases c with
    | node => trivial
    | relationship =>
      exact ⟨Json.proper_reread h _ he.ends.1, Json.proper_reread h _ he.ends.2⟩
  time := he.time

/-- Endpoints whose numbers are read back as they were are read back as they were. -/
theorem EntityClass.ProperEnds.reread (hp : ∀ n, p n → n.reread = n) {ends : c.Ends}
    (h : c.ProperEnds p ends) : c.rereadEnds ends = ends := by
  cases c with
  | node => rfl
  | relationship =>
    have hstart := congrArg Id.mk (Json.Proper.reread_of_same hp _ h.1)
    have hend := congrArg Id.mk (Json.Proper.reread_of_same hp _ h.2)
    exact congrArg₂ Endpoints.mk hstart hend

/-- An entity whose numbers are read back as they were is read back as it was. -/
theorem Entity.Proper.reread_of_same (hp : ∀ n, p n → n.reread = n) {e : Entity c}
    (he : e.Proper p) : e.reread = e := by
  have hid : e.id.reread = e.id := congrArg Id.mk (Json.Proper.reread_of_same hp _ he.id)
  have hbag : Json.rereadBag e.properties = e.properties :=
    Json.object.inj (Json.Proper.reread_of_same hp _ he.properties)
  have hends : c.rereadEnds e.ends = e.ends := he.ends.reread hp
  cases e
  simp_all [Entity.reread]

/-- An entity without doubles is read back as it was. -/
theorem Entity.Proper.reread {e : Entity c} (he : e.Proper Number.Whole) : e.reread = e :=
  he.reread_of_same fun _ => Number.Whole.reread

theorem EntityClass.properEntries_ends {ends : c.Ends} (h : c.ProperEnds p ends) :
    Json.ProperEntries p (c.endsEntries ends) := by
  cases c with
  | node => trivial
  | relationship => exact ⟨h.1, h.2, trivial⟩

/-- A proper entity is written as a proper value. -/
theorem Entity.Proper.toJson (hwhole : ∀ n, n.Whole → p n) {e : Entity c} (he : e.Proper p) :
    e.toJson.Proper p := by
  have htime : Json.ProperEntries p (optionalEntry "updateTime" Json.ofInt e.updateTime) := by
    cases ht : e.updateTime with
    | none => trivial
    | some t => exact ⟨hwhole (.integer t) (he.time t ht).fits, trivial⟩
  refine ⟨?_, ?_⟩
  · cases c <;> cases e.updateTime <;>
      simp [Entries.keys, EntityClass.endsEntries, optionalEntry]
  · rw [Json.properEntries_iff]
    intro entry hentry
    simp only [List.mem_append] at hentry
    rcases hentry with (hentry | hentry) | hentry
    · simp only [List.mem_cons, List.not_mem_nil, or_false] at hentry
      rcases hentry with rfl | rfl | rfl
      · exact he.id
      · trivial
      · exact he.properties
    · exact Json.properEntries_iff.1 (EntityClass.properEntries_ends he.ends) entry hentry
    · exact Json.properEntries_iff.1 htime entry hentry

/-! ## Reading -/

theorem Id.decode_printedTree {outer : Nat} {id : Id}
    (h : (printedTree outer id.value).withinLimit = true) :
    Id.decode (printedTree outer id.value) = .ok id.reread := by
  rw [Id.decode, Tree.toJson_printedTree outer id.value h]
  rfl

theorem toInt64_printedTree {outer : Nat} {t : Int} (h : TimeFits t) :
    Tree.toInt64 (printedTree outer (Json.ofInt t)) = .ok t := by
  rw [Json.ofInt, printedTree, Number.reread_integer h.fits]
  simp only [TimeFits] at h
  simp [Tree.toInt64, Tree.toIntIn, h]

theorem printedEntries_append (outer : Nat) (first second : List (String × Json)) :
    printedEntries outer (first ++ second)
      = printedEntries outer first ++ printedEntries outer second := by
  induction first with
  | nil => rfl
  | cons e rest ih =>
    obtain ⟨k, v⟩ := e
    rw [List.cons_append, printedEntries, printedEntries, ih, List.cons_append]

theorem withinLimitEntries_append (first second : List (Option String × Tree)) :
    Tree.withinLimitEntries (first ++ second)
      = (Tree.withinLimitEntries first && Tree.withinLimitEntries second) := by
  induction first with
  | nil => rfl
  | cons e rest ih => simp [Tree.withinLimitEntries, ih, Bool.and_assoc]

/-- The printed endpoints are read back, and no other field of an entity has their keys. -/
theorem EntityClass.reads_ends {outer : Nat} {ends : c.Ends}
    (h : Tree.withinLimitEntries (printedEntries outer (c.endsEntries ends)) = true) :
    c.endsRecord.Reads (printedEntries outer (c.endsEntries ends)) (c.rereadEnds ends) := by
  cases c with
  | node => exact Record.reads_nothing
  | relationship =>
    simp only [endsEntries, printedEntries, Tree.withinLimitEntries, Bool.and_true,
      Bool.and_eq_true] at h
    have hstart := @Id.decode_printedTree outer (Endpoints.startId ends) h.1
    have hend := @Id.decode_printedTree outer (Endpoints.endId ends) h.2
    have hfirst : (Record.required "startNodeId" Id.decode).Reads _ _ := Record.reads_field hstart
    have hsecond : (Record.required "endNodeId" Id.decode).Reads _ _ := Record.reads_field hend
    refine Record.reads_map (f := fun x : Id × Id => (⟨x.1, x.2⟩ : Endpoints))
      (Record.reads_both hfirst hsecond ?_)
    intro key value hmem
    obtain ⟨rfl, -⟩ : key = "endNodeId" ∧ _ := by simpa using hmem
    exact Record.foreign_field (by decide)

/-- A printed value that may be absent is read back, and so is its absence. -/
theorem reads_optional {α : Type} {name : String} {encode : α → Json} {decode : Tree → Decoded α}
    {outer : Nat} {value : Option α} (h : ∀ x, value = some x →
      Tree.toOption decode (printedTree outer (encode x)) = .ok (some x)) :
    (Record.optional name decode).Reads
      (printedEntries outer (optionalEntry name encode value)) value := by
  cases value with
  | none => exact Record.reads_absent
  | some x => exact Record.reads_field (h x rfl)

theorem mem_keys_optional {α : Type} {name : String} {encode : α → Json} {outer : Nat}
    {found : Option α} {key : String} {value : Tree}
    (h : (some key, value) ∈ printedEntries outer (optionalEntry name encode found)) :
    key = name := by
  cases found with
  | none => simp [optionalEntry, printedEntries] at h
  | some x =>
    simp only [optionalEntry, printedEntries, List.mem_cons, Prod.mk.injEq,
      Option.some.injEq, List.not_mem_nil, or_false] at h
    exact h.1

/-- A printed time is read back, and so is its absence. -/
theorem reads_time {outer : Nat} {time : Option Int} (h : ∀ t, time = some t → TimeFits t) :
    (Record.optional "updateTime" Tree.toInt64).Reads
      (printedEntries outer (optionalEntry "updateTime" Json.ofInt time)) time := by
  refine reads_optional fun t htime => ?_
  have ht : Tree.toInt64 (printedTree outer (Json.ofInt t)) = .ok t :=
    toInt64_printedTree (h t htime)
  have hnumber : printedTree outer (Json.ofInt t) = .number (some (.integer t)) := by
    rw [Json.ofInt, printedTree, Number.reread_integer (h t htime).fits]
  rw [hnumber] at ht ⊢
  simp [Tree.toOption, ht, Except.map]

theorem mem_keys_ends {outer : Nat} {ends : c.Ends} {key : String} {value : Tree}
    (h : (some key, value) ∈ printedEntries outer (c.endsEntries ends)) :
    key = "startNodeId" ∨ key = "endNodeId" := by
  cases c with
  | node => simp [EntityClass.endsEntries, printedEntries] at h
  | relationship =>
    simp only [EntityClass.endsEntries, printedEntries, List.mem_cons, Prod.mk.injEq,
      Option.some.injEq, List.not_mem_nil, or_false] at h
    rcases h with ⟨rfl, -⟩ | ⟨rfl, -⟩
    · exact .inl rfl
    · exact .inr rfl

/-- The tree of a printed entity is read as the entity that is read back. -/
theorem Entity.decode_printedTree {outer : Nat} {e : Entity c}
    (htime : ∀ t, e.updateTime = some t → TimeFits t)
    (h : (printedTree outer e.toJson).withinLimit = true) :
    Entity.decode (printedTree outer e.toJson) = .ok e.reread := by
  rw [Entity.toJson, printedTree] at h ⊢
  have hopen := Tree.limited_of_withinLimit h
  rw [hopen] at h ⊢
  simp only [Tree.withinLimit, printedEntries_append, withinLimitEntries_append, printedEntries,
    Tree.withinLimitEntries, Bool.and_eq_true, Bool.and_true] at h
  obtain ⟨⟨⟨hid, -, hbag⟩, hends⟩, -⟩ := h
  have hentries : printedEntries (outer + 1)
      ([("id", e.id.value), ("type", .string e.type), ("properties", .object e.properties)]
        ++ c.endsEntries e.ends ++ optionalEntry "updateTime" Json.ofInt e.updateTime)
      = [(some "id", printedTree (outer + 1) e.id.value)]
        ++ ([(some "type", printedTree (outer + 1) (.string e.type))]
        ++ ([(some "properties", printedTree (outer + 1) (.object e.properties))]
        ++ (printedEntries (outer + 1) (c.endsEntries e.ends)
        ++ printedEntries (outer + 1) (optionalEntry "updateTime" Json.ofInt e.updateTime)))) := by
    simp [printedEntries_append, printedEntries]
  rw [hentries]
  -- the keys of the five fields are distinct, so each entry passes by the fields before it
  have hrest : ∀ key value, (some key, value) ∈ printedEntries (outer + 1) (c.endsEntries e.ends)
      ++ printedEntries (outer + 1) (optionalEntry "updateTime" Json.ofInt e.updateTime) →
      key = "startNodeId" ∨ key = "endNodeId" ∨ key = "updateTime" := by
    intro key value hmem
    rcases List.mem_append.1 hmem with hmem | hmem
    · rcases mem_keys_ends hmem with rfl | rfl
      · exact .inl rfl
      · exact .inr (.inl rfl)
    · exact .inr (.inr (mem_keys_optional hmem))
  refine Record.decode_of_reads (Record.reads_map
    (f := fun x : Id × String × Bag × c.Ends × Option Int =>
      ({ id := x.1, type := x.2.1, properties := x.2.2.1, ends := x.2.2.2.1,
         updateTime := x.2.2.2.2 } : Entity c))
    (x := (e.id.reread, e.type, Json.rereadBag e.properties, c.rereadEnds e.ends, e.updateTime))
    (Record.reads_both (Record.reads_field (Id.decode_printedTree hid))
      (Record.reads_both (Record.reads_field rfl)
        (Record.reads_both (Record.reads_field (Tree.toBag_printedTree _ _ hbag))
          (Record.reads_both (EntityClass.reads_ends hends) (reads_time htime) ?_) ?_) ?_) ?_))
  · intro key value hmem
    rw [mem_keys_optional hmem]
    cases c with
    | node => exact Record.foreign_nothing
    | relationship =>
      exact Record.foreign_map (Record.foreign_both (Record.foreign_field (by decide))
        (Record.foreign_field (by decide)))
  · intro key value hmem
    rcases hrest key value hmem with rfl | rfl | rfl <;>
      exact Record.foreign_field (by decide)
  · intro key value hmem
    rcases List.mem_append.1 hmem with hmem | hmem
    · obtain ⟨rfl, -⟩ : key = "properties" ∧ _ := by simpa using hmem
      exact Record.foreign_field (by decide)
    · rcases hrest key value hmem with rfl | rfl | rfl <;>
        exact Record.foreign_field (by decide)
  · intro key value hmem
    rcases List.mem_append.1 hmem with hmem | hmem
    · obtain ⟨rfl, -⟩ : key = "type" ∧ _ := by simpa using hmem
      exact Record.foreign_field (by decide)
    · rcases List.mem_append.1 hmem with hmem | hmem
      · obtain ⟨rfl, -⟩ : key = "properties" ∧ _ := by simpa using hmem
        exact Record.foreign_field (by decide)
      · rcases hrest key value hmem with rfl | rfl | rfl <;>
          exact Record.foreign_field (by decide)

/-! ## What was read is within the nesting limit -/

theorem Id.withinLimit_of_decode {t : Tree} {id : Id} (h : Id.decode t = .ok id) :
    t.withinLimit = true := by
  rw [Id.decode] at h
  cases hjson : t.toJson with
  | error e => rw [hjson] at h; cases h
  | ok v => exact Tree.withinLimit_of_toJson t hjson

theorem EntityClass.demands_ends {key : String} {ends : c.Ends} {value : Json}
    (h : (key, value) ∈ c.endsEntries ends) :
    c.endsRecord.Demands key fun t => ∃ id, Id.decode t = .ok id := by
  cases c with
  | node => cases h
  | relationship =>
    rcases List.mem_cons.1 h with h | h
    · rw [(Prod.mk.inj h).1]
      exact Record.demands_map (Record.demands_both_left Record.demands_field)
    · rw [(Prod.mk.inj (List.mem_singleton.1 h)).1]
      exact Record.demands_map (Record.demands_both_right (Record.foreign_field (by decide))
        Record.demands_field)

theorem EntityClass.key_of_mem_endsEntries {ends : c.Ends} {key : String} {value : Json}
    (h : (key, value) ∈ c.endsEntries ends) : key = "startNodeId" ∨ key = "endNodeId" := by
  cases c with
  | node => cases h
  | relationship =>
    rcases List.mem_cons.1 h with h | h
    · exact .inl (Prod.mk.inj h).1
    · exact .inr (Prod.mk.inj (List.mem_singleton.1 h)).1

theorem mem_printedEntries {outer : Nat} {entries : List (String × Json)} {e : Option String × Tree}
    (h : e ∈ printedEntries outer entries) :
    ∃ key value, (key, value) ∈ entries ∧ e = (some key, printedTree outer value) := by
  induction entries with
  | nil => cases h
  | cons entry rest ih =>
    obtain ⟨k, v⟩ := entry
    rcases List.mem_cons.1 h with h | h
    · exact ⟨k, v, List.mem_cons_self .., h⟩
    · obtain ⟨key, value, hmem, he⟩ := ih h
      exact ⟨key, value, List.mem_cons_of_mem _ hmem, he⟩

theorem Entity.demands_id :
    (Entity.record c).Demands "id" fun t => ∃ id, Id.decode t = .ok id :=
  Record.demands_map (Record.demands_both_left Record.demands_field)

theorem Entity.demands_properties :
    (Entity.record c).Demands "properties" fun t => ∃ bag, Tree.toBag t = .ok bag :=
  Record.demands_map (Record.demands_both_right (Record.foreign_field (by decide))
    (Record.demands_both_right (Record.foreign_field (by decide))
      (Record.demands_both_left Record.demands_field)))

/-- The keys of ends are none of the keys before them, so it is their own field that takes them. -/
theorem Entity.demands_ends {ends : c.Ends} {key : String} {value : Json}
    (h : (key, value) ∈ c.endsEntries ends) :
    (Entity.record c).Demands key fun t => ∃ id, Id.decode t = .ok id := by
  have hkey := EntityClass.key_of_mem_endsEntries h
  have hforeign : ∀ name, name = "id" ∨ name = "type" ∨ name = "properties" → key ≠ name := by
    rintro name (rfl | rfl | rfl) <;> rcases hkey with rfl | rfl <;> decide
  exact Record.demands_map
    (Record.demands_both_right (Record.foreign_field (hforeign _ (.inl rfl)))
      (Record.demands_both_right (Record.foreign_field (hforeign _ (.inr (.inl rfl))))
        (Record.demands_both_right (Record.foreign_field (hforeign _ (.inr (.inr rfl))))
          (Record.demands_both_left (EntityClass.demands_ends h)))))

/-- A printed entity that is read back has no bracket that is cut off. -/
theorem Entity.withinLimit_of_decode {outer : Nat} {e x : Entity c}
    (h : Entity.decode (printedTree outer e.toJson) = .ok x) :
    (printedTree outer e.toJson).withinLimit = true := by
  rw [Entity.toJson, printedTree, Tree.limited] at h ⊢
  split
  · next hopen =>
    rw [if_pos hopen] at h
    rw [Tree.withinLimit, Tree.withinLimitEntries_iff]
    intro entry hentry
    obtain ⟨key, value, hmem, rfl⟩ := mem_printedEntries hentry
    have hdemands : ∀ P, (Entity.record c).Demands key P → P (printedTree (outer + 1) value) :=
      fun P hP => Record.of_decode h hentry hP
    -- identities and bags have been read; a type and a time have no brackets
    simp only [List.mem_append] at hmem
    rcases hmem with (hmem | hmem) | hmem
    · simp only [List.mem_cons, List.not_mem_nil, or_false, Prod.mk.injEq] at hmem
      rcases hmem with ⟨rfl, rfl⟩ | ⟨rfl, rfl⟩ | ⟨rfl, rfl⟩
      · obtain ⟨id, hid⟩ := hdemands _ Entity.demands_id
        exact Id.withinLimit_of_decode hid
      · rfl
      · obtain ⟨bag, hbag⟩ := hdemands _ Entity.demands_properties
        exact Tree.withinLimit_of_toBag hbag
    · obtain ⟨id, hid⟩ := hdemands _ (Entity.demands_ends hmem)
      exact Id.withinLimit_of_decode hid
    · cases htime : e.updateTime with
      | none => rw [htime] at hmem; cases hmem
      | some t =>
        rw [htime] at hmem
        rw [(Prod.mk.inj (List.mem_singleton.1 hmem)).2]
        rfl
  · next hopen =>
    rw [if_neg hopen] at h
    cases h

end PropertyGraph
