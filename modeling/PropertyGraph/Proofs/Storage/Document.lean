/-
  PropertyGraph.Proofs.Storage.Document

  Documents that were written by a graph, read again.  An index and a list of types are read
  as they were written.  A list of entities is read entity by entity, each as what printing
  and reading makes of it, or the document is malformed; it is read if no bracket of its
  text is cut off by the nesting limit.
-/
import PropertyGraph.Proofs.Entity.Reread
import PropertyGraph.Storage.Document

namespace PropertyGraph.Document

open Json (Tree Decoded Record printedTree printedItems printedEntries)

variable {α β γ : Type} {c : EntityClass} {p : Number → Prop}

/-! ## Lists of decoded items -/

/-- Items that are all decoded are decoded as a list. -/
theorem mapM_of_decoded {f : β → γ} {g : β → α} {decode : γ → Decoded α} {items : List β}
    (h : ∀ x ∈ items, decode (f x) = .ok (g x)) :
    (items.map f).mapM decode = .ok (items.map g) := by
  induction items with
  | nil => rfl
  | cons x rest ih =>
    have hx := h x (List.mem_cons_self ..)
    have hrest := ih fun y hy => h y (List.mem_cons_of_mem _ hy)
    rw [List.map_cons, List.mapM_cons, hx, List.map_cons]
    show ((rest.map f).mapM decode >>= fun ys => pure (g x :: ys)) = _
    rw [hrest]
    rfl

/-- Of items that are decoded as a list each one is decoded. -/
theorem decoded_of_mapM {f : β → γ} {decode : γ → Decoded α} {items : List β} {ys : List α}
    (h : (items.map f).mapM decode = .ok ys) : ∀ x ∈ items, ∃ y, decode (f x) = .ok y := by
  induction items generalizing ys with
  | nil => exact fun x hx => absurd hx List.not_mem_nil
  | cons x rest ih =>
    rw [List.map_cons, List.mapM_cons] at h
    cases hx : decode (f x) with
    | error e => rw [hx] at h; cases h
    | ok y =>
      rw [hx] at h
      cases hrest : (rest.map f).mapM decode with
      | error e =>
        have h' : ((rest.map f).mapM decode >>= fun ys => pure (y :: ys)) = Except.ok ys := h
        rw [hrest] at h'
        cases h'
      | ok more =>
        intro z hz
        rcases List.mem_cons.1 hz with rfl | hz
        · exact ⟨y, hx⟩
        · exact ih hrest z hz

theorem toList_printedTree {decode : Tree → Decoded α} {outer : Nat} (houter : outer < Json.maxDepth)
    (items : List Json) :
    Tree.toList decode (printedTree outer (.array items))
      = (items.map (printedTree (outer + 1))).mapM decode := by
  rw [printedTree, Tree.limited, if_pos houter, Json.printedItems_eq_map, Tree.toList]
  cases (items.map (printedTree (outer + 1))).mapM decode <;> rfl

theorem exists_of_bind {first : Decoded α} {next : α → Decoded β} {y : β}
    (h : (first >>= next) = .ok y) : ∃ x, first = .ok x ∧ next x = .ok y := by
  cases first with
  | error fault => cases h
  | ok x => exact ⟨x, rfl, h⟩

/-- What has been decoded from a list was decoded from an item of it. -/
theorem exists_of_mapM {decode : γ → Decoded α} {items : List γ} {ys : List α}
    (h : items.mapM decode = .ok ys) : ∀ y ∈ ys, ∃ x ∈ items, decode x = .ok y := by
  induction items generalizing ys with
  | nil =>
    obtain rfl := Except.ok.inj h
    exact fun y hy => absurd hy List.not_mem_nil
  | cons x rest ih =>
    rw [List.mapM_cons] at h
    obtain ⟨first, hfirst, h⟩ := exists_of_bind h
    obtain ⟨more, hmore, h⟩ := exists_of_bind h
    obtain rfl := Except.ok.inj h
    intro y hy
    rcases List.mem_cons.1 hy with rfl | hy
    · exact ⟨x, List.mem_cons_self .., hfirst⟩
    · obtain ⟨z, hz, hdecode⟩ := ih hmore y hy
      exact ⟨z, List.mem_cons_of_mem _ hz, hdecode⟩

/-- An object whose values are all decoded is decoded as a map. -/
theorem toMap_printedTree {decode : Tree → Decoded α} {outer : Nat}
    (houter : outer < Json.maxDepth) {entries : Entries β} {f : β → Json} {g : β → α}
    (hkeys : (Entries.keys entries).Nodup)
    (h : ∀ e ∈ entries, decode (printedTree (outer + 1) (f e.2)) = .ok (g e.2)) :
    Tree.toMap decode (printedTree outer (.object (entries.map fun e => (e.1, f e.2))))
      = .ok (entries.map fun e => (e.1, g e.2)) := by
  have hnodup : (Entries.keys (entries.map fun e => (e.1, g e.2))).Nodup := by
    simpa [Entries.keys, Function.comp_def] using hkeys
  rw [printedTree, Tree.limited, if_pos houter, Json.printedEntries_eq_map, List.map_map, Tree.toMap,
    mapM_of_decoded (g := fun e => (e.1, g e.2))]
  · simp [bind, Except.bind, Entries.collapse_of_nodup hnodup]
  · intro e he
    simp [h e he, Except.map]

/-- In an object that is decoded as a map each value is decoded. -/
theorem decoded_of_toMap {decode : Tree → Decoded α} {outer : Nat}
    (houter : outer < Json.maxDepth) {entries : Entries β} {f : β → Json} {ys : Entries α}
    (h : Tree.toMap decode (printedTree outer (.object (entries.map fun e => (e.1, f e.2))))
      = .ok ys) :
    ∀ e ∈ entries, ∃ y, decode (printedTree (outer + 1) (f e.2)) = .ok y := by
  rw [printedTree, Tree.limited, if_pos houter, Json.printedEntries_eq_map, List.map_map,
    Tree.toMap] at h
  intro e he
  obtain ⟨found, hmap, -⟩ := exists_of_bind h
  obtain ⟨y, hy⟩ := decoded_of_mapM hmap e he
  cases hvalue : decode (printedTree (outer + 1) (f e.2)) with
  | error fault => simp [hvalue, Except.map] at hy
  | ok x => exact ⟨x, rfl⟩

/-! ## The payload of a written document -/

/-- What a document gives when its payload is decoded: every fault is a malformed text. -/
def ofDecoded : Decoded α → Outcome α
  | .ok x => .ok x
  | .error _ => .error .malformed

theorem malformed_of_decode {payload : Tree → Decoded α} {text : String} {f : Failure}
    (h : decode payload text = .error f) : f = .malformed := by
  rw [decode] at h
  split at h
  · cases h
  · exact (Except.error.inj h).symm

/-- The payload of a written document is decoded from the tree of what was written. -/
theorem decode_encode (payload : Tree → Decoded α) {data : Json} (h : data.Proper Number.Legible) :
    decode payload (encode data) = ofDecoded (payload (printedTree 1 data)) := by
  have hobject : (Json.object [("data", data)]).Proper Number.Legible :=
    ⟨by simp [Entries.keys], h, trivial⟩
  have htree : printedTree 0 (.object [("data", data)])
      = .object [(some "data", printedTree 1 data)] true := by
    rw [printedTree, Tree.limited, if_pos (by decide)]
    rfl
  rw [decode, encode, Tree.ofText_pretty hobject, htree]
  cases hpayload : payload (printedTree 1 data) with
  | ok x =>
    have hdecode : (Record.required "data" payload).decode
        (.object [(some "data", printedTree 1 data)] true) = .ok x :=
      Record.decode_of_reads (Record.reads_field hpayload)
    rw [hdecode]
    rfl
  | error fault =>
    cases hdecode : (Record.required "data" payload).decode
        (.object [(some "data", printedTree 1 data)] true) with
    | error fault => rfl
    | ok x =>
      obtain ⟨y, hy⟩ := Record.of_decode hdecode (List.mem_singleton.2 rfl) Record.demands_field
      rw [hpayload] at hy
      cases hy

/-- The text of the index. -/
def indexText (entries : Entries String) : String :=
  encode (.object (entries.map fun (key, type) => (key, .string type)))

/-- The text of the list of types. -/
def typeListText (types : List String) : String := encode (.array (types.map .string))

/-- The text of the entities of a type. -/
def entitiesText (entities : List (Entity c)) : String :=
  encode (.array (entities.map Entity.toJson))

/-- A list of types is read as it was written. -/
theorem decode_typeListText (types : List String) :
    decode (Tree.toList Tree.toText) (typeListText types) = .ok types := by
  have hproper : (Json.array (types.map .string)).Proper Number.Legible := by
    refine Json.properItems_iff.2 fun v hv => ?_
    obtain ⟨type, -, rfl⟩ := List.mem_map.1 hv
    trivial
  have hmap : ((types.map Json.string).map (printedTree 2)).mapM Tree.toText = .ok (types.map id) := by
    rw [List.map_map]
    exact mapM_of_decoded fun type _ => rfl
  rw [typeListText, decode_encode _ hproper, toList_printedTree (by decide), hmap, List.map_id]
  rfl

/-- An index with distinct keys is read as it was written. -/
theorem decode_indexText {entries : Entries String} (h : (Entries.keys entries).Nodup) :
    decode (Tree.toMap Tree.toText) (indexText entries) = .ok entries := by
  have hkeys : Entries.keys (entries.map fun (key, type) => (key, Json.string type))
      = Entries.keys entries := by
    simp [Entries.keys, Function.comp_def]
  have hproper : (Json.object (entries.map fun (key, type) => (key, .string type))).Proper
      Number.Legible := by
    refine ⟨hkeys ▸ h, Json.properEntries_iff.2 fun e he => ?_⟩
    obtain ⟨entry, -, rfl⟩ := List.mem_map.1 he
    trivial
  have hprinted : ∀ entries : Entries String,
      printedEntries 2 (entries.map fun (key, type) => (key, Json.string type))
        = entries.map fun e => (some e.1, Tree.string (some e.2)) := by
    intro entries
    induction entries with
    | nil => rfl
    | cons e rest ih =>
      rw [List.map_cons, printedEntries, ih]
      rfl
  rw [indexText, decode_encode _ hproper, printedTree, Tree.limited, if_pos (by decide), hprinted,
    Tree.toMap]
  rw [mapM_of_decoded (g := id)]
  · simp [bind, Except.bind, Entries.collapse_of_nodup h, ofDecoded]
  · exact fun e _ => rfl

/-! ## Entities -/

theorem proper_entities (hp : Number.Stable p) {entities : List (Entity c)}
    (h : ∀ e ∈ entities, e.Proper p) :
    (Json.array (entities.map Entity.toJson)).Proper Number.Legible := by
  refine Json.properItems_iff.2 fun v hv => ?_
  obtain ⟨e, he, rfl⟩ := List.mem_map.1 hv
  exact Json.Proper.mono hp.legible _ ((h e he).toJson hp.whole)

theorem decode_entitiesText_eq (hp : Number.Stable p) {entities : List (Entity c)}
    (h : ∀ e ∈ entities, e.Proper p) :
    decode (Tree.toList Entity.decode) (entitiesText entities)
      = ofDecoded ((entities.map fun e => printedTree 2 e.toJson).mapM (Entity.decode (c := c))) := by
  rw [entitiesText, decode_encode _ (proper_entities hp h), toList_printedTree (by decide),
    List.map_map]
  rfl

/-- Entities that are read from a document have been written within the nesting limit. -/
theorem withinLimit_of_decode_entitiesText (hp : Number.Stable p) {entities read : List (Entity c)}
    (h : ∀ e ∈ entities, e.Proper p)
    (hread : decode (Tree.toList Entity.decode) (entitiesText entities) = .ok read) :
    ∀ e ∈ entities, (printedTree 2 e.toJson).withinLimit = true := by
  rw [decode_entitiesText_eq hp h] at hread
  cases hmap : (entities.map fun e => printedTree 2 e.toJson).mapM (Entity.decode (c := c)) with
  | error e => rw [hmap] at hread; cases hread
  | ok ys =>
    intro e he
    obtain ⟨x, hx⟩ := decoded_of_mapM hmap e he
    exact Entity.withinLimit_of_decode hx

/-- Entities within the nesting limit are read, each as it is read back. -/
theorem decode_entitiesText_of_entities (hp : Number.Stable p) {entities : List (Entity c)}
    (h : ∀ e ∈ entities, e.Proper p)
    (hlimit : ∀ e ∈ entities, (printedTree 2 e.toJson).withinLimit = true) :
    decode (Tree.toList Entity.decode) (entitiesText entities)
      = .ok (entities.map Entity.reread) := by
  rw [decode_entitiesText_eq hp h, mapM_of_decoded (g := Entity.reread)]
  · rfl
  · exact fun e he => Entity.decode_printedTree (h e he).time (hlimit e he)

/-- Entities that are read are those that were written, each as it is read back. -/
theorem eq_of_decode_entitiesText (hp : Number.Stable p) {entities read : List (Entity c)}
    (h : ∀ e ∈ entities, e.Proper p)
    (hread : decode (Tree.toList Entity.decode) (entitiesText entities) = .ok read) :
    read = entities.map Entity.reread := by
  have hlimit := withinLimit_of_decode_entitiesText hp h hread
  rw [decode_entitiesText_of_entities hp h hlimit] at hread
  exact (Except.ok.inj hread).symm

/-- Entities are read from a text that is within the nesting limit. -/
theorem decode_entitiesText (hp : Number.Stable p) {entities : List (Entity c)}
    (h : ∀ e ∈ entities, e.Proper p)
    (hlimit : (Tree.ofText (entitiesText entities)).withinLimit = true) :
    decode (Tree.toList Entity.decode) (entitiesText entities)
      = .ok (entities.map Entity.reread) := by
  have hobject : (Json.object [("data", .array (entities.map Entity.toJson))]).Proper
      Number.Legible := ⟨by simp [Entries.keys], proper_entities hp h, trivial⟩
  rw [entitiesText, encode, Tree.ofText_pretty hobject, printedTree, Tree.limited,
    if_pos (by decide), printedEntries, printedEntries, Tree.withinLimit,
    Tree.withinLimitEntries, printedTree, Tree.limited, if_pos (by decide), Tree.withinLimit,
    Bool.and_eq_true, Tree.withinLimitItems_iff, Json.printedItems_eq_map] at hlimit
  refine decode_entitiesText_of_entities hp h fun e he => hlimit.1 _ ?_
  exact List.mem_map.2 ⟨e.toJson, List.mem_map.2 ⟨e, he, rfl⟩, rfl⟩

end PropertyGraph.Document
