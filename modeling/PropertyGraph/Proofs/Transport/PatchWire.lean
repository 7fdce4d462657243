/-
  PropertyGraph.Proofs.Transport.PatchWire

  What a request for a change carries of a patch.  The parts of a patch stand beside the identity,
  absent parts are left out, and null is read as absent.  An endpoint is any value, so null may be
  asked for; it is written and then not heard.  All else is heard as it was asked, whether the
  request is handed over as a value or written as a text that nests no deeper than a reader takes.
-/
import PropertyGraph.Proofs.Json.CompactText
import PropertyGraph.Proofs.Json.ValueTree
import PropertyGraph.Proofs.Storage.Changes
import PropertyGraph.Transport.Wire

namespace PropertyGraph

open Json (Tree Record Decoded printedTree maxDepth)

variable {c : EntityClass} {p : Number → Prop}

/-! ## What is heard -/

/-- An optional identity as it is read: null counts as none. -/
def Id.heard : Option Id → Option Id
  | some ⟨.null⟩ => none
  | id => id

/-- New endpoints as they are read. -/
def EntityClass.heardEnds : (c : EntityClass) → c.EndsPatch → c.EndsPatch
  | .node, ends => ends
  | .relationship, (ends : EndpointsPatch) =>
    (⟨Id.heard ends.startId, Id.heard ends.endId⟩ : EndpointsPatch)

/-- A patch as it is read. -/
def Patch.heard (patch : Patch c) : Patch c := { patch with ends := c.heardEnds patch.ends }

/-- No endpoint of a patch is null. -/
def EntityClass.NamedEnds : (c : EntityClass) → c.EndsPatch → Prop
  | .node, _ => True
  | .relationship, (patch : EndpointsPatch) =>
    ∀ id, patch.startId = some id ∨ patch.endId = some id → id.value ≠ .null

theorem Id.heard_eq_self_iff {id : Option Id} :
    Id.heard id = id ↔ ∀ i, id = some i → i.value ≠ .null := by
  match id with
  | none => exact ⟨fun _ => nofun, fun _ => rfl⟩
  | some ⟨v⟩ =>
    constructor
    · rintro hheard i ⟨⟩ hnull
      obtain rfl : v = .null := hnull
      cases hheard
    · intro h
      have hv : v ≠ .null := h ⟨v⟩ rfl
      cases v with
      | null => exact absurd rfl hv
      | _ => rfl

theorem EntityClass.heardEnds_eq_iff {ends : EntityClass.relationship.EndsPatch} :
    EntityClass.relationship.heardEnds ends = ends
      ↔ Id.heard (EndpointsPatch.startId ends) = EndpointsPatch.startId ends
        ∧ Id.heard (EndpointsPatch.endId ends) = EndpointsPatch.endId ends :=
  ⟨fun h => ⟨congrArg EndpointsPatch.startId h, congrArg EndpointsPatch.endId h⟩,
    fun h => congrArg₂ EndpointsPatch.mk h.1 h.2⟩

/-- A patch is heard as it was asked exactly when none of its endpoints is null. -/
theorem Patch.heard_eq_self_iff {patch : Patch c} :
    patch.heard = patch ↔ c.NamedEnds patch.ends := by
  have hends : patch.heard = patch ↔ c.heardEnds patch.ends = patch.ends :=
    ⟨fun h => congrArg Patch.ends h, fun h => by rw [heard, h]⟩
  rw [hends]
  cases c with
  | node => exact ⟨fun _ => trivial, fun _ => rfl⟩
  | relationship =>
    rw [EntityClass.heardEnds_eq_iff, Id.heard_eq_self_iff, Id.heard_eq_self_iff]
    exact ⟨fun h id hid => hid.elim (h.1 id) (h.2 id),
      fun h => ⟨fun id hid => h id (.inl hid), fun id hid => h id (.inr hid)⟩⟩

/-- Where an endpoint stands that is not null, a new one that is null makes a difference. -/
theorem Id.getD_heard {new : Option Id} {old : Id} (hold : old.value ≠ .null)
    (h : (Id.heard new).getD old = new.getD old) : ∀ i, new = some i → i.value ≠ .null := by
  rintro ⟨v⟩ rfl hnull
  obtain rfl : v = .null := hnull
  exact hold (congrArg Id.value h)

/-- A patch changes every entity as what is heard of it does exactly when none of its endpoints is
    null. -/
theorem Patch.apply_heard_iff {patch : Patch c} :
    (∀ e now, patch.heard.apply e now = patch.apply e now) ↔ c.NamedEnds patch.ends := by
  constructor
  · intro h
    cases c with
    | node => trivial
    | relationship =>
      -- a relationship whose ends are not null tells a null that is asked for from no end at all
      let root : Id := .ofString ""
      have happly := h ⟨root, "", [], (⟨root, root⟩ : Endpoints), none⟩ 0
      have hstart := congrArg (fun e : Relationship => Endpoints.startId e.ends) happly
      have hend := congrArg (fun e : Relationship => Endpoints.endId e.ends) happly
      have hroot : root.value ≠ .null := nofun
      exact fun id hid => hid.elim (Id.getD_heard hroot hstart id) (Id.getD_heard hroot hend id)
  · intro h e now
    rw [heard_eq_self_iff.2 h]

/-! ## Entries of a patch -/

theorem mem_optionalEntry {α : Type} {name : String} {encode : α → Json} {value : Option α} {x : α}
    (h : value = some x) : (name, encode x) ∈ optionalEntry name encode value := by
  rw [h]
  exact List.mem_singleton.2 rfl

theorem keys_optionalEntry {α : Type} (name : String) (encode : α → Json) (value : Option α) :
    (Entries.keys (optionalEntry name encode value)).Sublist [name] := by
  cases value with
  | none => exact List.nil_sublist _
  | some x => exact List.Sublist.refl _

theorem eq_of_mem_optionalEntry {α : Type} {name : String} {encode : α → Json} {value : Option α}
    {key : String} {v : Json} (h : (key, v) ∈ optionalEntry name encode value) : key = name :=
  List.mem_singleton.1 ((keys_optionalEntry name encode value).subset (List.mem_map_of_mem h))

theorem proper_optionalEntry {α : Type} {name : String} {encode : α → Json} {value : Option α}
    (h : ∀ x, value = some x → (encode x).Proper p) :
    ∀ entry ∈ optionalEntry name encode value, entry.2.Proper p := by
  cases value with
  | none => nofun
  | some x => exact List.forall_mem_singleton.2 (h x rfl)

namespace EntityClass

theorem endsPatchEntries_eq (ends : EntityClass.relationship.EndsPatch) :
    EntityClass.relationship.endsPatchEntries ends
      = optionalEntry "startNodeId" Id.value (EndpointsPatch.startId ends)
        ++ optionalEntry "endNodeId" Id.value (EndpointsPatch.endId ends) := rfl

theorem keys_endsPatchEntries (ends : c.EndsPatch) :
    (Entries.keys (c.endsPatchEntries ends)).Sublist ["startNodeId", "endNodeId"] := by
  cases c with
  | node => exact List.nil_sublist _
  | relationship =>
    rw [endsPatchEntries_eq, Entries.keys, List.map_append]
    exact (keys_optionalEntry ..).append (keys_optionalEntry ..)

theorem key_of_mem_endsPatchEntries {ends : c.EndsPatch} {key : String} {v : Json}
    (h : (key, v) ∈ c.endsPatchEntries ends) : key = "startNodeId" ∨ key = "endNodeId" := by
  have hkey : key ∈ ["startNodeId", "endNodeId"] :=
    (keys_endsPatchEntries ends).subset (List.mem_map_of_mem h)
  simpa using hkey

theorem proper_endsPatchEntries {ends : c.EndsPatch} (h : c.ProperEndsPatch p ends) :
    ∀ entry ∈ c.endsPatchEntries ends, entry.2.Proper p := by
  cases c with
  | node => nofun
  | relationship =>
    rw [endsPatchEntries_eq]
    exact List.forall_mem_append.2 ⟨proper_optionalEntry h.1, proper_optionalEntry h.2⟩

end EntityClass

theorem Patch.keys_entries (patch : Patch c) :
    (Entries.keys patch.entries).Sublist ["type", "properties", "startNodeId", "endNodeId"] := by
  rw [entries, Entries.keys, List.map_append, List.map_append]
  exact ((keys_optionalEntry ..).append (keys_optionalEntry ..)).append
    (c.keys_endsPatchEntries patch.ends)

/-- No part of a patch has the key of the identity. -/
theorem Patch.key_ne_id {patch : Patch c} {key : String} {value : Json}
    (h : (key, value) ∈ patch.entries) : key ≠ "id" := by
  have hkey : key ∈ ["type", "properties", "startNodeId", "endNodeId"] :=
    patch.keys_entries.subset (List.mem_map_of_mem h)
  rintro rfl
  revert hkey
  decide

/-- A request for a change is proper if the identity and the patch are. -/
theorem proper_editRequest {id : Id} {patch : Patch c} (hid : id.value.Proper p)
    (hpatch : patch.Proper p) : (editRequest id patch).Proper p := by
  have hvalues : ∀ entry ∈ patch.entries, entry.2.Proper p := by
    rw [Patch.entries]
    refine List.forall_mem_append.2 ⟨List.forall_mem_append.2 ⟨?_, ?_⟩, ?_⟩
    · exact proper_optionalEntry fun _ _ => trivial
    · exact proper_optionalEntry hpatch.properties
    · exact EntityClass.proper_endsPatchEntries hpatch.ends
  have hkeys := (patch.keys_entries.cons_cons "id").nodup (by decide)
  exact ⟨hkeys, hid, Json.properEntries_iff.2 hvalues⟩

theorem Patch.proper_of_entries {patch : Patch c} (h : Json.ProperEntries p patch.entries) :
    patch.Proper p := by
  have hvalues := Json.properEntries_iff.1 h
  refine ⟨fun bag hbag => hvalues ("properties", .object bag) ?_, ?_⟩
  · have hmem : ("properties", Json.object bag)
        ∈ optionalEntry "properties" Json.object patch.properties := mem_optionalEntry hbag
    simp [entries, hmem]
  · cases c with
    | node => trivial
    | relationship =>
      refine ⟨fun id hid => hvalues ("startNodeId", id.value) ?_,
        fun id hid => hvalues ("endNodeId", id.value) ?_⟩
      · have hmem : ("startNodeId", id.value)
            ∈ optionalEntry "startNodeId" Id.value patch.ends.startId := mem_optionalEntry hid
        simp [entries, EntityClass.endsPatchEntries, hmem]
      · have hmem : ("endNodeId", id.value)
            ∈ optionalEntry "endNodeId" Id.value patch.ends.endId := mem_optionalEntry hid
        simp [entries, EntityClass.endsPatchEntries, hmem]

/-! ## Reading -/

namespace Json.Tree

theorem toOption_ofJson {α : Type} {decode : Tree → Decoded α} {v : Json} (h : v ≠ .null) :
    toOption decode (ofJson v) = (decode (ofJson v)).map some := by
  cases v with
  | null => exact absurd rfl h
  | _ => rfl

end Json.Tree

/-- A part that may be absent is read as it is read when it is there, and as absent when not. -/
theorem reads_optional_ofEntries {α : Type} {name : String} {encode : α → Json}
    {decode : Tree → Decoded α} {value heard : Option α} (hnone : value = none → heard = none)
    (hsome : ∀ x, value = some x → Tree.toOption decode (.ofJson (encode x)) = .ok heard) :
    (Record.optional name decode).Reads (Tree.ofEntries (optionalEntry name encode value))
      heard := by
  cases value with
  | none =>
    rw [hnone rfl]
    exact Record.reads_absent
  | some x => exact Record.reads_field (hsome x rfl)

/-- An endpoint is read as itself, unless it is null. -/
theorem reads_endpoint {name : String} {id : Option Id} (h : ∀ i, id = some i → i.value.Proper p) :
    (Record.optional name Id.decode).Reads
      (Tree.ofEntries (optionalEntry name Id.value id)) (Id.heard id) := by
  refine reads_optional_ofEntries (fun hid => by rw [hid]; rfl) ?_
  rintro ⟨v⟩ rfl
  have hv : v.Proper p := h ⟨v⟩ rfl
  -- null is written under the key and is read as if the key were not there
  by_cases hnull : v = .null
  · subst hnull
    rfl
  · rw [Tree.toOption_ofJson hnull, Id.decode, Tree.toJson_ofJson v hv]
    exact congrArg Except.ok (Id.heard_eq_self_iff.2 fun i hi => by
      obtain rfl := Option.some.inj hi
      exact hnull).symm

/-- New endpoints are read as themselves, unless they are null. -/
theorem EntityClass.reads_ofEntries_ends {ends : c.EndsPatch} (h : c.ProperEndsPatch p ends) :
    c.endsPatchRecord.Reads (Tree.ofEntries (c.endsPatchEntries ends)) (c.heardEnds ends) := by
  cases c with
  | node => exact Record.reads_nothing
  | relationship =>
    rw [endsPatchEntries_eq, Tree.ofEntries_append]
    refine Record.reads_map (f := fun x : Option Id × Option Id => (⟨x.1, x.2⟩ : EndpointsPatch))
      (Record.reads_both (reads_endpoint h.1) (reads_endpoint h.2) ?_)
    intro key value hmem
    obtain ⟨v, hv⟩ := Tree.mem_of_mem_ofEntries hmem
    rw [eq_of_mem_optionalEntry hv]
    exact Record.foreign_field (by decide)

/-- The entries of a patch are read as the patch that is heard. -/
theorem Patch.reads_ofEntries {patch : Patch c} (h : patch.Proper p) :
    (Patch.record c).Reads (Tree.ofEntries patch.entries) patch.heard := by
  simp only [entries, List.append_assoc, Tree.ofEntries_append]
  refine Record.reads_map
    (f := fun x : Option String × Option Bag × c.EndsPatch => (⟨x.1, x.2.1, x.2.2⟩ : Patch c))
    (x := (patch.type, patch.properties, c.heardEnds patch.ends))
    (Record.reads_both (reads_optional_ofEntries id ?_)
      (Record.reads_both (reads_optional_ofEntries id ?_)
        (EntityClass.reads_ofEntries_ends h.ends) ?_) ?_)
  · intro type htype
    rw [htype]
    rfl
  · intro bag hbag
    rw [hbag, Tree.toOption_ofJson (by simp), Tree.toBag_ofJson (h.properties bag hbag)]
    rfl
  · intro key t hmem
    obtain ⟨v, hv⟩ := Tree.mem_of_mem_ofEntries hmem
    obtain rfl | rfl := EntityClass.key_of_mem_endsPatchEntries hv <;>
      exact Record.foreign_field (by decide)
  · intro key t hmem
    rw [← Tree.ofEntries_append] at hmem
    obtain ⟨v, hv⟩ := Tree.mem_of_mem_ofEntries hmem
    obtain hv | hv := List.mem_append.1 hv
    · rw [eq_of_mem_optionalEntry hv]
      exact Record.foreign_field (by decide)
    · obtain rfl | rfl := EntityClass.key_of_mem_endsPatchEntries hv <;>
        exact Record.foreign_field (by decide)

/-! ## Requests handed over as values -/

/-- Of the entries of a value, those of other keys than the identity's are set aside as they are. -/
theorem splitEdit_ofEntries {fields : List (String × Json)} (hkeys : ∀ f ∈ fields, f.1 ≠ "id")
    (h : Json.ProperEntries p fields) (id : Option Id) :
    splitEdit id (Tree.ofEntries fields) = .ok (id, Tree.ofEntries fields) := by
  induction fields with
  | nil => rfl
  | cons f rest ih =>
    obtain ⟨hkey, hrest⟩ := List.forall_mem_cons.1 hkeys
    rw [Tree.ofEntries, splitEdit, if_neg hkey, Tree.toJson_ofJson f.2 h.1, ih hrest h.2]
    rfl

/-- A request for a change that is handed over as a value is read as what is heard of it. -/
theorem decodeEditRequest_ofJson {id : Id} {patch : Patch c} (h : (editRequest id patch).Proper p) :
    decodeEditRequest c (.ofJson (editRequest id patch)) = .ok (id, patch.heard) := by
  have hid : Id.decode (.ofJson id.value) = .ok id := by
    rw [Id.decode, Tree.toJson_ofJson id.value h.2.1]
    rfl
  have hsplit : splitEdit none (Tree.ofEntries (("id", id.value) :: patch.entries))
      = .ok (some id, Tree.ofEntries patch.entries) := by
    rw [Tree.ofEntries, splitEdit, if_pos rfl, if_neg (by simp), hid]
    -- what follows the identity is all of the patch, since no part of it has that key
    exact splitEdit_ofEntries (fun f hf => Patch.key_ne_id hf) h.2.2 (some id)
  have hread : (Patch.record c).ofEntries .skipped (Tree.ofEntries patch.entries) true
      = .ok patch.heard :=
    Record.decode_of_reads (Patch.reads_ofEntries (Patch.proper_of_entries h.2.2))
  rw [editRequest, Tree.ofJson, decodeEditRequest, hsplit]
  simp only [bind, Except.bind, Bool.not_true, Bool.false_eq_true, if_false, hread]

/-! ## Requests written as texts -/

/-- Entries that are set apart have no bracket that is cut off. -/
theorem withinLimit_of_splitEdit {entries : List (Option String × Tree)} {id : Option Id}
    {read : Option Id × List (Option String × Tree)} (h : splitEdit id entries = .ok read) :
    Tree.withinLimitEntries entries = true := by
  induction entries generalizing id read with
  | nil => rfl
  | cons entry rest ih =>
    obtain ⟨key | key, t⟩ := entry
    · cases h
    · rw [Tree.withinLimitEntries, Bool.and_eq_true]
      -- each entry is read as a whole value, be it the identity or a part that is set aside
      rw [splitEdit] at h
      split at h
      · split at h
        · cases h
        · cases hid : t.toJson with
          | error e => simp [Id.decode, hid, Except.map, bind, Except.bind] at h
          | ok v =>
            simp only [Id.decode, hid, Except.map, bind, Except.bind] at h
            exact ⟨Tree.withinLimit_of_toJson t hid, ih h⟩
      · cases ht : t.toJson with
        | error e => simp [ht, bind, Except.bind] at h
        | ok v =>
          cases hrest : splitEdit id rest with
          | error e => simp [ht, hrest, bind, Except.bind] at h
          | ok more => exact ⟨Tree.withinLimit_of_toJson t ht, ih hrest⟩

/-- A request for a change that is read has no bracket that is cut off. -/
theorem withinLimit_of_decodeEditRequest {t : Tree} {read : Id × Patch c}
    (h : decodeEditRequest c t = .ok read) : t.withinLimit = true := by
  cases t with
  | object entries closed =>
    cases hsplit : splitEdit none entries with
    | error e => simp [decodeEditRequest, hsplit, bind, Except.bind] at h
    | ok more => exact withinLimit_of_splitEdit hsplit
  | tooDeep whole => cases h
  | array items closed => cases h
  | _ => rfl

/-- A request for a change that is written as a text is read exactly when it nests no deeper than a
    reader takes, and then as what is heard of it. -/
theorem decodeEditRequest_ofText_iff {id : Id} {patch : Patch c}
    (h : (editRequest id patch).Proper Number.Whole) {read : Id × Patch c} :
    decodeEditRequest c (.ofTextStart (editRequest id patch).text) = .ok read
      ↔ (editRequest id patch).nesting ≤ maxDepth ∧ read = (id, patch.heard) := by
  have hlegible := Json.Proper.mono Number.stable_whole.legible _ h
  have hlimit : (printedTree 0 (editRequest id patch)).withinLimit = true
      ↔ (editRequest id patch).nesting ≤ maxDepth := by
    rw [Tree.withinLimit_printedTree_iff (Nat.zero_le _), Nat.zero_add]
  -- as long as nothing is cut off, the text has the tree of the value
  have hheard (hshallow : (editRequest id patch).nesting ≤ maxDepth) :
      decodeEditRequest c (printedTree 0 (editRequest id patch)) = .ok (id, patch.heard) := by
    rw [Tree.printedTree_eq_ofJson 0 _ h (hlimit.2 hshallow)]
    exact decodeEditRequest_ofJson h
  rw [Tree.ofTextStart_text hlegible]
  constructor
  · intro hread
    have hshallow := hlimit.1 (withinLimit_of_decodeEditRequest hread)
    exact ⟨hshallow, Except.ok.inj (hread.symm.trans (hheard hshallow))⟩
  · rintro ⟨hshallow, rfl⟩
    exact hheard hshallow

/-- A request for a change gives back the identity and the patch but for endpoints that are null:
    these are read as absent, and then the patch changes some entity otherwise.  The text of a
    request is read only as far as a reader goes into brackets; the value has no such bound. -/
theorem Patch.heard_over_wire {id : Id} {patch : Patch c} (hid : id.value.Proper Number.Whole)
    (hpatch : patch.Proper Number.Whole) :
    decodeEditRequest c (.ofJson (editRequest id patch)) = .ok (id, patch.heard)
      ∧ (∀ read, decodeEditRequest c (.ofTextStart (editRequest id patch).text) = .ok read
          ↔ (editRequest id patch).nesting ≤ maxDepth ∧ read = (id, patch.heard))
      ∧ (patch.heard = patch ↔ c.NamedEnds patch.ends)
      ∧ ((∀ e now, patch.heard.apply e now = patch.apply e now)
          ↔ c.NamedEnds patch.ends) := by
  have hrequest : (editRequest id patch).Proper Number.Whole := proper_editRequest hid hpatch
  exact ⟨decodeEditRequest_ofJson hrequest, fun _ => decodeEditRequest_ofText_iff hrequest,
    heard_eq_self_iff, apply_heard_iff⟩

/-- A change of a relationship that keeps its type. -/
def rerouting (properties : Option Bag) (startId endId : Option Id) : Patch .relationship :=
  { type := none, properties, ends := (⟨startId, endId⟩ : EndpointsPatch) }

/-- A node of a graph in a suite. -/
def suiteNode : Id := ⟨.object [("suite", .string "docs"), ("id", .string "n-1")]⟩

/-- A bag with a year and with null in an array. -/
def sinceBag : Bag := [("since", .number (.integer 2001)), ("tags", .array [.null])]

/-- Of a change of the bag and of both endpoints, one of them null, all is read but the null. -/
theorem rerouting_over_wire :
    (Id.ofString "r").value.Proper Number.Whole
      ∧ (rerouting (some sinceBag) (some suiteNode) (some ⟨.null⟩)).Proper Number.Whole
      ∧ decodeEditRequest .relationship (.ofTextStart (editRequest (.ofString "r")
          (rerouting (some sinceBag) (some suiteNode) (some ⟨.null⟩))).text)
        = .ok (.ofString "r", rerouting (some sinceBag) (some suiteNode) none)
      ∧ (rerouting (some sinceBag) (some suiteNode) (some ⟨.null⟩)).heard
        ≠ rerouting (some sinceBag) (some suiteNode) (some ⟨.null⟩) := by
  have hpatch : (rerouting (some sinceBag) (some suiteNode) (some ⟨.null⟩)).Proper
      Number.Whole := by
    refine ⟨?_, ?_, ?_⟩
    · rintro bag ⟨⟩
      exact ⟨by decide, rfl, ⟨trivial, trivial⟩, trivial⟩
    · rintro id ⟨⟩
      exact ⟨by decide, trivial, trivial, trivial⟩
    · rintro id ⟨⟩
      trivial
  have hid : (Id.ofString "r").value.Proper Number.Whole := trivial
  obtain ⟨-, htext, hheard, -⟩ := Patch.heard_over_wire hid hpatch
  exact ⟨hid, hpatch, (htext _).2 ⟨by decide, rfl⟩,
    fun h => hheard.1 h ⟨.null⟩ (.inr rfl) rfl⟩

/-- A change that asks for null as an endpoint goes out with null and comes in without endpoint, so
    that the relationship keeps its old end. -/
theorem null_end_unheard :
    (editRequest (.ofString "r") (rerouting none none (some ⟨.null⟩))).text
        = "\x7b\"id\":\"r\",\"endNodeId\":null\x7d"
      ∧ decodeEditRequest .relationship (.ofTextStart "\x7b\"id\":\"r\",\"endNodeId\":null\x7d")
        = .ok (.ofString "r", rerouting none none none)
      ∧ ∀ (e : Relationship) (now : Int),
        Endpoints.endId ((rerouting none none (some ⟨.null⟩)).apply e now).ends = ⟨.null⟩
          ∧ Endpoints.endId ((rerouting none none none).apply e now).ends
            = Endpoints.endId e.ends := by
  have htext : (editRequest (.ofString "r") (rerouting none none (some ⟨.null⟩))).text
      = "\x7b\"id\":\"r\",\"endNodeId\":null\x7d" := by decide
  have hproper : (editRequest (.ofString "r") (rerouting none none (some ⟨.null⟩))).Proper
      Number.Whole := ⟨by decide, trivial, trivial, trivial⟩
  refine ⟨htext, ?_, fun _ _ => ⟨rfl, rfl⟩⟩
  rw [← htext]
  exact (decodeEditRequest_ofText_iff hproper).2 ⟨by decide, rfl⟩

end PropertyGraph
