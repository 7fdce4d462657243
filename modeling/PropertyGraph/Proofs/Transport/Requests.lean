/-
  PropertyGraph.Proofs.Transport.Requests

  Requests.  A call without doubles that nests no deeper than a reader takes is read by the server
  as the call that the client was asked, method by method.  Only a patch can lose something on the
  way: null for an endpoint reads as no endpoint at all.
-/
import PropertyGraph.Proofs.Searcher.Roundtrip
import PropertyGraph.Proofs.Transport.PatchWire
import PropertyGraph.Transport.Client
import PropertyGraph.Transport.Server

namespace PropertyGraph

open Json (Tree Record printedTree printedEntries maxDepth)

variable {c : EntityClass} {p : Number → Prop} {outer : Nat}

/-! ## Values in a request -/

theorem Body.proper_of_toJson {b : Body c} (h : b.toJson.Proper p) : b.Proper p := by
  have hvalues := Json.properEntries_iff.1 h.2
  refine ⟨hvalues ("properties", .object b.properties) (by simp), ?_⟩
  cases c with
  | node => trivial
  | relationship =>
    exact ⟨hvalues ("startNodeId", b.ends.startId.value) (by simp [EntityClass.endsEntries]),
      hvalues ("endNodeId", b.ends.endId.value) (by simp [EntityClass.endsEntries])⟩

/-- An identity in a request is read as it was. -/
theorem Id.decode_of_whole {id : Id} (hid : id.value.Proper Number.Whole)
    (h : (printedTree outer id.value).withinLimit = true) :
    Id.decode (printedTree outer id.value) = .ok id := by
  rw [Id.decode, hid.toJson_printedTree h]
  rfl

/-- A bag in a request is read as it was. -/
theorem toBag_of_whole {bag : Bag} (hbag : (Json.object bag).Proper Number.Whole)
    (h : (printedTree outer (.object bag)).withinLimit = true) :
    Tree.toBag (printedTree outer (.object bag)) = .ok bag := by
  rw [Tree.toBag_printedTree outer bag h]
  exact congrArg Except.ok (Json.object.inj (Json.Proper.reread _ hbag))

/-! ## Bodies -/

/-- A body is read as it was. -/
theorem Body.decode_printedTree {b : Body c} (hb : b.Proper Number.Whole)
    (h : (printedTree outer b.toJson).withinLimit = true) :
    Body.decode (printedTree outer b.toJson) = .ok b := by
  have hbag := toBag_of_whole hb.properties
    (Tree.withinLimit_field h (e := ("properties", .object b.properties)) (by simp))
  rw [Body.toJson, printedTree] at h ⊢
  have hopen := Tree.limited_of_withinLimit h
  rw [hopen] at h ⊢
  simp only [Tree.withinLimit, printedEntries_append, withinLimitEntries_append,
    Bool.and_eq_true] at h
  have hends := EntityClass.reads_ends h.2
  rw [hb.ends.reread fun _ => Number.Whole.reread] at hends
  -- the three parts of a body take their fields out of one list of entries
  have hentries : printedEntries (outer + 1)
      ([("type", .string b.type), ("properties", .object b.properties)] ++ c.endsEntries b.ends)
      = [(some "type", printedTree (outer + 1) (.string b.type))]
        ++ ([(some "properties", printedTree (outer + 1) (.object b.properties))]
        ++ printedEntries (outer + 1) (c.endsEntries b.ends)) := by
    simp [printedEntries]
  rw [hentries]
  refine Record.decode_of_reads (Record.reads_map
    (f := fun x : String × Bag × c.Ends => (⟨x.1, x.2.1, x.2.2⟩ : Body c))
    (x := (b.type, b.properties, b.ends))
    (Record.reads_both (Record.reads_field rfl)
      (Record.reads_both (Record.reads_field hbag) hends ?_) ?_))
  · intro key value hmem
    rcases mem_keys_ends hmem with rfl | rfl <;> exact Record.foreign_field (by decide)
  · intro key value hmem
    rcases List.mem_append.1 hmem with hmem | hmem
    · obtain ⟨rfl, -⟩ : key = "properties" ∧ _ := by simpa using hmem
      exact Record.foreign_field (by decide)
    · rcases mem_keys_ends hmem with rfl | rfl <;> exact Record.foreign_field (by decide)

/-! ## Changes -/

/-- A request for a change is read as it was. -/
theorem decodeEditRequest_printedTree {id : Id} {patch : Patch c}
    (hproper : (editRequest id patch).Proper Number.Whole) (hnamed : c.NamedEnds patch.ends)
    (h : (printedTree outer (editRequest id patch)).withinLimit = true) :
    decodeEditRequest c (printedTree outer (editRequest id patch)) = .ok (id, patch) := by
  rw [Tree.printedTree_eq_ofJson outer _ hproper h, decodeEditRequest_ofJson hproper,
    Patch.heard_eq_self_iff.2 hnamed]

/-! ## Calls -/

/-- No patch in a call has a null endpoint. -/
def Call.NamesEnds : Call → Prop
  | .edit c _ patch => c.NamedEnds patch.ends
  | _ => True

/-- A call that a request carries as it is: its numbers are integers of 64 bits, it nests no deeper
    than a reader takes, and no endpoint of a patch is null. -/
structure Call.Portable (call : Call) : Prop where
  whole : call.body.Proper Number.Whole
  shallow : call.body.nesting ≤ maxDepth
  named : call.NamesEnds

theorem decodeIdRequest_printedTree {id : Id} (hproper : (idRequest id).Proper Number.Whole)
    (h : (printedTree 0 (idRequest id)).withinLimit = true) :
    decodeIdRequest (printedTree 0 (idRequest id)) = .ok id := by
  have hid := Id.decode_of_whole hproper.2.1
    (Tree.withinLimit_field h (e := ("id", id.value)) (List.mem_cons_self ..))
  exact Record.decode_of_reads (Record.reads_field hid)

theorem decodeSearchRequest_printedTree {s : Searcher}
    (hproper : (searchRequest s).Proper Number.Whole)
    (h : (printedTree 0 (searchRequest s)).withinLimit = true) :
    decodeSearchRequest (printedTree 0 (searchRequest s)) = .ok s := by
  have hs := Searcher.decodeAt_printedTree false 1 s hproper.2.1
    (Tree.withinLimit_field h (e := ("searcher", s.toJson)) (List.mem_cons_self ..))
  exact Record.decode_of_reads (Record.reads_field hs)

/-- The body of a call is read as the call. -/
theorem Call.Portable.decode {call : Call} (h : call.Portable) :
    call.method.decode (printedTree 0 call.body) = .ok call := by
  have hlimit : (printedTree 0 call.body).withinLimit = true :=
    (Tree.withinLimit_printedTree_iff (Nat.zero_le _) _).2 (by simpa using h.shallow)
  have hproper := h.whole
  cases call with
  | get c id =>
    rw [Call.method, Method.decode, Call.body, decodeIdRequest_printedTree hproper hlimit]
    rfl
  | search c s =>
    rw [Call.method, Method.decode, Call.body, decodeSearchRequest_printedTree hproper hlimit]
    rfl
  | create c b =>
    rw [Call.method, Method.decode, Call.body,
      Body.decode_printedTree (Body.proper_of_toJson hproper) hlimit]
    rfl
  | edit c id patch =>
    rw [Call.method, Method.decode, Call.body, decodeEditRequest_printedTree hproper h.named hlimit]
    rfl
  | remove c id =>
    rw [Call.method, Method.decode, Call.body, decodeIdRequest_printedTree hproper hlimit]
    rfl
  | types c => rfl

namespace Server

/-- Each method is found under its path. -/
theorem methodOf_path (m : Method) : methodOf (pathOf ("/" ++ m.name)) = some m := by
  cases m with
  | get c => cases c <;> rfl
  | search c => cases c <;> rfl
  | create c => cases c <;> rfl
  | edit c => cases c <;> rfl
  | remove c => cases c <;> rfl
  | types c => cases c <;> rfl

/-- A server takes a request as the call that the body of the request is read as. -/
theorem callOf_of_decode {call read : Call}
    (h : call.method.decode (Tree.ofTextStart call.body.text) = .ok read) :
    callOf (Client.request call) = .ok read := by
  have hjson : Http.isJsonType "application/json" = true := by decide
  simp [callOf, Client.request, methodOf_path, h, hjson]

/-- A server takes the request of a call as that call. -/
theorem callOf_request {call : Call} (h : call.Portable) :
    callOf (Client.request call) = .ok call := by
  have hlegible := Json.Proper.mono Number.stable_whole.legible _ h.whole
  refine callOf_of_decode ?_
  rw [Tree.ofTextStart_text hlegible]
  exact h.decode

/-- A server takes a request for a change as a call for what is heard of the patch. -/
theorem callOf_edit {id : Id} {patch : Patch c}
    (h : (editRequest id patch).Proper Number.Whole)
    (hshallow : (editRequest id patch).nesting ≤ maxDepth) :
    callOf (Client.request (.edit c id patch)) = .ok (.edit c id patch.heard) := by
  refine callOf_of_decode ?_
  rw [Call.method, Call.body, Method.decode, (decodeEditRequest_ofText_iff h).2 ⟨hshallow, rfl⟩]
  rfl

end Server

end PropertyGraph
