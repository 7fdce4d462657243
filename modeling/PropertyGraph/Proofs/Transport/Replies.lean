/-
  PropertyGraph.Proofs.Transport.Replies

  Responses.  What a client makes of the response to its call is a function of what the server was
  answered: a reply without doubles that nests no deeper than a reader takes comes through as it is,
  a failure as a failure of the transport with its status and its message, and a missing target of a
  change as the same failure under the identity that the client was asked for.
-/
import PropertyGraph.Proofs.Json.Bounded
import PropertyGraph.Proofs.Json.CompactText
import PropertyGraph.Proofs.Storage.Document
import PropertyGraph.Transport.Client
import PropertyGraph.Transport.Server

namespace PropertyGraph

open Json (Tree printedTree maxDepth)

variable {call : Call} {c : EntityClass}

/-! ## Replies -/

namespace Call

/-- All entities in a reply are proper. -/
def ProperReply (p : Number → Prop) : (call : Call) → call.Reply → Prop
  | .get _ _, (e : Option (Entity _)) => ∀ x, e = some x → x.Proper p
  | .search _ _, (es : List (Entity _)) => ∀ e ∈ es, e.Proper p
  | .create _ _, (e : Entity _) => e.Proper p
  | .edit _ _ _, (e : Entity _) => e.Proper p
  | .remove _ _, _ => True
  | .types _, _ => True

theorem doubleless_of_mem {items : List Json} (h : (Json.array items).doubleless = true) {v : Json}
    (hv : v ∈ items) : v.doubleless = true := by
  replace h : Json.doublelessItems items = true := h
  induction items with
  | nil => cases hv
  | cons w rest ih =>
    rw [Json.doublelessItems, Bool.and_eq_true] at h
    rcases List.mem_cons.1 hv with rfl | hv
    · exact h.1
    · exact ih hv h.2

/-- The entities of a bounded reply without doubles consist of integers of 64 bits. -/
theorem ProperReply.whole {reply : call.Reply} (h : call.ProperReply Number.Bounded reply)
    (hd : (call.encodeReply reply).doubleless = true) : call.ProperReply Number.Whole reply := by
  cases call with
  | get c id =>
    intro e he
    subst he
    exact (h e rfl).whole hd
  | search c s => exact fun e he => (h e he).whole (doubleless_of_mem hd (List.mem_map_of_mem he))
  | create c body => exact Entity.Proper.whole h hd
  | edit c id patch => exact Entity.Proper.whole h hd
  | remove c id => trivial
  | types c => trivial

/-- A proper reply is written as a proper value. -/
theorem ProperReply.encode {reply : call.Reply} (h : call.ProperReply Number.Whole reply) :
    (call.encodeReply reply).Proper Number.Whole := by
  have hentity : ∀ {c : EntityClass} {e : Entity c}, e.Proper Number.Whole →
      e.toJson.Proper Number.Whole := fun he => he.toJson fun _ hn => hn
  cases call with
  | get c id =>
    cases reply with
    | none => trivial
    | some e => exact hentity (h e rfl)
  | search c s =>
    refine Json.properItems_iff.2 fun v hv => ?_
    obtain ⟨e, he, rfl⟩ := List.mem_map.1 hv
    exact hentity (h e he)
  | create c body => exact hentity h
  | edit c id patch => exact hentity h
  | remove c id => trivial
  | types c =>
    refine Json.properItems_iff.2 fun v hv => ?_
    obtain ⟨type, -, rfl⟩ := List.mem_map.1 hv
    trivial

theorem toList_printedItems {α : Type} {decode : Tree → Json.Decoded α} {f : α → Json}
    {items : List α} (h : ∀ x ∈ items, decode (printedTree 1 (f x)) = .ok x) :
    Tree.toList decode (printedTree 0 (.array (items.map f))) = .ok items := by
  rw [Document.toList_printedTree (by decide), List.map_map]
  exact (Document.mapM_of_decoded h).trans (congrArg Except.ok (List.map_id' items))

/-- A proper reply is read as it was. -/
theorem ProperReply.decode {reply : call.Reply} (h : call.ProperReply Number.Whole reply)
    (hlimit : (call.encodeReply reply).nesting ≤ maxDepth) :
    call.decodeReply (printedTree 0 (call.encodeReply reply)) = .ok reply := by
  have hentity : ∀ {c : EntityClass} {e : Entity c} {outer : Nat}, e.Proper Number.Whole →
      (printedTree outer e.toJson).withinLimit = true →
      Entity.decode (printedTree outer e.toJson) = .ok e := by
    intro c e outer he hprinted
    rw [Entity.decode_printedTree he.time hprinted, he.reread]
  have hprinted : (printedTree 0 (call.encodeReply reply)).withinLimit = true :=
    (Tree.withinLimit_printedTree_iff (Nat.zero_le _) _).2 (by simpa using hlimit)
  cases call with
  | get c id =>
    cases reply with
    | none => rfl
    | some e =>
      have hsome : e.toJson ≠ .null := by simp [Entity.toJson]
      show Tree.toOption Entity.decode (printedTree 0 e.toJson) = _
      rw [Tree.toOption_printedTree hsome, hentity (h e rfl) hprinted]
      rfl
  | search c s =>
    exact toList_printedItems fun e he =>
      hentity (h e he) (Tree.withinLimit_item hprinted (List.mem_map_of_mem he))
  | create c body => exact hentity h hprinted
  | edit c id patch => exact hentity h hprinted
  | remove c id => rfl
  | types c => exact toList_printedItems fun type _ => rfl

end Call

/-! ## Failures -/

namespace Client

/-- What a client makes of a failure that its server reports. -/
def reported : Call → Failure → Failure
  | .edit c id _, .notFound _ _ => .notFound c id
  | .remove c id, .notFound _ _ => .notFound c id
  | _, failure => .transport (some failure.status) failure.message

/-- What a client makes of what its server was answered. -/
def relayed (call : Call) (outcome : Outcome call.Reply) : Outcome call.Reply :=
  outcome.mapError (reported call)

/-- The message of a failure is what the client is told. -/
theorem complaint_refusal (failure : Failure) :
    complaint (Server.refusal failure).text = failure.message := by
  have hproper : (Json.object [("error", .string failure.message)]).Proper Number.Whole :=
    ⟨List.pairwise_singleton .., trivial, trivial⟩
  have hread := Json.toJson_ofText_text hproper (show 1 ≤ maxDepth by decide)
  show complaint (Json.object [("error", .string failure.message)]).text = _
  rw [complaint, hread]
  rfl

/-- No failure is reported with a status of success. -/
theorem not_isSuccess (failure : Failure) : Http.isSuccess failure.status = false := by
  cases failure <;> rfl

theorem receive_refusal (call : Call) (failure : Failure) :
    receive call (Server.refusal failure)
      = .error (.transport (some failure.status) failure.message) := by
  have hstatus : Http.isSuccess (Server.refusal failure).status = false := not_isSuccess failure
  rw [receive, hstatus, complaint_refusal]
  rfl

theorem receive_reply {reply : call.Reply} (h : call.ProperReply Number.Whole reply)
    (hlimit : (call.encodeReply reply).nesting ≤ maxDepth) :
    receive call (Server.response call (.ok reply)) = .ok reply := by
  have hlegible := Json.Proper.mono Number.stable_whole.legible _ h.encode
  have htext : (Server.response call (.ok reply)).text = (call.encodeReply reply).text := rfl
  have hstatus : Http.isSuccess (Server.response call (.ok reply)).status = true := rfl
  rw [receive, hstatus, htext, Tree.ofText_text hlegible, h.decode hlimit]
  rfl

/-- The outcome that reaches a client. -/
theorem outcome_response {outcome : Outcome call.Reply}
    (h : ∀ reply, outcome = .ok reply → call.ProperReply Number.Whole reply
      ∧ (call.encodeReply reply).nesting ≤ maxDepth) :
    Client.outcome call (Server.response call outcome) = relayed call outcome := by
  cases outcome with
  | ok reply =>
    obtain ⟨hproper, hlimit⟩ := h reply rfl
    have hreceive := receive_reply hproper hlimit
    cases call <;> simp only [Client.outcome, hreceive] <;> rfl
  | error failure =>
    have hreceive := receive_refusal call failure
    replace hreceive : receive call (Server.response call (.error failure)) = _ := hreceive
    cases call <;> simp only [Client.outcome, hreceive] <;> cases failure <;> rfl

end Client

end PropertyGraph
