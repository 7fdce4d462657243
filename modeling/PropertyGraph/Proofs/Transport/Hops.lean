/-
  PropertyGraph.Proofs.Transport.Hops

  Clients of servers of any suite, and of servers of such clients.  One hop makes of the outcome of
  a suite what `Client.relayed` says, and does nothing else; several hops do so again and again,
  which leaves a reply and a missing target of a change as they are after the first one.
-/
import PropertyGraph.Proofs.Transport.Replies
import PropertyGraph.Proofs.Transport.Requests
import PropertyGraph.Suite.Basic

namespace PropertyGraph

open Json (maxDepth)

variable {call : Call} {c c' : EntityClass} {id id' : Id}

/-! ## What reaches a client -/

/-- A call is a change of the entity under an identity. -/
inductive Call.Changes : Call → EntityClass → Id → Prop
  | edit {c : EntityClass} (id : Id) (patch : Patch c) : (Call.edit c id patch).Changes c id
  | remove (c : EntityClass) (id : Id) : (Call.remove c id).Changes c id

/-- A reply that a response carries as it is: its numbers are integers of 64 bits, and it nests no
    deeper than a reader takes. -/
structure Call.PortableReply (call : Call) (reply : call.Reply) : Prop where
  whole : call.ProperReply Number.Whole reply
  shallow : (call.encodeReply reply).nesting ≤ maxDepth

namespace Client

@[simp] theorem relayed_ok (reply : call.Reply) : relayed call (.ok reply) = .ok reply := rfl

@[simp] theorem relayed_error (failure : Failure) :
    relayed call (.error failure) = .error (reported call failure) := rfl

theorem reported_transport (call : Call) (status : Option Nat) (text : String) :
    ∃ status' text', reported call (.transport status text) = .transport status' text' := by
  cases call <;> exact ⟨_, _, rfl⟩

/-- A missing target of a change is reported under the identity of the change. -/
theorem reported_notFound (h : call.Changes c id) (c' : EntityClass) (id' : Id) :
    reported call (.notFound c' id') = .notFound c id := by
  cases h <;> rfl

/-- Any other failure is one of the transport. -/
theorem reported_of_other {failure : Failure}
    (h : ∀ c id, call.Changes c id → ∀ c' id', failure ≠ .notFound c' id') :
    reported call failure = .transport (some failure.status) failure.message := by
  cases call with
  | edit c id patch =>
    cases failure with
    | notFound c' id' => exact absurd rfl (h c id (.edit id patch) c' id')
    | _ => rfl
  | remove c id =>
    cases failure with
    | notFound c' id' => exact absurd rfl (h c id (.remove c id) c' id')
    | _ => rfl
  | _ => rfl

theorem relayed_iterate_error (n : Nat) (failure : Failure) :
    ∃ failure', (relayed call)^[n] (.error failure) = .error failure' := by
  induction n generalizing failure with
  | zero => exact ⟨failure, rfl⟩
  | succ n ih => exact ih (reported call failure)

theorem relayed_iterate_transport (call : Call) (n : Nat) (status : Option Nat) (text : String) :
    ∃ status' text', (relayed call)^[n] (.error (.transport status text))
      = .error (.transport status' text') := by
  induction n generalizing status text with
  | zero => exact ⟨status, text, rfl⟩
  | succ n ih =>
    obtain ⟨status', text', hreported⟩ := reported_transport call status text
    rw [Function.iterate_succ_apply, relayed_error, hreported]
    exact ih status' text'

end Client

/-- What the outermost of `n` clients answers, by what the suite behind all of them answers: the
    same reply; for a missing target of a change the same failure under the identity that the client
    was asked for; for any other failure one of the transport, which has the status and the message
    of that failure if there is one client only. -/
structure Call.Relays (n : Nat) (call : Call) (inner outer : Outcome call.Reply) : Prop where
  reply : ∀ reply, inner = .ok reply → outer = .ok reply
  missing : ∀ c id, call.Changes c id → ∀ c' id', inner = .error (.notFound c' id') →
    outer = .error (.notFound c' id)
  failure : ∀ failure, inner = .error failure →
    (∀ c id, call.Changes c id → ∀ c' id', failure ≠ .notFound c' id') →
    ∃ status text, outer = .error (.transport status text)
      ∧ (n = 1 → status = some failure.status ∧ text = failure.message)

/-- What is relayed some times, if a change only misses an entity of its own class. -/
theorem Client.relays_iterate {n : Nat} (hn : 0 < n) {inner : Outcome call.Reply}
    (hclass : ∀ c id, call.Changes c id → ∀ c' id', inner = .error (.notFound c' id') → c' = c) :
    call.Relays n inner ((relayed call)^[n] inner) := by
  obtain ⟨m, rfl⟩ : ∃ m, n = m + 1 := ⟨n - 1, by omega⟩
  refine ⟨fun reply hreply => ?_, fun c id hchanges c' id' hmissing => ?_,
    fun failure hfailure hother => ?_⟩
  · rw [hreply]
    exact Function.iterate_fixed (relayed_ok reply) (m + 1)
  · have hfixed : relayed call (.error (.notFound c id)) = .error (.notFound c id) := by
      rw [relayed_error, reported_notFound hchanges]
    obtain rfl := hclass c id hchanges c' id' hmissing
    rw [hmissing, Function.iterate_succ_apply, relayed_error, reported_notFound hchanges]
    exact Function.iterate_fixed hfixed m
  · rw [hfailure, Function.iterate_succ_apply, relayed_error, reported_of_other hother]
    obtain ⟨status, text, hrelayed⟩ :=
      relayed_iterate_transport call m (some failure.status) failure.message
    refine ⟨status, text, hrelayed, fun hone => ?_⟩
    obtain rfl : m = 0 := by omega
    obtain ⟨rfl, rfl⟩ := Failure.transport.inj (Except.error.inj hrelayed)
    exact ⟨rfl, rfl⟩

/-! ## Hops -/

namespace Suite

variable {stamp : Stamp} {suite suite' : Suite} {tree tree' : FileTree}
  {outcome : Outcome call.Reply}

/-- A client of a server of a suite makes its call there. -/
theorem run_remote (hcall : call.Portable)
    (hrun : (answer stamp suite call).run tree = ((outcome, suite'), tree'))
    (hreply : ∀ reply, outcome = .ok reply → call.PortableReply reply) :
    (answer stamp (.remote suite) call).run tree
      = ((Client.relayed call outcome, .remote suite'), tree') := by
  have hserved : (Server.respond (fun call => answer stamp suite call) suite
      (Client.request call)).run tree = ((Server.response call outcome, suite'), tree') := by
    rw [Server.respond, Server.callOf_request hcall]
    simp only [FileProgram.run_bind, hrun, FileProgram.run_pure]
  have houtcome := Client.outcome_response fun reply h => ⟨(hreply reply h).whole,
    (hreply reply h).shallow⟩
  rw [answer, FileProgram.run_bind, hserved]
  simp only [FileProgram.run_pure, houtcome]

/-- The outermost of `n` clients, each of a server of the next one, the last one of a server of a
    suite. -/
def behind (n : Nat) (suite : Suite) : Suite := Suite.remote^[n] suite

/-- Every client relays what the next one answers. -/
theorem run_behind (n : Nat) (hcall : call.Portable)
    (hrun : (answer stamp suite call).run tree = ((outcome, suite'), tree'))
    (hreply : ∀ reply, outcome = .ok reply → call.PortableReply reply) :
    (answer stamp (behind n suite) call).run tree
      = (((Client.relayed call)^[n] outcome, behind n suite'), tree') := by
  induction n with
  | zero => exact hrun
  | succ n ih =>
    rw [behind, behind, Function.iterate_succ_apply', Function.iterate_succ_apply',
      Function.iterate_succ_apply']
    refine run_remote hcall ih fun reply h => ?_
    -- what is relayed as a reply was one
    cases outcome with
    | ok inner =>
      obtain rfl : inner = reply := by
        rw [Function.iterate_fixed (Client.relayed_ok inner)] at h
        exact Except.ok.inj h
      exact hreply inner rfl
    | error failure =>
      obtain ⟨failure', hfailure⟩ := Client.relayed_iterate_error n failure
      rw [hfailure] at h
      cases h

end Suite

end PropertyGraph
