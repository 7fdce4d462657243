/-
  PropertyGraph.Suite.Basic

  Graphs of every kind, and what each answers to a call.  A suite is a store in memory, a
  file engine, a dispatcher over named suites, or a client of a server.  A dispatcher
  sends a call to the suite that owns the type or that the identity names, and composes
  identities on the way out; a search goes to the owners of all types that its plan
  leaves open, type by type.  The answer to a call comes with the suite as it is after
  the call.
-/
import PropertyGraph.Routing.CompositeId
import PropertyGraph.Memory.Store
import PropertyGraph.Routing.Owners
import PropertyGraph.Storage.Engine
import PropertyGraph.Transport.Client
import PropertyGraph.Transport.Server

namespace PropertyGraph

/-- A graph of some kind. -/
inductive Suite where
  | store (s : Store)
  | engine (g : Engine)
  | dispatcher (members : List (String × Suite)) (owners : Owners)
  /-- a client of a server that serves another suite -/
  | remote (server : Suite)
  /-- a client of a server with prepared responses, by path -/
  | prepared (responses : Entries Http.Response)
  /-- a client of a server that cannot be reached -/
  | outOfReach

namespace Suite

/-! ## Dispatching -/

/-- An entity with its identity composed with the name of its suite. -/
def compose {c : EntityClass} (suite : String) (e : Entity c) : Entity c :=
  { e with id := (CompositeId.mk suite e.id).toId }

/-- Refuses a change of type that would move an entity to another suite. -/
def forbidMove (owners : Owners) (c : EntityClass) (id : Id) (owner type : String) :
    Outcome Unit := do
  let target ← owners.owner c type
  if target = owner then .ok ()
  else .error (.movedType id owner type target)

/-- A search in one suite, narrowed to one type. -/
structure PartialSearch where
  suite : String
  searcher : Searcher

/-- The searches in the suites that a search divides into. -/
def divide (owners : Owners) (c : EntityClass) (s : Searcher) : Outcome (List PartialSearch) := do
  s.checkPaths
  match ← s.plan with
  | .byType residuals =>
    return residuals.filterMap fun (type, residual) =>
      (owners.owner? c type).map fun owner => ⟨owner, .all [.typeEq type, residual]⟩
  | .everyType s =>
    return (owners.table c).map fun (type, owner) => ⟨owner, .all [.typeEq type, s]⟩

/-- Whether a suite answers a search without waiting for files or for a server. -/
def isPrompt : Suite → Bool
  | .store _ => true
  | .dispatcher members _ => membersPrompt members
  | _ => false
where
  /-- Whether all members of a dispatcher answer without waiting. -/
  membersPrompt : List (String × Suite) → Bool
    | [] => true
    | (_, s) :: rest => isPrompt s && membersPrompt rest

/-- Whether the named suite among the members answers without waiting. -/
def namedPrompt (members : List (String × Suite)) (name : String) : Bool :=
  match Entries.get? name members with
  | some s => s.isPrompt
  | none => true

/-- The first failure in a list of outcomes. -/
def firstFailure? {α : Type} : List (Outcome α) → Option Failure
  | [] => none
  | .error failure :: _ => some failure
  | .ok _ :: rest => firstFailure? rest

/-- The results of a list of outcomes, as far as they succeeded. -/
def results {α : Type} : List (Outcome (List α)) → List α
  | [] => []
  | .ok found :: rest => found ++ results rest
  | .error _ :: rest => results rest

/-- All results of several searches in their order.  If some fail, the first failure among
    those that need not wait is reported, else the first of all. -/
def gather {α : Type} (outcomes : List (Bool × Outcome (List α))) : Outcome (List α) :=
  match firstFailure? ((outcomes.filter Prod.fst).map Prod.snd) with
  | some failure => .error failure
  | none =>
    match firstFailure? (outcomes.map Prod.snd) with
    | some failure => .error failure
    | none => .ok (results (outcomes.map Prod.snd))

/-! ## Answers -/

mutual

/-- The answer to a call, and the suite after it. -/
def answer (stamp : Stamp) : Suite → (call : Call) → FileProgram (Outcome call.Reply × Suite)
  | .store s, call => do
    let (outcome, s) ← s.answer stamp call
    return (outcome, .store s)
  | .engine g, call => do
    return (← (g.answer stamp call).outcome, .engine g)
  | .dispatcher members owners, .get c id =>
    match CompositeId.ofId id with
    | .error failure => pure (.error failure, .dispatcher members owners)
    | .ok composite => do
      let (outcome, members) ← answerIn stamp members composite.suite (.get c composite.id)
      return (outcome.map fun (e : Option (Entity c)) => e.map (compose composite.suite),
        .dispatcher members owners)
  | .dispatcher members owners, .search c s =>
    match divide owners c s with
    | .error failure => pure (.error failure, .dispatcher members owners)
    | .ok tasks => do
      let outcomes ← tasks.mapM fun task => do
        let (outcome, _) ← answerIn stamp members task.suite (.search c task.searcher)
        return (namedPrompt members task.suite,
          outcome.map fun (es : List (Entity c)) => es.map (compose task.suite))
      return (gather outcomes, .dispatcher members owners)
  | .dispatcher members owners, .create c body =>
    match owners.owner c body.type with
    | .error failure => pure (.error failure, .dispatcher members owners)
    | .ok owner => do
      let (outcome, members) ← answerIn stamp members owner (.create c body)
      return (outcome.map fun (e : Entity c) => compose owner e, .dispatcher members owners)
  | .dispatcher members owners, .edit c id patch =>
    match CompositeId.ofId id with
    | .error failure => pure (.error failure, .dispatcher members owners)
    | .ok composite =>
      let check : Outcome Unit := do
        if (Entries.get? composite.suite members).isNone then
          .error (.identity (.unknownSuite composite.suite))
        else match patch.type with
          | none => .ok ()
          | some type => forbidMove owners c id composite.suite type
      match check with
      | .error failure => pure (.error failure, .dispatcher members owners)
      | .ok _ => do
        let (outcome, members) ←
          answerIn stamp members composite.suite (.edit c composite.id patch)
        return (outcome.map fun (e : Entity c) => compose composite.suite e,
          .dispatcher members owners)
  | .dispatcher members owners, .remove c id =>
    match CompositeId.ofId id with
    | .error failure => pure (.error failure, .dispatcher members owners)
    | .ok composite => do
      let (outcome, members) ← answerIn stamp members composite.suite (.remove c composite.id)
      return (outcome, .dispatcher members owners)
  | .dispatcher members owners, .types c =>
    pure (.ok (owners.types c), .dispatcher members owners)
  | .remote server, call => do
    let (response, server) ←
      Server.respond (fun call => answer stamp server call) server (Client.request call)
    return (Client.outcome call response, .remote server)
  | .prepared responses, call =>
    let response := ((Entries.get? (Client.request call).path responses).getD
      (Server.turnAway 404 ""))
    pure (Client.outcome call response, .prepared responses)
  | .outOfReach, _ => pure (.error Client.outOfReach, .outOfReach)

/-- The answer of the named suite among the members of a dispatcher, and the members after
    it. -/
def answerIn (stamp : Stamp) : List (String × Suite) → String → (call : Call) →
    FileProgram (Outcome call.Reply × List (String × Suite))
  | [], name, _ => pure (.error (.identity (.unknownSuite name)), [])
  | (n, s) :: rest, name, call =>
    if n = name then do
      let (outcome, s) ← answer stamp s call
      return (outcome, (n, s) :: rest)
    else do
      let (outcome, rest) ← answerIn stamp rest name call
      return (outcome, (n, s) :: rest)

end

/-- Serves one request to a suite. -/
def serve (stamp : Stamp) (suite : Suite) (request : Http.Request) :
    FileProgram (Http.Response × Suite) :=
  Server.respond (fun call => answer stamp suite call) suite request

end Suite

end PropertyGraph
