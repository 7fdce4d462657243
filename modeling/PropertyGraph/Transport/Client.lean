/-
  PropertyGraph.Transport.Client

  A graph that stands for one behind a server.  It sends each call as a request and makes
  the outcome of the response: the reply, or a transport failure with the status and
  what the server says.  Of changes that the server does not find a target for, the
  failure is the same as that of a graph at hand.
-/
import PropertyGraph.Transport.Http
import PropertyGraph.Transport.Wire

namespace PropertyGraph.Client

open Json (Tree)
open Http (Request Response)

/-- The request that carries a call. -/
def request (call : Call) : Request :=
  { method := "POST"
    path := "/" ++ call.method.name
    contentType := some "application/json"
    body := call.body.text }

/-- What a server says in a response that reports no success: the text under `error`, else
    the whole response. -/
def complaint (text : String) : String :=
  match (Tree.ofText text).toJson with
  | .ok (.object entries) =>
    match Entries.get? "error" entries with
    | some (.string message) => message
    | _ => text
  | _ => text

/-- The outcome that a response reports. -/
def receive (call : Call) (response : Response) : Outcome call.Reply :=
  if !Http.isSuccess response.status then
    .error (.transport (some response.status) (complaint response.text))
  else match call.decodeReply (Tree.ofText response.text) with
    | .ok reply => .ok reply
    | .error _ =>
      .error (.transport (some response.status)
        ("unreadable " ++ call.method.name ++ " response"))

/-- The failure of a change whose target the server does not find. -/
def missingTarget (c : EntityClass) (id : Id) : Failure → Failure
  | .transport (some 404) _ => .notFound c id
  | failure => failure

/-- The outcome of a call that got a response. -/
def outcome : (call : Call) → Response → Outcome call.Reply
  | .edit c id patch, r => (receive (.edit c id patch) r).mapError (missingTarget c id)
  | .remove c id, r => (receive (.remove c id) r).mapError (missingTarget c id)
  | call, r => receive call r

/-- The failure of every call when the server cannot be reached. -/
def outOfReach : Failure := .transport none "no connection"

end PropertyGraph.Client
