/-
  PropertyGraph.Transport.Server

  Any graph behind a server.  Each method is a path that takes a posted JSON body; the
  first value of the body counts.  A reply goes out with status 200, a failure with the
  status of its cause and its message.  What is no proper request is turned away before
  the graph is asked.
-/
import PropertyGraph.Storage.FileProgram
import PropertyGraph.Transport.Http
import PropertyGraph.Transport.Wire

namespace PropertyGraph

open Json (Tree)
open Http (Request Response)

/-- The status under which a failure is reported. -/
def Failure.status : Failure → Nat
  | .notFound _ _ => 404
  | .identity _ | .path _ _ | .typeName _ | .unsupported _
  | .unownedType _ _ => 400
  | .movedType _ _ _ _ => 409
  | _ => 500

namespace Server

/-- The response that reports a failure. -/
def refusal (failure : Failure) : Response :=
  { status := failure.status
    content := .json (Json.object [("error", .string failure.message)]).text }

/-- The response to a call that has been answered. -/
def response (call : Call) : Outcome call.Reply → Response
  | .ok reply => { status := 200, content := .json (call.encodeReply reply).text }
  | .error failure => refusal failure

/-- A response without JSON. -/
def turnAway (status : Nat) (text : String) : Response := { status, content := .words text }

/-- The path of a request without its query. -/
def pathOf (target : String) : String :=
  String.ofList (target.toList.takeWhile fun c => c != '?' && c != '#')

/-- The method that a path names. -/
def methodOf (path : String) : Option Method :=
  match path.toList with
  | '/' :: name => Method.named (String.ofList name)
  | _ => none

/-- Whether a method has a body to read. -/
def hasBody : Method → Bool
  | .types _ => false
  | _ => true

/-- The call of a request, or the response that turns the request away. -/
def callOf (request : Request) : Except Response Call :=
  if request.method = "OPTIONS" then .error (turnAway 200 "")
  else match methodOf (pathOf request.path) with
    | none => .error (turnAway 404 "")
    | some m =>
      if request.method ≠ "POST" then .error (turnAway 405 "")
      else if hasBody m && !(request.contentType.any Http.isJsonType) then
        .error (turnAway 415 "a JSON content type is required")
      else match m.decode (Tree.ofTextStart request.body) with
        | .ok call => .ok call
        | .error .malformed => .error (turnAway 400 "the body is not JSON")
        | .error .misfit => .error (turnAway 422 "the body does not fit the method")

/-- Serves one request to a graph of any kind. -/
def respond {σ : Type} (answer : (call : Call) → FileProgram (Outcome call.Reply × σ))
    (graph : σ) (request : Request) : FileProgram (Response × σ) :=
  match callOf request with
  | .error turned => pure (turned, graph)
  | .ok call => do
    let (outcome, graph) ← answer call
    return (response call outcome, graph)

end Server

end PropertyGraph
