/-
  PropertyGraph.Storage.Engine

  The file engine: nodes and relationships in documents below a root directory.  Nodes
  pass through the raw-text rules that govern their type, in the order of the rules, both
  when they are written and when they are read.  A search reads only the documents of
  the types that its plan leaves open and that are known to exist.
-/
import PropertyGraph.Call
import PropertyGraph.Searcher.Plan
import PropertyGraph.Storage.Catalog
import PropertyGraph.Storage.RawText

namespace PropertyGraph

/-! ## The engine -/

/-- A graph in documents below a root directory. -/
structure Engine where
  root : String
  idPrefix : Option String
  rules : List RawText
  evaluators : Evaluators

namespace Engine

/-- Makes the root directory of a graph, if need be. -/
def prepare (root : String) : FileTask Unit := FileTask.makeDirectories root

/-- The rules that govern a type, in order. -/
def rulesFor (g : Engine) (type : String) : List RawText :=
  g.rules.filter fun rule => rule.covers type

/-! ### Raw texts -/

/-- An entity as its owner sees it, from the entity as stored. -/
def view (g : Engine) : {c : EntityClass} → Entity c → FileTask (Entity c)
  | .node, e => (g.rulesFor e.type).foldlM (fun e rule => rule.merge g.root e) e
  | .relationship, e => pure e

/-- An entity as stored, from the entity as its owner sees it. -/
def stored (g : Engine) : {c : EntityClass} → Entity c → FileTask (Entity c)
  | .node, e => (g.rulesFor e.type).foldlM (fun e rule => rule.split g.root e) e
  | .relationship, e => pure e

/-- Removes what an entity as stored keeps outside of its document, by the rules that
    govern `type`. -/
def discard (g : Engine) (type : String) : {c : EntityClass} → Entity c → FileTask Unit
  | .node, e => (g.rulesFor type).forM fun _ => RawText.discard g.root e
  | .relationship, _ => pure ()

/-! ### Reading -/

/-- The entity of an identity, if there is one. -/
def get (g : Engine) (c : EntityClass) (id : Id) : FileTask (Option (Entity c)) := do
  match ← Catalog.get g.root c id with
  | some e => return some (← g.view e)
  | none => return none

/-- The documents that a plan asks for, each with what is still to be checked. -/
def documents (known : List String) : Plan → List (String × Searcher)
  | .byType residuals => residuals.filter fun (type, _) => known.contains type
  | .everyType s => known.map fun type => (type, s)

/-- The entities among some as stored that match, as their owner sees them. -/
def keep (g : Engine) {c : EntityClass} (m : CompiledSearcher c) :
    List (Entity c) → FileTask (List (Entity c))
  | [] => return []
  | e :: rest => do
    let seen ← g.view e
    let hit ← FileTask.ofOutcome (m.test seen)
    let more ← keep g m rest
    return if hit then seen :: more else more

/-- The matching entities of several types. -/
def scan (g : Engine) (c : EntityClass) : List (String × Searcher) → FileTask (List (Entity c))
  | [] => return []
  | (type, residual) :: rest => do
    let m ← FileTask.ofOutcome (residual.compile (g.evaluators.forClass c))
    let found ← g.keep m (← Catalog.load g.root c type)
    let more ← scan g c rest
    return found ++ more

/-- The entities that match a searcher. -/
def search (g : Engine) (c : EntityClass) (s : Searcher) : FileTask (List (Entity c)) := do
  FileTask.ofOutcome s.checkPaths
  let plan ← FileTask.ofOutcome s.plan
  if plan.isEmpty then return []
  else g.scan c (documents (← Catalog.types g.root c) plan)

/-- The types that have a document. -/
def types (g : Engine) (c : EntityClass) : FileTask (List String) := Catalog.types g.root c

/-! ### Writing -/

/-- Creates an entity. -/
def create (g : Engine) {c : EntityClass} (stamp : Stamp) (body : Body c) :
    FileTask (Entity c) := do
  FileTask.ofOutcome (Naming.checkType body.type)
  let e := body.create (.fresh g.idPrefix stamp.unique) (some stamp.time)
  Catalog.insert g.root (← g.stored e)
  return e

/-- Changes an entity.  What its old form keeps outside of the document is removed before
    the new form is written. -/
def edit (g : Engine) {c : EntityClass} (stamp : Stamp) (id : Id) (patch : Patch c) :
    FileTask (Entity c) := do
  let (old, kept) ← Catalog.locate g.root c id
  let e := patch.apply (← g.view kept) stamp.time
  FileTask.ofOutcome (Naming.checkType e.type)
  g.discard old kept
  Catalog.put g.root old (← g.stored e)
  return e

/-- Removes an entity. -/
def remove (g : Engine) (c : EntityClass) (id : Id) : FileTask Unit := do
  let kept ← Catalog.remove g.root c id
  g.discard kept.type kept

/-- The answer to a call. -/
def answer (g : Engine) (stamp : Stamp) : (call : Call) → FileTask call.Reply
  | .get c id => g.get c id
  | .search c searcher => g.search c searcher
  | .create _ body => g.create stamp body
  | .edit _ id patch => g.edit stamp id patch
  | .remove c id => g.remove c id
  | .types c => g.types c

end Engine

end PropertyGraph
