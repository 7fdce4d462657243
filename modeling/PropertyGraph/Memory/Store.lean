/-
  PropertyGraph.Memory.Store

  The store in memory.  Its state is kept by a keeper: either as a value that each change
  replaces, or in a snapshot file that is read anew for every operation and written back
  after a change that succeeds.  Identities are texts; an identity of another form is
  refused before the keeper is asked.
-/
import PropertyGraph.Call
import PropertyGraph.Memory.State
import PropertyGraph.Storage.FileProgram

namespace PropertyGraph

open Json (Tree)

/-- Where the state of a store is kept. -/
inductive Keeper where
  /-- as a value -/
  | shared (state : GraphState)
  /-- in a file -/
  | snapshot (path : String)

namespace Keeper

/-- The state in a snapshot file; a file that does not exist holds the empty state. -/
def load (path : String) : FileTask GraphState := do
  match ← FileTask.read path with
  | none => return .empty
  | some text =>
    match GraphState.decode (Tree.ofText text) with
    | .ok s => return s
    | .error _ => throw .malformed

/-- Writes a snapshot file, with the directories above it. -/
def save (path : String) (s : GraphState) : FileTask Unit := do
  match FilePath.parent? path with
  | some above => FileTask.makeDirectories above
  | none => pure ()
  FileTask.replace path s.toJson.pretty

/-- Looks at the state. -/
def read {α : Type} (k : Keeper) (f : GraphState → Outcome α) : FileTask α :=
  match k with
  | .shared s => FileTask.ofOutcome (f s)
  | .snapshot path => do FileTask.ofOutcome (f (← load path))

/-- Changes the state.  A shared state takes every change as it comes, a snapshot only the
    changes that succeed. -/
def update {α : Type} (k : Keeper) (f : GraphState → Outcome α × GraphState) :
    FileProgram (Outcome α × Keeper) :=
  match k with
  | .shared s => let (outcome, s) := f s; pure (outcome, .shared s)
  | .snapshot path => do
    let outcome ← (do
      let (outcome, s) := f (← load path)
      let a ← FileTask.ofOutcome outcome
      save path s
      return a : FileTask α).outcome
    return (outcome, .snapshot path)

end Keeper

/-- A store in memory. -/
structure Store where
  idPrefix : Option String
  evaluators : Evaluators
  keeper : Keeper

namespace Store

/-- Looks at the state. -/
def look {α : Type} (store : Store) (f : GraphState → Outcome α) :
    FileProgram (Outcome α × Store) := do
  return (← (store.keeper.read f).outcome, store)

/-- Changes the state. -/
def change {α : Type} (store : Store) (f : GraphState → Outcome α × GraphState) :
    FileProgram (Outcome α × Store) := do
  let (outcome, keeper) ← store.keeper.update f
  return (outcome, { store with keeper })

/-- Goes on with the text of an identity, if it is one. -/
def withKey {α : Type} (store : Store) (id : Id)
    (f : String → FileProgram (Outcome α × Store)) : FileProgram (Outcome α × Store) :=
  match id.requireText with
  | .ok key => f key
  | .error failure => pure (.error failure, store)

/-- The answer to a call, and the store after it. -/
def answer (store : Store) (stamp : Stamp) :
    (call : Call) → FileProgram (Outcome call.Reply × Store)
  | .get c id => store.withKey id fun key => store.look fun s => .ok (s.get c key)
  | .search c searcher =>
    match searcher.compile (store.evaluators.forClass c) with
    | .error failure => pure (.error failure, store)
    | .ok m => store.look fun s => m.filter (s.entities c).values
  | .create c body =>
    let key := store.idPrefix.getD "" ++ stamp.unique
    let e : Entity c := body.create (.ofString key) (some stamp.time)
    store.change fun s => (.ok e, s.insert key e)
  | .edit _ id patch =>
    store.withKey id fun key => store.change fun s => s.edit id key patch stamp.time
  | .remove c id => store.withKey id fun key => store.change fun s => s.remove c id key
  | .types c => store.look fun s => .ok (s.types c)

end Store

end PropertyGraph
