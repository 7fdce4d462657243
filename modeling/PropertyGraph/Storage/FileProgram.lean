/-
  PropertyGraph.Storage.FileProgram

  Programs that work on files, as data: a program is done, or it makes one request and
  goes on with the reply.  A program can be run from start to end, and it can be taken
  apart request by request, so that two programs can also be set going in turns.
-/
import PropertyGraph.Failure
import PropertyGraph.Storage.FileTree

namespace PropertyGraph

/-- One request to a file tree. -/
inductive FileRequest where
  | read (path : String)
  | write (path text : String)
  | rename (source target : String)
  | remove (path : String)
  | makeDirectories (path : String)
deriving DecidableEq, Repr

/-- The reply to a request. -/
inductive FileReply where
  | text (s : String)
  | done
  | missing
  | refused
deriving DecidableEq, Repr

/-- What a file tree replies to a request, and the tree after it. -/
def FileTree.serve (tree : FileTree) : FileRequest → FileReply × FileTree
  | .read path =>
    match tree.read path with
    | .ok s => (.text s, tree)
    | .error .missing => (.missing, tree)
    | .error .refused => (.refused, tree)
  | .write path text =>
    match tree.write? path text with
    | some tree => (.done, tree)
    | none => (.refused, tree)
  | .rename source target =>
    match tree.rename? source target with
    | some tree => (.done, tree)
    | none => (.refused, tree)
  | .remove path =>
    match tree.remove path with
    | .ok tree => (.done, tree)
    | .error .missing => (.missing, tree)
    | .error .refused => (.refused, tree)
  | .makeDirectories path =>
    match tree.makeDirectories path with
    | (true, tree) => (.done, tree)
    | (false, tree) => (.refused, tree)

/-- A program over files with a result. -/
inductive FileProgram (α : Type) where
  | done (a : α)
  | ask (request : FileRequest) (next : FileReply → FileProgram α)

namespace FileProgram

variable {α β : Type}

/-- One program after the other. -/
def bind (p : FileProgram α) (f : α → FileProgram β) : FileProgram β :=
  match p with
  | .done a => f a
  | .ask request next => .ask request fun reply => bind (next reply) f

instance : Monad FileProgram where
  pure := .done
  bind := bind

/-- Runs a program to its end. -/
def run (p : FileProgram α) (tree : FileTree) : α × FileTree :=
  match p with
  | .done a => (a, tree)
  | .ask request next => let (reply, tree) := tree.serve request; run (next reply) tree

/-- Runs the first request of a program, if it makes one. -/
def step (p : FileProgram α) (tree : FileTree) : FileProgram α × FileTree :=
  match p with
  | .done a => (.done a, tree)
  | .ask request next => let (reply, tree) := tree.serve request; (next reply, tree)

@[simp] theorem run_pure (a : α) (tree : FileTree) :
    run (pure a : FileProgram α) tree = (a, tree) := rfl

/-- Running two programs in sequence is running one after the other. -/
@[simp] theorem run_bind (p : FileProgram α) (f : α → FileProgram β) (tree : FileTree) :
    run (p >>= f) tree = run (f (run p tree).1) (run p tree).2 := by
  show run (bind p f) tree = _
  induction p generalizing tree with
  | done a => rfl
  | ask request next ih => simp only [bind, run, ih]

end FileProgram

/-- A program over files that may fail. -/
abbrev FileTask (α : Type) := ExceptT Failure FileProgram α

namespace FileTask

/-- The outcome of a task as a result of its program. -/
def outcome {α : Type} (task : FileTask α) : FileProgram (Outcome α) := task

/-- A task that makes one request and makes of the reply what it likes. -/
def request {α : Type} (r : FileRequest) (read : FileReply → Outcome α) : FileTask α :=
  ExceptT.mk (.ask r fun reply => .done (read reply))

/-- A task with a known outcome. -/
def ofOutcome {α : Type} (o : Outcome α) : FileTask α := ExceptT.mk (.done o)

/-- The text of a file, or nothing when it does not exist. -/
def read (path : String) : FileTask (Option String) :=
  request (.read path) fun
    | .text s => .ok (some s)
    | .missing => .ok none
    | _ => .error .io

/-- A request that is either done or refused. -/
def change (r : FileRequest) : FileTask Unit :=
  request r fun
    | .done => .ok ()
    | _ => .error .io

/-- Writes a file. -/
def write (path text : String) : FileTask Unit := change (.write path text)

/-- Renames a file. -/
def rename (source target : String) : FileTask Unit := change (.rename source target)

/-- Makes a directory and those above it. -/
def makeDirectories (path : String) : FileTask Unit := change (.makeDirectories path)

/-- Removes a file, which need not exist. -/
def remove (path : String) : FileTask Unit :=
  request (.remove path) fun
    | .done | .missing => .ok ()
    | _ => .error .io

/-- Writes a file beside its place and then moves it there. -/
def replace (path text : String) : FileTask Unit := do
  let aside := FilePath.withExtension path "json.tmp"
  write aside text
  rename aside path

end FileTask

end PropertyGraph
