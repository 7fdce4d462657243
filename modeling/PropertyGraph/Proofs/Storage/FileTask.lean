/-
  PropertyGraph.Proofs.Storage.FileTask

  What a task does when it is run on a file tree from start to end: its outcome and the tree
  after it.  Tasks in sequence run one after the other up to the first failure; a request
  that fails leaves the tree as it was.
-/
import PropertyGraph.Storage.FileProgram

namespace PropertyGraph.FileTask

variable {α β : Type}

/-- The outcome of a task on a tree, and the tree after it. -/
def exec (task : FileTask α) (tree : FileTree) : Outcome α × FileTree := task.outcome.run tree

/-! ## Sequences -/

@[simp] theorem exec_pure (a : α) (tree : FileTree) :
    (pure a : FileTask α).exec tree = (.ok a, tree) := rfl

@[simp] theorem exec_throw (e : Failure) (tree : FileTree) :
    (throw e : FileTask α).exec tree = (.error e, tree) := rfl

@[simp] theorem exec_ofOutcome (o : Outcome α) (tree : FileTree) :
    (ofOutcome o).exec tree = (o, tree) := rfl

theorem exec_bind (task : FileTask α) (next : α → FileTask β) (tree : FileTree) :
    (task >>= next).exec tree
      = match task.exec tree with
        | (.ok a, tree') => (next a).exec tree'
        | (.error e, tree') => (.error e, tree') := by
  show FileProgram.run (task.outcome >>= ExceptT.bindCont next) tree = _
  rw [FileProgram.run_bind]
  show FileProgram.run (ExceptT.bindCont next (task.exec tree).1) (task.exec tree).2 = _
  rcases task.exec tree with ⟨outcome, tree'⟩
  cases outcome <;> rfl

/-- After a task that succeeds the next one goes on. -/
theorem exec_bind_of_ok {task : FileTask α} {next : α → FileTask β} {tree tree' : FileTree} {a : α}
    (h : task.exec tree = (.ok a, tree')) : (task >>= next).exec tree = (next a).exec tree' := by
  rw [exec_bind, h]

/-- A task that fails ends the sequence. -/
theorem exec_bind_of_error {task : FileTask α} {next : α → FileTask β} {tree tree' : FileTree}
    {e : Failure} (h : task.exec tree = (.error e, tree')) :
    (task >>= next).exec tree = (.error e, tree') := by
  rw [exec_bind, h]

/-- A sequence succeeds when both of its tasks do. -/
theorem exec_bind_eq_ok {task : FileTask α} {next : α → FileTask β} {tree tree'' : FileTree} {b : β}
    (h : (task >>= next).exec tree = (.ok b, tree'')) :
    ∃ a tree', task.exec tree = (.ok a, tree') ∧ (next a).exec tree' = (.ok b, tree'') := by
  rw [exec_bind] at h
  rcases htask : task.exec tree with ⟨outcome, tree'⟩
  rw [htask] at h
  cases outcome with
  | ok a => exact ⟨a, tree', rfl, h⟩
  | error e => cases h

/-- Tasks that leave the tree as it is combine to one that does. -/
theorem exec_bind_of_unchanged {task : FileTask α} {next : α → FileTask β} {tree : FileTree}
    {o : Outcome α} {f : α → Outcome β} (h : task.exec tree = (o, tree))
    (hnext : ∀ a, o = .ok a → (next a).exec tree = (f a, tree)) :
    (task >>= next).exec tree = (o >>= f, tree) := by
  rw [exec_bind, h]
  cases o with
  | ok a => exact hnext a rfl
  | error e => rfl

/-! ## Requests -/

theorem exec_request (r : FileRequest) (read : FileReply → Outcome α) (tree : FileTree) :
    (request r read).exec tree = (read (tree.serve r).1, (tree.serve r).2) := rfl

theorem exec_read (path : String) (tree : FileTree) :
    (read path).exec tree
      = (match tree.read path with
          | .ok text => .ok (some text)
          | .error .missing => .ok none
          | .error .refused => .error .io, tree) := by
  rw [read, exec_request, FileTree.serve]
  rcases tree.read path with trouble | text
  · cases trouble <;> rfl
  · rfl

theorem exec_write (path text : String) (tree : FileTree) :
    (write path text).exec tree
      = match tree.write? path text with
        | some tree' => (.ok (), tree')
        | none => (.error .io, tree) := by
  rw [write, change, exec_request, FileTree.serve]
  cases tree.write? path text <;> rfl

theorem exec_rename (source target : String) (tree : FileTree) :
    (rename source target).exec tree
      = match tree.rename? source target with
        | some tree' => (.ok (), tree')
        | none => (.error .io, tree) := by
  rw [rename, change, exec_request, FileTree.serve]
  cases tree.rename? source target <;> rfl

theorem exec_remove (path : String) (tree : FileTree) :
    (remove path).exec tree
      = match tree.remove path with
        | .ok tree' => (.ok (), tree')
        | .error .missing => (.ok (), tree)
        | .error .refused => (.error .io, tree) := by
  rw [remove, exec_request, FileTree.serve]
  rcases tree.remove path with trouble | tree'
  · cases trouble <;> rfl
  · rfl

theorem exec_makeDirectories (path : String) (tree : FileTree) :
    (makeDirectories path).exec tree
      = match tree.makeDirectories path with
        | (true, tree') => (.ok (), tree')
        | (false, tree') => (.error .io, tree') := by
  rw [makeDirectories, change, exec_request, FileTree.serve]
  rcases tree.makeDirectories path with ⟨_ | _, tree'⟩ <;> rfl

end PropertyGraph.FileTask
