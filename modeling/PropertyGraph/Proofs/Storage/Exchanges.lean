/-
  PropertyGraph.Proofs.Storage.Exchanges

  The requests that a task makes on a file tree, each with the reply it gets.  A sequence makes
  the requests of its first task, and those of the second if the first succeeds.  A task whose
  changes are all served has every write and every move done.
-/
import PropertyGraph.Proofs.Storage.FileTask

namespace PropertyGraph

variable {α β : Type}

/-- Whether a request only reads. -/
def FileRequest.isRead : FileRequest → Bool
  | .read _ => true
  | _ => false

/-- The requests that a program makes on a tree, with the replies. -/
def FileProgram.exchanges : FileProgram α → FileTree → List (FileRequest × FileReply)
  | .done _, _ => []
  | .ask request next, tree =>
    let (reply, tree') := tree.serve request
    (request, reply) :: (next reply).exchanges tree'

theorem FileProgram.exchanges_bind (program : FileProgram α) (next : α → FileProgram β)
    (tree : FileTree) :
    (program >>= next).exchanges tree
      = program.exchanges tree
        ++ (next (program.run tree).1).exchanges (program.run tree).2 := by
  show (bind program next).exchanges tree = _
  -- every request may change the tree, so the statement is carried for all trees
  induction program generalizing tree with
  | done a => rfl
  | ask request more ih => simp only [bind, exchanges, run, ih, List.cons_append]

namespace FileTask

/-- The requests that a task makes on a tree, with the replies. -/
def exchanges (task : FileTask α) (tree : FileTree) : List (FileRequest × FileReply) :=
  task.outcome.exchanges tree

theorem exchanges_request (r : FileRequest) (read : FileReply → Outcome α) (tree : FileTree) :
    (request r read).exchanges tree = [(r, (tree.serve r).1)] := rfl

theorem exchanges_bind (task : FileTask α) (next : α → FileTask β) (tree : FileTree) :
    (task >>= next).exchanges tree
      = task.exchanges tree
        ++ match task.exec tree with
          | (.ok a, tree') => (next a).exchanges tree'
          | (.error _, _) => [] := by
  show FileProgram.exchanges (task.outcome >>= ExceptT.bindCont next) tree = _
  rw [FileProgram.exchanges_bind]
  show task.exchanges tree
      ++ FileProgram.exchanges (ExceptT.bindCont next (task.exec tree).1) (task.exec tree).2 = _
  -- a failure skips what follows
  rcases task.exec tree with ⟨outcome, tree'⟩
  cases outcome <;> rfl

/-! ## Served changes -/

/-- Whatever a task asks a tree for, but for what it reads, is done. -/
def ChangesServed (task : FileTask α) (tree : FileTree) : Prop :=
  ∀ exchange ∈ task.exchanges tree, exchange.1.isRead = false → exchange.2 = .done

instance (task : FileTask α) (tree : FileTree) : Decidable (task.ChangesServed tree) :=
  inferInstanceAs (Decidable (∀ exchange ∈ task.exchanges tree, _))

theorem ChangesServed.first {task : FileTask α} {next : α → FileTask β} {tree : FileTree}
    (h : (task >>= next).ChangesServed tree) : task.ChangesServed tree := by
  intro exchange hmem
  apply h exchange
  rw [exchanges_bind]
  exact List.mem_append_left _ hmem

theorem ChangesServed.next {task : FileTask α} {next : α → FileTask β} {tree tree' : FileTree}
    {a : α} (h : (task >>= next).ChangesServed tree) (htask : task.exec tree = (.ok a, tree')) :
    (next a).ChangesServed tree' := by
  intro exchange hmem
  apply h exchange
  rw [exchanges_bind, htask]
  exact List.mem_append_right _ hmem

/-- The reply to a served change is that it is done. -/
theorem ChangesServed.reply {r : FileRequest} {tree : FileTree} (h : (change r).ChangesServed tree)
    (hr : r.isRead = false) : (tree.serve r).1 = .done := by
  apply h (r, (tree.serve r).1)
  · rw [change, exchanges_request]
    exact List.mem_singleton_self _
  · exact hr

theorem ChangesServed.exec_write {path text : String} {tree : FileTree}
    (h : (write path text).ChangesServed tree) :
    ∃ tree', tree.write? path text = some tree'
      ∧ (write path text).exec tree = (.ok (), tree') := by
  have hreply := h.reply rfl
  rw [FileTree.serve] at hreply
  rw [FileTask.exec_write]
  cases hwrite : tree.write? path text with
  | none => rw [hwrite] at hreply; cases hreply
  | some tree' => exact ⟨tree', rfl, rfl⟩

theorem ChangesServed.exec_rename {source target : String} {tree : FileTree}
    (h : (rename source target).ChangesServed tree) :
    ∃ tree', tree.rename? source target = some tree'
      ∧ (rename source target).exec tree = (.ok (), tree') := by
  have hreply := h.reply rfl
  rw [FileTree.serve] at hreply
  rw [FileTask.exec_rename]
  cases hmove : tree.rename? source target with
  | none => rw [hmove] at hreply; cases hreply
  | some tree' => exact ⟨tree', rfl, rfl⟩

end FileTask

end PropertyGraph
