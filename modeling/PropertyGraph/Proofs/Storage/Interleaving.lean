/-
  PropertyGraph.Proofs.Storage.Interleaving

  Two programs that take turns on one tree, request by request.  While the one works, the shelves
  below a root go through stages.  The other one looks: it only reads, so the stages are the same
  with and without it, and what it reads it reads at one of them, never going back to an earlier
  one.  So the answers to a look beside a change follow from the stages of the change.
-/
import PropertyGraph.Proofs.Storage.Reading

namespace PropertyGraph

variable {α β : Type} {c : EntityClass} {root : String} {base : Place} {tree tree' : FileTree}

/-- What can be read of the documents of all classes. -/
abbrev Shelves := (c : EntityClass) → Shelf c

variable {s : Shelves} {stages stages' before after : List Shelves}

namespace FileProgram

/-! ## Taking turns -/

/-- Two programs on one tree.  In each turn one of them makes its next request: the first one in
    the turns that are `true`. -/
def interleave (work : FileProgram α) (look : FileProgram β) (tree : FileTree) :
    List Bool → FileProgram α × FileProgram β × FileTree
  | [] => (work, look, tree)
  | true :: turns => interleave (work.step tree).1 look (work.step tree).2 turns
  | false :: turns => interleave work (look.step tree).1 (look.step tree).2 turns

/-- The result of a program that is done. -/
def result? : FileProgram α → Option α
  | .done a => some a
  | .ask _ _ => none

theorem done_of_result? {p : FileProgram α} {check : α → Bool} (h : p.result?.any check = true) :
    ∃ a, p = .done a ∧ check a = true := by
  cases p with
  | done a => exact ⟨a, rfl, h⟩
  | ask request next => cases h

/-- A program that only reads. -/
def Looks : FileProgram α → Prop
  | .done _ => True
  | .ask (.read _) next => ∀ reply, Looks (next reply)
  | .ask _ _ => False

theorem Looks.bind {p : FileProgram α} {f : α → FileProgram β} (h : p.Looks)
    (hnext : ∀ a, (f a).Looks) : (p.bind f).Looks := by
  induction p with
  | done a => exact hnext a
  | ask request next ih =>
    cases request with
    | read path => exact fun reply => ih reply (h reply)
    | _ => exact h.elim

theorem serve_read (tree : FileTree) (path : String) : (tree.serve (.read path)).2 = tree := by
  rw [FileTree.serve]
  rcases tree.read path with trouble | text
  · cases trouble <;> rfl
  · rfl

/-! ## Stages -/

/-- From a tree on, a program takes the shelves below a root through stages. -/
inductive Passes (root : String) : FileProgram α → FileTree → List Shelves → Prop where
  | done (a : α) (tree : FileTree) : Passes root (.done a) tree [tree.shelf root]
  | stay {request : FileRequest} {next : FileReply → FileProgram α} {tree : FileTree}
    {stages : List Shelves} :
    Passes root (next (tree.serve request).1) (tree.serve request).2 (tree.shelf root :: stages) →
    Passes root (.ask request next) tree (tree.shelf root :: stages)
  | move {request : FileRequest} {next : FileReply → FileProgram α} {tree : FileTree}
    {stages : List Shelves} :
    Passes root (next (tree.serve request).1) (tree.serve request).2 stages →
    Passes root (.ask request next) tree (tree.shelf root :: stages)

theorem Passes.head {p : FileProgram α} (h : p.Passes root tree stages) :
    ∃ rest, stages = tree.shelf root :: rest := by
  cases h with
  | done a tree => exact ⟨_, rfl⟩
  | stay _ => exact ⟨_, rfl⟩
  | move _ => exact ⟨_, rfl⟩

/-- The last stage is that of the tree in the end. -/
theorem Passes.last {p : FileProgram α} (h : p.Passes root tree stages) :
    ∃ before, stages = before ++ [(p.run tree).2.shelf root] := by
  induction h with
  | done a tree => exact ⟨[], rfl⟩
  | stay _ ih => exact ih
  | @move request next tree stages _ ih =>
    obtain ⟨before, hbefore⟩ := ih
    exact ⟨tree.shelf root :: before, by rw [hbefore]; rfl⟩

/-- A program that only reads stays at one stage. -/
theorem Looks.passes {p : FileProgram α} (h : p.Looks) (tree : FileTree) :
    p.Passes root tree [tree.shelf root] ∧ (p.run tree).2 = tree := by
  induction p with
  | done a => exact ⟨.done a tree, rfl⟩
  | ask request next ih =>
    cases request with
    | read path =>
      have hserve := serve_read tree path
      obtain ⟨hpasses, hrun⟩ := ih (tree.serve (.read path)).1 (h _)
      refine ⟨.stay ?_, ?_⟩
      · rw [hserve]
        exact hpasses
      · show (run (next (tree.serve (.read path)).1) (tree.serve (.read path)).2).2 = tree
        rw [hserve]
        exact hrun
    | _ => exact h.elim

/-- The stages of two programs, one after the other. -/
theorem Passes.bind {p : FileProgram α} {f : α → FileProgram β}
    (h : p.Passes root tree (before ++ [s]))
    (hnext : (f (p.run tree).1).Passes root (p.run tree).2 (s :: after)) :
    (p.bind f).Passes root tree (before ++ s :: after) := by
  obtain ⟨stages, hstages⟩ : ∃ stages, stages = before ++ [s] := ⟨_, rfl⟩
  rw [← hstages] at h
  induction h generalizing before with
  | done a tree =>
    obtain ⟨rfl, -⟩ := List.append_eq_singleton_iff.1 hstages.symm |>.resolve_right (by simp)
    exact hnext
  | @stay request next tree stages _ ih =>
    have hmore := ih hnext hstages
    obtain ⟨rest, hrest⟩ : ∃ rest, before ++ s :: after = tree.shelf root :: rest := by
      cases before with
      | nil => exact ⟨after, by rw [List.nil_append, (List.cons.inj hstages).1]⟩
      | cons first before => exact ⟨before ++ s :: after, by rw [(List.cons.inj hstages).1]; rfl⟩
    rw [hrest] at hmore ⊢
    exact .stay hmore
  | @move request next tree stages hpasses ih =>
    cases before with
    | nil =>
      -- some stage comes after the first request
      obtain ⟨rest, hhead⟩ := hpasses.head
      rw [hhead] at hstages
      cases hstages
    | cons first before =>
      obtain ⟨rfl, hrest⟩ := List.cons.inj hstages
      exact .move (ih hnext hrest)

/-! ## Looking beside work -/

/-- A program that only reads gets to a result along some stages, of which the last ones are left:
    it reads at the first one, or waits until that has gone. -/
inductive Sees (root : String) : List Shelves → FileProgram α → α → List Shelves → Prop where
  | done (a : α) (stages : List Shelves) : Sees root stages (.done a) a stages
  | wait {p : FileProgram α} {a : α} {s t : Shelves} {stages stages' : List Shelves} :
    Sees root (t :: stages) p a stages' → Sees root (s :: t :: stages) p a stages'
  | ask {request : FileRequest} {next : FileReply → FileProgram α} {a : α} {tree : FileTree}
    {stages stages' : List Shelves} :
    Sees root (tree.shelf root :: stages) (next (tree.serve request).1) a stages' →
    Sees root (tree.shelf root :: stages) (.ask request next) a stages'

/-- A look beside work sees the stages of the work. -/
theorem sees_of_interleave {work : FileProgram α} {look : FileProgram β} {b : β} {turns : List Bool}
    (hpasses : work.Passes root tree stages) (hlooks : look.Looks)
    (h : (interleave work look tree turns).2.1 = .done b) :
    ∃ stages', look.Sees root stages b stages' := by
  induction turns generalizing work look tree stages with
  | nil =>
    obtain rfl : look = .done b := h
    exact ⟨stages, .done b stages⟩
  | cons turn turns ih =>
    cases turn with
    | true =>
      -- a turn of the work may bring the next stage, for which the look has waited then
      cases hpasses with
      | done a tree => exact ih (.done a tree) hlooks h
      | stay hrest => exact ih hrest hlooks h
      | move hrest =>
        obtain ⟨stages', hsees⟩ := ih hrest hlooks h
        obtain ⟨rest, rfl⟩ := hrest.head
        exact ⟨stages', .wait hsees⟩
    | false =>
      cases look with
      | done b' => exact ih hpasses hlooks h
      | ask request next =>
        cases request with
        | read path =>
          -- a turn of the look reads at the present stage and changes nothing
          have hstep : ((FileProgram.ask (.read path) next).step tree).2 = tree :=
            serve_read tree path
          have hrest : (interleave work (next (tree.serve (.read path)).1)
              ((FileProgram.ask (.read path) next).step tree).2 turns).2.1 = .done b := h
          rw [hstep] at hrest
          obtain ⟨stages', hsees⟩ := ih hpasses (hlooks _) hrest
          obtain ⟨rest, rfl⟩ := hpasses.head
          exact ⟨stages', .ask hsees⟩
        | _ => exact hlooks.elim

theorem Sees.suffix {p : FileProgram α} {a : α} (h : p.Sees root stages a stages') :
    stages' <:+ stages := by
  induction h with
  | done a stages => exact List.suffix_refl stages
  | wait _ ih => exact ih.trans (List.suffix_cons _ _)
  | ask _ ih => exact ih

theorem Sees.ne_nil {p : FileProgram α} {a : α} (h : p.Sees root stages a stages')
    (hne : stages ≠ []) : stages' ≠ [] := by
  induction h with
  | done a stages => exact hne
  | wait _ ih => exact ih (List.cons_ne_nil _ _)
  | ask _ ih => exact ih (List.cons_ne_nil _ _)

theorem Sees.eq_of_done {a b : α} (h : (FileProgram.done a).Sees root stages b stages') :
    b = a := by
  obtain ⟨p, hp⟩ : ∃ p, p = FileProgram.done a := ⟨_, rfl⟩
  rw [← hp] at h
  induction h with
  | done b stages => exact FileProgram.done.inj hp
  | wait _ ih => exact ih hp
  | ask _ _ => cases hp

/-- One request is made at one stage. -/
theorem Sees.of_ask {request : FileRequest} {f : FileReply → α} {a : α}
    (h : (FileProgram.ask request fun reply => .done (f reply)).Sees root stages a stages') :
    ∃ (tree : FileTree) (rest : List Shelves), tree.shelf root :: rest <:+ stages
      ∧ stages' <:+ tree.shelf root :: rest ∧ a = f (tree.serve request).1 := by
  obtain ⟨p, hp⟩ : ∃ p, p = FileProgram.ask request fun reply => .done (f reply) := ⟨_, rfl⟩
  rw [← hp] at h
  induction h with
  | done a stages => cases hp
  | wait _ ih =>
    obtain ⟨tree, rest, hsuffix, hlater, ha⟩ := ih hp
    exact ⟨tree, rest, hsuffix.trans (List.suffix_cons _ _), hlater, ha⟩
  | @ask request' next a tree stages stages' hsees _ =>
    obtain ⟨rfl, rfl⟩ := FileProgram.ask.inj hp
    exact ⟨tree, stages, List.suffix_refl _, hsees.suffix, hsees.eq_of_done⟩

theorem Sees.of_bind {p : FileProgram α} {f : α → FileProgram β} {b : β}
    (h : (p.bind f).Sees root stages b stages') :
    ∃ a between, p.Sees root stages a between ∧ (f a).Sees root between b stages' := by
  obtain ⟨whole, hwhole⟩ : ∃ whole, whole = p.bind f := ⟨_, rfl⟩
  rw [← hwhole] at h
  induction h generalizing p with
  | done b stages =>
    cases p with
    | done a =>
      refine ⟨a, stages, .done a stages, ?_⟩
      rw [show f a = .done b from hwhole.symm]
      exact .done b stages
    | ask request next => cases hwhole
  | wait hsees ih =>
    obtain ⟨a, between, hfirst, hnext⟩ := ih hwhole
    exact ⟨a, between, .wait hfirst, hnext⟩
  | @ask request next b tree stages stages' hsees ih =>
    cases p with
    | done a =>
      refine ⟨a, tree.shelf root :: stages, .done a _, ?_⟩
      rw [show f a = .ask request next from hwhole.symm]
      exact .ask hsees
    | ask request' next' =>
      obtain ⟨rfl, rfl⟩ := FileProgram.ask.inj hwhole
      obtain ⟨a, between, hfirst, hnext⟩ := ih rfl
      exact ⟨a, between, .ask hfirst, hnext⟩

end FileProgram

/-! ## Tasks -/

namespace FileTask

open FileProgram (Looks Passes Sees)

variable {task : FileTask α} {next : α → FileTask β}

theorem looks_bind (h : task.outcome.Looks) (hnext : ∀ a, (next a).outcome.Looks) :
    (task >>= next).outcome.Looks := by
  refine h.bind fun outcome => ?_
  cases outcome with
  | ok a => exact hnext a
  | error f => exact trivial

theorem passes_bind_of_ok {a : α} (h : task.outcome.Passes root tree (before ++ [s]))
    (hexec : task.exec tree = (.ok a, tree'))
    (hnext : (next a).outcome.Passes root tree' (s :: after)) :
    (task >>= next).outcome.Passes root tree (before ++ s :: after) := by
  refine FileProgram.Passes.bind h ?_
  show (ExceptT.bindCont next (task.exec tree).1).Passes root (task.exec tree).2 _
  rw [hexec]
  exact hnext

/-- After a task that only reads, the stages are those of the next one. -/
theorem passes_bind_of_look {a : α} (h : task.outcome.Looks)
    (hexec : task.exec tree = (.ok a, tree)) (hnext : (next a).outcome.Passes root tree stages) :
    (task >>= next).outcome.Passes root tree stages := by
  obtain ⟨rest, rfl⟩ := hnext.head
  have hpasses : task.outcome.Passes root tree ([] ++ [tree.shelf root]) := (h.passes tree).1
  exact passes_bind_of_ok hpasses hexec hnext

/-- After a task that takes the shelves to another stage the next one goes on from there. -/
theorem passes_bind_of_change {a : α}
    (h : task.outcome.Passes root tree [tree.shelf root, tree'.shelf root])
    (hexec : task.exec tree = (.ok a, tree')) (hnext : (next a).outcome.Passes root tree' stages) :
    (task >>= next).outcome.Passes root tree (tree.shelf root :: stages) := by
  obtain ⟨rest, rfl⟩ := hnext.head
  have hpasses : task.outcome.Passes root tree ([tree.shelf root] ++ [tree'.shelf root]) := h
  exact passes_bind_of_ok hpasses hexec hnext

/-- A task that fails at the first stage is all that is done. -/
theorem passes_bind_of_error {f : Failure} (h : task.outcome.Passes root tree [tree.shelf root])
    (hexec : task.exec tree = (.error f, tree)) :
    (task >>= next).outcome.Passes root tree [tree.shelf root] := by
  have hpasses : task.outcome.Passes root tree ([] ++ [tree.shelf root]) := h
  refine FileProgram.Passes.bind hpasses ?_
  show (ExceptT.bindCont next (task.exec tree).1).Passes root (task.exec tree).2 _
  rw [hexec]
  exact .done _ tree

/-- A task whose result is all that is made of it passes the same stages. -/
theorem passes_bind_pure (h : task.outcome.Passes root tree stages) (f : α → β) :
    (task >>= fun a => pure (f a)).outcome.Passes root tree stages := by
  obtain ⟨before, rfl⟩ := h.last
  refine FileProgram.Passes.bind h ?_
  show Passes root (ExceptT.bindCont _ (task.outcome.run tree).1) (task.outcome.run tree).2 _
  cases (task.outcome.run tree).1 <;> exact .done _ _

/-- A request that does not change the shelves. -/
theorem passes_request {r : FileRequest} {f : FileReply → Outcome α}
    (hsame : (tree.serve r).2.shelf root = tree.shelf root) :
    (request r f).outcome.Passes root tree [tree.shelf root] := by
  refine .stay ?_
  rw [← hsame]
  exact .done _ _

theorem sees_bind {o : Outcome β} (h : (task >>= next).outcome.Sees root stages o stages') :
    (∃ f between, o = .error f ∧ task.outcome.Sees root stages (.error f) between
        ∧ stages' <:+ between)
      ∨ ∃ a between, task.outcome.Sees root stages (.ok a) between
        ∧ (next a).outcome.Sees root between o stages' := by
  obtain ⟨outcome, between, hfirst, hnext⟩ := FileProgram.Sees.of_bind h
  cases outcome with
  | ok a => exact .inr ⟨a, between, hfirst, hnext⟩
  | error f => exact .inl ⟨f, between, hnext.eq_of_done, hfirst, hnext.suffix⟩

/-- Where the result is all that is made of a task, it is what the task is seen to give. -/
theorem sees_bind_pure {f : α → β} {o : Outcome β}
    (h : (task >>= fun a => pure (f a)).outcome.Sees root stages o stages') :
    ∃ outcome between, task.outcome.Sees root stages outcome between ∧ stages' <:+ between
      ∧ o = outcome.map f := by
  rcases sees_bind h with ⟨f, between, rfl, hfirst, hlast⟩ | ⟨a, between, hfirst, hnext⟩
  · exact ⟨_, between, hfirst, hlast, rfl⟩
  · exact ⟨_, between, hfirst, hnext.suffix, hnext.eq_of_done⟩

end FileTask

/-! ## Reading documents -/

open FileProgram (Looks Passes Sees)
open FileTask (looks_bind)
open Json (Tree Decoded)

theorem Document.looks_read (path : String) (decode : Tree → Decoded α) (absent : α) :
    (Document.read path decode absent).outcome.Looks := by
  refine looks_bind (fun _ => trivial) fun found => ?_
  cases found <;> exact trivial

theorem FileTask.sees_read {path : String} {o : Outcome (Option String)}
    (h : (FileTask.read path).outcome.Sees root stages o stages') :
    ∃ (tree : FileTree) (rest : List Shelves), tree.shelf root :: rest <:+ stages
      ∧ stages' <:+ tree.shelf root :: rest ∧ o = ((FileTask.read path).exec tree).1 :=
  FileProgram.Sees.of_ask h

/-- A document is read at one stage. -/
theorem Document.sees_read {path : String} {decode : Tree → Decoded α} {absent : α} {o : Outcome α}
    (h : (Document.read path decode absent).outcome.Sees root stages o stages') :
    ∃ (tree : FileTree) (rest : List Shelves), tree.shelf root :: rest <:+ stages
      ∧ stages' <:+ tree.shelf root :: rest
      ∧ o = Document.payload decode absent (tree.read path) := by
  rcases FileTask.sees_bind h
    with ⟨f, between, rfl, hfirst, hlast⟩ | ⟨found, between, hfirst, hnext⟩
  · obtain ⟨tree, rest, hsuffix, hlater, ho⟩ := FileTask.sees_read hfirst
    have hexec := Document.exec_read path decode absent tree
    rw [Document.read, FileTask.exec_bind_of_error (Prod.ext ho.symm rfl)] at hexec
    exact ⟨tree, rest, hsuffix, hlast.trans hlater, (Prod.mk.inj hexec).1⟩
  · obtain ⟨tree, rest, hsuffix, hlater, ho⟩ := FileTask.sees_read hfirst
    have hexec := Document.exec_read path decode absent tree
    rw [Document.read, FileTask.exec_bind_of_ok (Prod.ext ho.symm rfl)] at hexec
    refine ⟨tree, rest, hsuffix, hnext.suffix.trans hlater, ?_⟩
    rw [← (Prod.mk.inj hexec).1]
    cases found with
    | none => exact hnext.eq_of_done
    | some text => exact hnext.eq_of_done

namespace Catalog

theorem looks_types (root : String) (c : EntityClass) : (types root c).outcome.Looks :=
  Document.looks_read _ _ _

theorem looks_index (root : String) (c : EntityClass) : (index root c).outcome.Looks :=
  Document.looks_read _ _ _

theorem looks_load (root : String) (c : EntityClass) (type : String) :
    (load root c type).outcome.Looks :=
  looks_bind trivial fun _ => Document.looks_read _ _ _

theorem looks_get (root : String) (c : EntityClass) (id : Id) : (get root c id).outcome.Looks := by
  refine looks_bind trivial fun key => ?_
  refine looks_bind (looks_bind (looks_index root c) fun _ => trivial) fun found => ?_
  cases found with
  | none => exact trivial
  | some type => exact looks_bind (looks_load root c type) fun _ => trivial

theorem looks_locate (root : String) (c : EntityClass) (id : Id) :
    (locate root c id).outcome.Looks := by
  refine looks_bind trivial fun key => ?_
  refine looks_bind (looks_bind (looks_index root c) fun _ => trivial) fun found => ?_
  cases found with
  | none => exact trivial
  | some type =>
    refine looks_bind (looks_load root c type) fun entities => ?_
    cases find id entities <;> exact trivial

theorem sees_types {o : Outcome (List String)}
    (h : (types root c).outcome.Sees root stages o stages') :
    ∃ (s : Shelves) (rest : List Shelves), s :: rest <:+ stages ∧ stages' <:+ s :: rest
      ∧ o = (s c).types := by
  obtain ⟨tree, rest, hsuffix, hlater, ho⟩ := Document.sees_read h
  exact ⟨_, rest, hsuffix, hlater, ho⟩

theorem sees_index {o : Outcome (Entries String)}
    (h : (index root c).outcome.Sees root stages o stages') :
    ∃ (s : Shelves) (rest : List Shelves), s :: rest <:+ stages ∧ stages' <:+ s :: rest
      ∧ o = (s c).index := by
  obtain ⟨tree, rest, hsuffix, hlater, ho⟩ := Document.sees_read h
  exact ⟨_, rest, hsuffix, hlater, ho⟩

theorem sees_load (hne : stages ≠ []) {type : String} {o : Outcome (List (Entity c))}
    (h : (load root c type).outcome.Sees root stages o stages') :
    ∃ (s : Shelves) (rest : List Shelves), s :: rest <:+ stages ∧ stages' <:+ s :: rest
      ∧ o = (s c).load type := by
  cases hcheck : Naming.checkType type with
  | error f =>
    -- a type that cannot be part of a name is not read, and fails alike at all stages
    rw [load, hcheck] at h
    have ho : o = .error f := h.eq_of_done
    obtain ⟨s, rest, rfl⟩ := List.exists_cons_of_ne_nil hne
    refine ⟨s, rest, List.suffix_refl _, h.suffix, ?_⟩
    rw [ho, Shelf.load, hcheck]
  | ok u =>
    rw [load, hcheck] at h
    obtain ⟨tree, rest, hsuffix, hlater, ho⟩ := Document.sees_read h
    refine ⟨_, rest, hsuffix, hlater, ?_⟩
    rw [ho, Shelf.load, FileTree.shelf]
    simp only [hcheck]

end Catalog

/-! ## Replacing a document -/

namespace FileTree

/-- Writing a file below a root touches it alone, if it does anything. -/
theorem Rooted.changesOnly_write (h : tree.Rooted root base) {name : String}
    (hname : FilePath.PlainName name) (text : String) :
    tree.ChangesOnly ((FileTask.write (FilePath.join root name) text).exec tree).2 (· = name) := by
  rw [FileTask.exec_write, write?]
  by_cases hfits : Fits root name
  · rw [h.resolve_join hname hfits]
    simp only
    by_cases hfree : tree.occupant (base ++ [name]) = some .directory
    · rw [if_pos hfree]
      exact .refl _ _
    · rw [if_neg hfree]
      exact tree.changesOnly_put_file text List.getLast?_concat hfree
  · rw [h.resolve_join_refused hname hfits]
    exact .refl _ _

/-- A file beside a document is no document. -/
theorem Rooted.shelf_aside {stem : String} (h : tree.Rooted root base)
    (hchange : tree.ChangesOnly tree' (· = stem ++ ".json.tmp")) :
    tree'.shelf root = tree.shelf root := by
  funext c
  refine shelf_congr (fun stem' hstem => h.read_json_congr hstem hchange ?_) c
  by_cases hsame : stem' = stem
  · subst hsame
    intro heq
    exact json_place_ne_aside [] stem' (congrArg (fun name => [] ++ [name]) heq)
  · exact fun heq => Naming.not_touches_json hsame (.inr heq)

end FileTree

namespace FileTask

open Naming (PlainStem jsonPath)

variable {stem text : String}

/-- While a document is replaced, the shelves are as they were and then as they are in the end. -/
theorem passes_replace (h : tree.Rooted root base) (hstem : PlainStem stem)
    (hexec : (replace (jsonPath root stem) text).exec tree = (.ok (), tree')) :
    (replace (jsonPath root stem) text).outcome.Passes root tree
      [tree.shelf root, tree'.shelf root] := by
  have haside : FilePath.withExtension (jsonPath root stem) "json.tmp"
      = FilePath.join root (stem ++ ".json.tmp") :=
    FilePath.withExtension_join_json hstem.no_slash hstem.ne_empty hstem.ne_point
  rw [replace, haside] at hexec ⊢
  obtain ⟨u, tree₁, hwrite, hrename⟩ := exec_bind_eq_ok hexec
  have hsame := h.shelf_aside (hwrite ▸ h.changesOnly_write hstem.aside text)
  have hwritten : (write (FilePath.join root (stem ++ ".json.tmp")) text).outcome.Passes root tree
      ([] ++ [tree.shelf root]) := by
    refine passes_request ?_
    rw [show (tree.serve (.write _ text)).2 = tree₁ from congrArg Prod.snd hwrite]
    exact hsame
  have hmoved : (tree₁.serve (.rename (FilePath.join root (stem ++ ".json.tmp"))
      (jsonPath root stem))).2 = tree' := congrArg Prod.snd hrename
  refine passes_bind_of_ok hwritten hwrite ?_
  rw [← hsame, ← hmoved]
  exact .move (.done _ _)

/-- A document that is refused leaves the shelves as they are. -/
theorem passes_replace_refused (h : tree.Rooted root base) (hstem : PlainStem stem)
    (hwritable : ¬ FileTree.Writable root stem) :
    (replace (jsonPath root stem) text).outcome.Passes root tree [tree.shelf root] := by
  have haside : FilePath.withExtension (jsonPath root stem) "json.tmp"
      = FilePath.join root (stem ++ ".json.tmp") :=
    FilePath.withExtension_join_json hstem.no_slash hstem.ne_empty hstem.ne_point
  have hwrite : (write (FilePath.join root (stem ++ ".json.tmp")) text).exec tree
      = (.error .io, tree) := by
    rw [exec_write, FileTree.write?, h.resolve_join_refused hstem.aside hwritable]
  have htree : (tree.serve (.write (FilePath.join root (stem ++ ".json.tmp")) text)).2 = tree :=
    congrArg Prod.snd hwrite
  rw [replace, haside]
  exact passes_bind_of_error (passes_request (congrArg (FileTree.shelf · root) htree)) hwrite

end FileTask

end PropertyGraph
