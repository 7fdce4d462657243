/-
  PropertyGraph.Proofs.Storage.Neighbours

  Graphs in documents beside one another in one tree of files.  Roots that are empty at the start
  lie apart: none lies below another.  A call to one graph stays below its root, and so leaves all
  that is read below the others as it was; one that fails, and not for the sake of files, leaves
  the whole tree as it was.
-/
import PropertyGraph.Proofs.Storage.Confinement
import PropertyGraph.Proofs.Storage.Contents

namespace PropertyGraph

open Naming (checkType)

variable {c : EntityClass} {g : Engine} {p : Number → Prop} {tree tree' : FileTree}
  {root root' : String} {base base' : Place} {used : List String} {key : String}

namespace FileTree

/-! ## Roots that lie apart -/

/-- There are directories all the way to where relative paths start. -/
def Standing (tree : FileTree) : Prop :=
  ∀ above, above <+: tree.home → tree.occupant above = some .directory

/-- A place that names lead to has directories above it, if the place where they start has. -/
theorem directory_of_locate : (names : List String) → {here place : Place} →
    tree.locate here names = .ok place →
    (∀ above, above <+: here → above ≠ here → tree.occupant above = some .directory) →
    ∀ above, above <+: place → above ≠ place → tree.occupant above = some .directory
  | [], here, place, hlocate, hhere => by
    obtain rfl := Except.ok.inj hlocate
    exact hhere
  | name :: rest, here, place, hlocate, hhere => by
    rw [locate] at hlocate
    split at hlocate
    · cases hlocate
    · cases hlocate
    next hdirectory =>
      by_cases hpoint : name = "" ∨ name = "."
      · rw [if_pos hpoint] at hlocate
        exact directory_of_locate rest hlocate hhere
      rw [if_neg hpoint] at hlocate
      by_cases hup : name = ".."
      · rw [if_pos hup] at hlocate
        refine directory_of_locate rest hlocate fun above habove hne => ?_
        refine hhere above (habove.trans here.dropLast_prefix) fun heq => hne ?_
        exact habove.eq_of_length_le (by rw [heq]; exact here.dropLast_prefix.length_le)
      rw [if_neg hup] at hlocate
      split at hlocate
      · cases hlocate
      refine directory_of_locate rest hlocate fun above habove hne => ?_
      -- above the place that the name leads to there is the one before it, and what is above that
      have hprefix := (List.prefix_concat_iff.1 habove).resolve_left hne
      by_cases hhereAbove : above = here
      · rw [hhereAbove]
        exact hdirectory
      · exact hhere above hprefix hhereAbove

theorem Rooted.directory_above (h : tree.Rooted root base) (hstanding : tree.Standing)
    {above : Place} (habove : above <+: base) : tree.occupant above = some .directory := by
  by_cases hne : above = base
  · rw [hne]
    exact h.directory
  refine directory_of_locate _ h.leads (fun above hhere _ => ?_) above habove hne
  rw [origin] at hhere
  split at hhere
  · obtain rfl := List.prefix_nil.1 hhere
    rfl
  · exact hstanding above hhere

/-- Nothing leads below an empty root. -/
theorem Bare.not_prefix (h : tree.Bare root base) (hstanding : tree.Standing)
    (h' : tree.Rooted root' base') (hne : base ≠ base') : ¬ base <+: base' := by
  rintro ⟨names, rfl⟩
  cases names with
  | nil => exact hne (List.append_nil base).symm
  | cons name rest =>
    have habove : base ++ [name] <+: base ++ name :: rest :=
      ⟨rest, by rw [List.append_assoc, List.singleton_append]⟩
    have hdirectory := h'.directory_above hstanding habove
    rw [h.empty] at hdirectory
    cases hdirectory

/-- Neither of two places lies below the other. -/
def Apart (base base' : Place) : Prop := ¬ base <+: base' ∧ ¬ base' <+: base

theorem Apart.not_prefix (h : Apart base base') (names : List String) :
    ¬ base <+: base' ++ names := by
  intro hprefix
  rcases List.prefix_or_prefix_of_prefix hprefix (List.prefix_append base' names) with hle | hle
  · exact h.1 hle
  · exact h.2 hle

/-- A change below one root leaves a root that lies apart as it was. -/
theorem Rooted.alike {touched : String → Prop} (h : tree.Rooted root' base')
    (hchange : tree.ChangesOnly tree' touched) (hspares : tree.Spares tree' base)
    (hapart : Apart base base') : tree.Alike tree' root' base' where
  here := h
  there := h.changesOnly hchange
  same names := hspares _ (hapart.not_prefix names)

theorem Alike.shelf (h : tree.Alike tree' root base) (c : EntityClass) :
    tree'.shelf root c = tree.shelf root c :=
  shelf_congr (fun _ hstem => h.read (Naming.below_jsonPath hstem)) c

end FileTree

/-! ## Failing without a trace -/

namespace FileTask

variable {α β : Type}

/-- A task that fails, and not for the sake of files, leaves the tree as it was. -/
def FailsClean (task : FileTask α) (tree : FileTree) : Prop :=
  ∀ f tree', task.exec tree = (.error f, tree') → ¬ f.OfFiles → tree' = tree

theorem failsClean_of_unchanged {task : FileTask α} (h : (task.exec tree).2 = tree) :
    task.FailsClean tree := by
  intro f tree' hexec _
  rw [← h, hexec]

/-- What only looks at the tree may come before. -/
theorem FailsClean.after {task : FileTask α} {next : α → FileTask β}
    (h : (task.exec tree).2 = tree)
    (hnext : ∀ a, (task.exec tree).1 = .ok a → (next a).FailsClean tree) :
    (task >>= next).FailsClean tree := by
  intro f tree' hexec hfiles
  rw [exec_bind] at hexec
  rcases htask : task.exec tree with ⟨outcome, tree₁⟩
  rw [htask] at h hexec hnext
  obtain rfl : tree₁ = tree := h
  cases outcome with
  | error failure => exact (congrArg Prod.snd hexec).symm
  | ok a => exact hnext a rfl f tree' hexec hfiles

/-- What always succeeds may come after. -/
theorem FailsClean.before {task : FileTask α} {next : α → FileTask β} (h : task.FailsClean tree)
    (hnext : ∀ a tree', ∃ b, (next a).exec tree' = (.ok b, tree')) :
    (task >>= next).FailsClean tree := by
  intro f tree' hexec hfiles
  rw [exec_bind] at hexec
  rcases htask : task.exec tree with ⟨outcome, tree₁⟩
  rw [htask] at hexec
  cases outcome with
  | error failure =>
    obtain ⟨rfl, rfl⟩ : failure = f ∧ tree₁ = tree' := by simpa using hexec
    exact h failure tree₁ htask hfiles
  | ok a =>
    obtain ⟨b, hb⟩ := hnext a tree₁
    simp only [hb] at hexec
    cases congrArg Prod.fst hexec

end FileTask

namespace Catalog

open FileTask (FailsClean)

variable {entity : Entity c} (h : tree.Hosts root base) (hready : (tree.shelf root c).Ready root)
  (hid : entity.id.requireText = .ok key)

include h hready hid

theorem failsClean_insert : (insert root entity).FailsClean tree := by
  intro f tree' hexec hfiles
  obtain ⟨outcome, after, hinsert, hinserts⟩ := exec_insert h hready hid
  rw [hinsert] at hexec
  obtain ⟨rfl, rfl⟩ := Prod.mk.inj hexec
  cases hinserts with
  | refused => rfl
  | unindexed _ _ entities hstorage => exact absurd hstorage hfiles

/-- Once the entity has left its old document, only files can stop it. -/
theorem failsClean_put (old : String) : (put root old entity).FailsClean tree := by
  rw [put]
  refine .after rfl fun checked hcheck => .after (by rw [exec_load]) fun entities hload => ?_
  rw [FileTask.exec_ofOutcome] at hcheck
  rw [exec_load] at hload
  have hold := Shelf.checkType_of_load hload
  intro f tree' hexec hfiles
  by_cases hwritable : FileTree.Writable root (Naming.documentStem old c)
  · split at hexec
    · obtain ⟨tree₁, hstore, -⟩ := exec_store h hold hwritable (replaceFirst entity entities)
      rw [hstore] at hexec
      cases congrArg Prod.fst hexec
    · obtain ⟨tree₁, hstore, hupdates⟩ :=
        exec_store h hold hwritable (entities.filter fun e => !e.id.same entity.id)
      rw [FileTask.exec_bind_of_ok hstore] at hexec
      have hready₁ : (tree₁.shelf root c).Ready root := hupdates.here ▸ hready.put hwritable _
      obtain ⟨outcome, after, hinsert, hinserts⟩ := exec_insert hupdates.hosts hready₁ hid
      rw [hinsert] at hexec
      obtain ⟨rfl, rfl⟩ := Prod.mk.inj hexec
      cases hinserts with
      | refused f hrefused => exact absurd (hrefused hcheck) hfiles
      | unindexed _ _ entities hstorage => exact absurd hstorage hfiles
  · split at hexec
    · rw [exec_store_refused h hold hwritable] at hexec
      exact (congrArg Prod.snd hexec).symm
    · rw [FileTask.exec_bind_of_error (exec_store_refused h hold hwritable _)] at hexec
      exact (congrArg Prod.snd hexec).symm

end Catalog

namespace Engine

/-! ## Calls to a neighbour -/

theorem keeps_of_rules (hrules : g.rules = []) (e : Entity c) : g.Keeps tree base key e := by
  cases c with
  | node => exact .unruled hrules
  | relationship => exact keeps_relationship

namespace Consistent

variable {stamp : Stamp}

/-- Without rules, a graph whose root is as it was is consistent as it was. -/
theorem of_alike (h : g.Consistent p used tree base) (hrules : g.rules = [])
    (halike : tree.Alike tree' g.root base) : g.Consistent p used tree' base where
  sound := {
    hosts := ⟨halike.there, fun stem name htouches => by
      rw [halike.same]
      exact h.sound.hosts.free stem name htouches⟩
    ready := fun c => by
      rw [halike.shelf]
      exact h.sound.ready c
    good := fun c => by
      rw [halike.shelf]
      exact (h.sound.good c).mono fun _ _ _ _ _ ⟨unique, hmem, hkept⟩ =>
        ⟨unique, hmem, hkept.type, hkept.id, hkept.proper, keeps_of_rules hrules _⟩
    slashless := h.sound.slashless }
  catalogued c := by
    rw [halike.shelf]
    exact h.catalogued c

/-- A call stays below the root, and keeps all directories. -/
theorem stays (h : g.Consistent p used tree base) (hrules : g.rules = []) {step : Step}
    (haccepts : g.Accepts p step) :
    tree.Spares (g.advance tree step) base
      ∧ ∃ touched, tree.ChangesOnly (g.advance tree step) touched := by
  have hrooted := h.sound.hosts.rooted
  have huniform : g.Uniform := uniform_of_length (by rw [hrules]; exact Nat.zero_le 1)
  constructor
  · exact ((h.sound.stays_call (absurd hrules) fun _ _ => absurd hrules).run
      ⟨hrooted, hrooted, fun _ => rfl⟩).2.2
  · have hanswers := h.sound.answers huniform haccepts
    generalize g.advance tree step = tree' at hanswers ⊢
    generalize ((g.answer step.stamp step.call).exec tree).1 = outcome at hanswers
    obtain ⟨stamp, call⟩ := step
    cases hanswers with
    | got c id => exact ⟨fun _ => False, .refl _ _⟩
    | searched c s => exact ⟨fun _ => False, .refl _ _⟩
    | listed c => exact ⟨fun _ => False, .refl _ _⟩
    | created hcreates => exact ⟨_, hcreates.change⟩
    | edited hedits => exact ⟨_, hedits.change.choose_spec⟩
    | removed hdeletes => exact ⟨_, hdeletes.change.choose_spec⟩

/-- A call that fails, and not for the sake of files, changes nothing. -/
theorem failsClean (h : g.Consistent p used tree base) (hrules : g.rules = []) (stamp : Stamp)
    (call : Call) : (g.answer stamp call).FailsClean tree := by
  cases call with
  | get c id => exact FileTask.failsClean_of_unchanged (exec_get_unchanged g c id tree)
  | search c s => exact FileTask.failsClean_of_unchanged (exec_search_unchanged g c s tree)
  | types c => exact FileTask.failsClean_of_unchanged (exec_types_unchanged g c tree)
  | create c body =>
    show (g.create stamp body).FailsClean tree
    rw [create]
    refine .after rfl fun _ _ => ?_
    refine .after (congrArg Prod.snd (stored_of_rules hrules _ tree)) fun s hs => ?_
    rw [stored_of_rules hrules] at hs
    obtain rfl := Except.ok.inj hs
    exact (Catalog.failsClean_insert h.sound.hosts (h.sound.ready c) rfl).before
      fun _ tree' => ⟨_, rfl⟩
  | edit c id patch =>
    show (g.edit stamp id patch).FailsClean tree
    rw [edit]
    refine .after (by rw [Catalog.exec_locate]) fun found hfound => ?_
    rw [Catalog.exec_locate] at hfound
    obtain ⟨old, kept⟩ := found
    -- what was located has a text for its identity, and an edit keeps it
    obtain ⟨key, index, entities, hlocated⟩ := Shelf.located_of_locate hfound
    have hid : (patch.apply kept stamp.time).id.requireText = .ok key :=
      (h.sound.finds c _ _ _ _ _ _ hlocated).requireText
    refine .after (congrArg Prod.snd (view_of_rules hrules kept tree)) fun seen hseen => ?_
    rw [view_of_rules hrules] at hseen
    obtain rfl := Except.ok.inj hseen
    refine .after rfl fun _ _ => ?_
    refine .after (congrArg Prod.snd (discard_of_rules hrules old kept tree)) fun _ _ => ?_
    refine .after (congrArg Prod.snd (stored_of_rules hrules _ tree)) fun s hs => ?_
    rw [stored_of_rules hrules] at hs
    obtain rfl := Except.ok.inj hs
    exact (Catalog.failsClean_put h.sound.hosts (h.sound.ready c) hid old).before
      fun _ tree' => ⟨_, rfl⟩
  | remove c id =>
    show (g.remove c id).FailsClean tree
    rw [remove]
    refine FileTask.FailsClean.before (fun f tree' hexec _ => ?_)
      fun kept tree' => ⟨(), discard_of_rules hrules _ _ _⟩
    obtain ⟨outcome, after, hremove, hremoves⟩ :=
      Catalog.exec_remove h.sound.hosts (h.sound.ready c) id
    rw [hremove] at hexec
    obtain ⟨rfl, rfl⟩ := Prod.mk.inj hexec
    cases hremoves with
    | refused => rfl
    | stale _ _ key type index entities hkey hindex htype hload hfind =>
      exact (h.not_stale hkey hindex htype hload hfind).elim

end Consistent

end Engine

end PropertyGraph
