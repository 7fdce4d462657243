/-
  PropertyGraph.Proofs.Memory.Snapshot

  A store whose state is kept in a snapshot file.  Where the path of the file leads, there is
  either no file or one with the text of a proper state, and all keys of that state were made
  by the store.  Every call keeps this, whatever it returns, so that a store reads nothing but
  what it has written.
-/
import PropertyGraph.Proofs.Backend
import PropertyGraph.Proofs.Memory.State

namespace PropertyGraph

variable {tree tree' tree'' : FileTree} {path text : String}

/-! ## Places of paths -/

namespace FileTree

/-- Where names lead from a place, whatever stands on the way. -/
def follow : Place → List String → Place
  | here, [] => here
  | here, name :: rest =>
    if name = "" ∨ name = "." then follow here rest
    else if name = ".." then follow here.dropLast rest
    else follow (here ++ [name]) rest

/-- Where a path leads, if it leads anywhere. -/
def placeOf (tree : FileTree) (path : String) : Place := follow (tree.origin path) (names path)

theorem eq_follow_of_locate {here place : Place} {names : List String}
    (h : tree.locate here names = .ok place) : place = follow here names := by
  induction names generalizing here with
  | nil => exact (Except.ok.inj h).symm
  | cons name rest ih =>
    rw [locate] at h
    rw [follow]
    split at h
    · cases h
    · cases h
    · split at h
      · rw [if_pos ‹_›]
        exact ih h
      · rw [if_neg ‹_›]
        split at h
        · rw [if_pos ‹_›]
          exact ih h
        · rw [if_neg ‹_›]
          split at h
          · cases h
          · exact ih h

theorem eq_placeOf_of_resolve {place : Place} (h : tree.resolve path = .ok place) :
    place = tree.placeOf path := by
  rw [resolve] at h
  split at h
  · cases h
  · split at h
    · cases h
    · exact eq_follow_of_locate h

theorem placeOf_of_home (h : tree'.home = tree.home) (path : String) :
    tree'.placeOf path = tree.placeOf path := by
  rw [placeOf, placeOf, origin, origin, h]

/-- A file that is read stands at the place of its path. -/
theorem occupant_of_read (h : tree.read path = .ok text) :
    tree.occupant (tree.placeOf path) = some (.file text) := by
  rw [read] at h
  cases hresolve : tree.resolve path with
  | error trouble => rw [hresolve] at h; cases h
  | ok place =>
    rw [← eq_placeOf_of_resolve hresolve]
    simp only [hresolve] at h
    split at h
    · cases h
    · cases h
    · obtain rfl := Except.ok.inj h
      assumption

/-! ## New texts -/

/-- A change after which every file has a certain text or was there before. -/
structure Gains (tree tree' : FileTree) (text : String) : Prop where
  home : tree'.home = tree.home
  files : ∀ place found, tree'.occupant place = some (.file found) →
    found = text ∨ tree.occupant place = some (.file found)

namespace Gains

theorem refl (tree : FileTree) (text : String) : tree.Gains tree text where
  home := rfl
  files _ _ := .inr

theorem trans (h : tree.Gains tree' text) (h' : tree'.Gains tree'' text) :
    tree.Gains tree'' text where
  home := h'.home.trans h.home
  files place found hfound := (h'.files place found hfound).elim .inl (h.files place found)

end Gains

/-- A change at one place, which has no file or one with the text afterwards. -/
theorem gains_of_others {place : Place} (hhome : tree'.home = tree.home)
    (hothers : ∀ other, other ≠ place → tree'.occupant other = tree.occupant other)
    (hhere : place ≠ [] → ∀ found, tree'.occupant place = some (.file found) → found = text) :
    tree.Gains tree' text where
  home := hhome
  files other found hfound := by
    by_cases hother : other = place
    · subst hother
      by_cases hroot : other = []
      · -- the root is a directory
        subst hroot
        cases hfound
      · exact .inl (hhere hroot found hfound)
    · rw [hothers other hother] at hfound
      exact .inr hfound

theorem gains_put_directory (tree : FileTree) (place : Place) (text : String) :
    tree.Gains (tree.put place .directory) text := by
  refine gains_of_others rfl (fun other => tree.occupant_put_of_ne .directory) fun hroot found h => ?_
  rw [tree.occupant_put_self .directory hroot] at h
  cases h

theorem gains_put_file (tree : FileTree) (place : Place) (text : String) :
    tree.Gains (tree.put place (.file text)) text := by
  refine gains_of_others rfl (fun other => tree.occupant_put_of_ne _) fun hroot found h => ?_
  rw [tree.occupant_put_self _ hroot] at h
  cases h
  rfl

theorem gains_drop (tree : FileTree) (place : Place) (text : String) :
    tree.Gains (tree.drop place) text := by
  refine gains_of_others rfl (fun other => tree.occupant_drop_of_ne) fun hroot found h => ?_
  rw [tree.occupant_drop_self hroot] at h
  cases h

theorem gains_makeAlong (text : String) (here : Place) (names : List String) :
    (tree : FileTree) → tree.Gains (tree.makeAlong here names).2 text := by
  induction names generalizing here with
  | nil => exact fun tree => .refl tree text
  | cons name rest ih =>
    intro tree
    rw [makeAlong]
    split
    · exact ih here tree
    · split
      · exact ih here.dropLast tree
      · split
        · exact .refl tree text
        · split
          · exact .refl tree text
          · exact ih _ tree
          · exact (gains_put_directory tree _ text).trans (ih _ _)

theorem gains_makeDirectories (tree : FileTree) (path text : String) :
    tree.Gains (tree.makeDirectories path).2 text := by
  rw [makeDirectories]
  split
  · exact .refl tree text
  · split
    · split
      · exact .refl tree text
      · exact .refl tree text
      · exact gains_makeAlong text _ _ tree
    · exact gains_makeAlong text _ _ tree

theorem gains_write (h : tree.write? path text = some tree') :
    tree.Gains tree' text ∧ tree'.occupant (tree.placeOf path) = some (.file text) := by
  rw [write?] at h
  cases hresolve : tree.resolve path with
  | error trouble => rw [hresolve] at h; cases h
  | ok place =>
    simp only [hresolve] at h
    split at h
    · cases h
    next hfree =>
      cases h
      have hroot : place ≠ [] := by
        rintro rfl
        exact hfree rfl
      rw [← eq_placeOf_of_resolve hresolve]
      exact ⟨gains_put_file tree place text, tree.occupant_put_self _ hroot⟩

/-- Renaming a file that has the text, so that the text is read under the new path. -/
theorem gains_rename {source target : String}
    (hsource : tree.occupant (tree.placeOf source) = some (.file text))
    (h : tree.rename? source target = some tree') :
    tree.Gains tree' text ∧ tree'.read target = .ok text := by
  rw [rename?] at h
  cases hold : tree.resolve source with
  | error trouble => simp [hold] at h
  | ok old =>
    cases hnew : tree.resolve target with
    | error trouble => simp [hold, hnew] at h
    | ok new =>
      obtain rfl := eq_placeOf_of_resolve hold
      simp only [hold, hnew, hsource] at h
      have hfree : tree.occupant new ≠ some .directory := by
        intro hdirectory
        simp [hdirectory] at h
      obtain rfl : (tree.drop (tree.placeOf source)).put new (.file text) = tree' := by
        cases hoccupant : tree.occupant new with
        | none => simpa [hoccupant] using h
        | some entry =>
          cases entry with
          | directory => exact absurd hoccupant hfree
          | file found => simpa [hoccupant] using h
      have hroot : new ≠ [] := by
        rintro rfl
        exact hfree rfl
      refine ⟨(gains_drop tree _ text).trans (gains_put_file _ new text), ?_⟩
      -- no directory has gone, so the new path leads where it led before
      have hdrop : tree.ChangesOnly (tree.drop (tree.placeOf source)) fun _ => True := by
        have hfile : tree.placeOf source ≠ [] := by
          intro hroot
          rw [hroot] at hsource
          cases hsource
        refine (changesOnly_drop tree (List.getLast?_eq_some_getLast hfile) ?_).mono fun _ _ => trivial
        simp [hsource]
      have hput : (tree.drop (tree.placeOf source)).ChangesOnly
          ((tree.drop (tree.placeOf source)).put new (.file text)) fun _ => True := by
        refine (changesOnly_put_file _ text (List.getLast?_eq_some_getLast hroot) ?_).mono
          fun _ _ => trivial
        intro hdirectory
        by_cases hsame : new = tree.placeOf source
        · rw [hsame, occupant_drop_self tree (hsame ▸ hroot)] at hdirectory
          cases hdirectory
        · rw [occupant_drop_of_ne tree hsame] at hdirectory
          exact hfree hdirectory
      rw [read, (hdrop.trans hput).resolve hnew]
      simp [occupant_put_self _ _ hroot]

end FileTree

/-! ## Snapshot files -/

namespace FileTask

/-- Replacing a file brings nothing but the new text, and the text is read if it succeeds. -/
theorem gains_replace (path text : String) (tree : FileTree) :
    tree.Gains ((replace path text).exec tree).2 text
      ∧ (((replace path text).exec tree).1 = .ok () →
        ((replace path text).exec tree).2.read path = .ok text) := by
  rw [replace]
  -- the text goes to a file aside, which then takes the place of the old one
  cases hwrite : tree.write? (FilePath.withExtension path "json.tmp") text with
  | none =>
    have hrefused : (write (FilePath.withExtension path "json.tmp") text).exec tree
        = (.error .io, tree) := by
      rw [exec_write, hwrite]
    rw [exec_bind_of_error hrefused]
    exact ⟨.refl tree text, fun hok => by cases hok⟩
  | some tree₁ =>
    obtain ⟨hgains, haside⟩ := FileTree.gains_write hwrite
    rw [← FileTree.placeOf_of_home hgains.home] at haside
    have hdone : (write (FilePath.withExtension path "json.tmp") text).exec tree
        = (.ok (), tree₁) := by
      rw [exec_write, hwrite]
    rw [exec_bind_of_ok hdone, exec_rename]
    cases hrename : tree₁.rename? (FilePath.withExtension path "json.tmp") path with
    | none => exact ⟨hgains, fun hok => by cases hok⟩
    | some tree₂ =>
      obtain ⟨hgains', hread⟩ := FileTree.gains_rename haside hrename
      exact ⟨hgains.trans hgains', fun _ => hread⟩

end FileTask

namespace Keeper

/-- Saving a state brings nothing but its text, and the text is read if it succeeds. -/
theorem gains_save (path : String) (s : GraphState) (tree : FileTree) :
    tree.Gains ((save path s).exec tree).2 s.toJson.pretty
      ∧ (((save path s).exec tree).1 = .ok () →
        ((save path s).exec tree).2.read path = .ok s.toJson.pretty) := by
  rw [save]
  cases FilePath.parent? path with
  | none => exact FileTask.gains_replace path _ tree
  | some above =>
    have hmade := FileTree.gains_makeDirectories tree above s.toJson.pretty
    cases hdirectories : tree.makeDirectories above with
    | mk done tree₁ =>
      rw [hdirectories] at hmade
      cases done with
      | false =>
        have hrefused : (FileTask.makeDirectories above).exec tree = (.error .io, tree₁) := by
          rw [FileTask.exec_makeDirectories, hdirectories]
        rw [FileTask.exec_bind_of_error hrefused]
        exact ⟨hmade, nofun⟩
      | true =>
        have hdone : (FileTask.makeDirectories above).exec tree = (.ok (), tree₁) := by
          rw [FileTask.exec_makeDirectories, hdirectories]
        rw [FileTask.exec_bind_of_ok hdone]
        obtain ⟨hgains, hread⟩ := FileTask.gains_replace path s.toJson.pretty tree₁
        exact ⟨hmade.trans hgains, hread⟩

/-- Where the path of a snapshot leads, there is no file but one with the text of a proper state,
    and all keys of that state are among those given out. -/
structure Holds (path : String) (given : List String) (tree : FileTree) : Prop where
  written : ∀ text, tree.occupant (tree.placeOf path) = some (.file text) →
    ∃ s : GraphState, text = s.toJson.pretty ∧ s.Proper Number.Whole given

variable {given given' : List String}

theorem Holds.gains {s : GraphState} (h : Holds path given tree)
    (hgains : tree.Gains tree' s.toJson.pretty) (hs : s.Proper Number.Whole given')
    (hsub : ∀ key ∈ given, key ∈ given') : Holds path given' tree' where
  written text htext := by
    rw [FileTree.placeOf_of_home hgains.home] at htext
    rcases hgains.files _ _ htext with rfl | hold
    · exact ⟨s, rfl, hs⟩
    · obtain ⟨s', rfl, hs'⟩ := h.written text hold
      exact ⟨s', rfl, hs'.mono hsub⟩

theorem Holds.mono (h : Holds path given tree) (hsub : ∀ key ∈ given, key ∈ given') :
    Holds path given' tree where
  written text htext := by
    obtain ⟨s, rfl, hs⟩ := h.written text htext
    exact ⟨s, rfl, hs.mono hsub⟩

theorem exec_load_of_error {trouble : PathTrouble} (h : tree.read path = .error trouble) :
    (load path).exec tree = (if trouble = .missing then .ok .empty else .error .io, tree) := by
  cases trouble with
  | missing =>
    have hnothing : (FileTask.read path).exec tree = (.ok none, tree) := by
      rw [FileTask.exec_read, h]
    rw [load, FileTask.exec_bind_of_ok hnothing]
    rfl
  | refused =>
    have hrefused : (FileTask.read path).exec tree = (.error .io, tree) := by
      rw [FileTask.exec_read, h]
    rw [load, FileTask.exec_bind_of_error hrefused]
    rfl

theorem exec_load_of_read (h : tree.read path = .ok text) :
    (load path).exec tree = (Document.ofDecoded (GraphState.decode (Json.Tree.ofText text)), tree) := by
  have hfound : (FileTask.read path).exec tree = (.ok (some text), tree) := by
    rw [FileTask.exec_read, h]
  rw [load, FileTask.exec_bind_of_ok hfound]
  cases hdecode : GraphState.decode (Json.Tree.ofText text) with
  | ok s => simp only [hdecode]; rfl
  | error problem => simp only [hdecode]; rfl

theorem exec_load_unchanged (path : String) (tree : FileTree) : ((load path).exec tree).2 = tree := by
  cases hread : tree.read path with
  | error trouble => rw [exec_load_of_error hread]
  | ok text => rw [exec_load_of_read hread]

/-- What is loaded is a proper state within the nesting limit. -/
theorem Holds.loaded (h : Holds path given tree) {s : GraphState}
    (hload : (load path).exec tree = (.ok s, tree)) :
    s.Proper Number.Whole given ∧ s.WithinLimit := by
  cases hread : tree.read path with
  | error trouble =>
    rw [exec_load_of_error hread] at hload
    split at hload
    · obtain rfl : GraphState.empty = s := Except.ok.inj (congrArg Prod.fst hload)
      exact ⟨GraphState.proper_empty, GraphState.withinLimit_empty⟩
    · cases congrArg Prod.fst hload
  | ok text =>
    obtain ⟨s', rfl, hs'⟩ := h.written text (FileTree.occupant_of_read hread)
    rw [exec_load_of_read hread] at hload
    cases hdecode : GraphState.decode (Json.Tree.ofText s'.toJson.pretty) with
    | error problem =>
      rw [hdecode] at hload
      cases congrArg Prod.fst hload
    | ok t =>
      rw [hdecode] at hload
      obtain rfl : t = s := Except.ok.inj (congrArg Prod.fst hload)
      -- a proper state is decoded as itself, if it is decoded at all
      obtain rfl := GraphState.eq_of_decode hs' hdecode
      exact ⟨hs', GraphState.withinLimit_of_decode hs' hdecode⟩

theorem run_outcome {α : Type} (task : FileTask α) (tree : FileTree) :
    task.outcome.run tree = task.exec tree := rfl

/-- A change of the state in a snapshot file, and what it leads to if it succeeds. -/
theorem Holds.run_update {α : Type} {f : GraphState → Outcome α × GraphState}
    (h : Holds path given tree) (hsub : ∀ key ∈ given, key ∈ given')
    (hf : ∀ s, s.Proper Number.Whole given → (f s).2.Proper Number.Whole given') :
    ∃ outcome tree', (update (.snapshot path) f).run tree = ((outcome, .snapshot path), tree')
      ∧ Holds path given' tree'
      ∧ ∀ a, outcome = .ok a → ∃ s, (load path).exec tree = (.ok s, tree) ∧ (f s).1 = .ok a
        ∧ tree'.read path = .ok (f s).2.toJson.pretty := by
  obtain ⟨o, hload⟩ : ∃ o, (load path).exec tree = (o, tree) :=
    ⟨_, Prod.ext rfl (exec_load_unchanged path tree)⟩
  simp only [update, FileProgram.run_bind, FileProgram.run_pure, run_outcome]
  -- the change may end at loading, at its own outcome, or at saving
  cases o with
  | error failure =>
    rw [FileTask.exec_bind_of_error hload]
    exact ⟨_, _, rfl, h.mono hsub, nofun⟩
  | ok s =>
    rw [FileTask.exec_bind_of_ok hload]
    cases hresult : (f s).1 with
    | error failure =>
      rw [FileTask.exec_bind_of_error (FileTask.exec_ofOutcome _ _)]
      exact ⟨_, _, rfl, h.mono hsub, nofun⟩
    | ok a =>
      rw [FileTask.exec_bind_of_ok (FileTask.exec_ofOutcome _ _)]
      -- whether saving succeeds or not, the only new text is that of the new state
      obtain ⟨hgains, hread⟩ := gains_save path (f s).2 tree
      have hholds := h.gains hgains (hf s (h.loaded hload).1) hsub
      cases hsave : (save path (f s).2).exec tree with
      | mk saved tree' =>
        rw [hsave] at hholds hread
        cases saved with
        | error failure =>
          rw [FileTask.exec_bind_of_error hsave]
          exact ⟨_, _, rfl, hholds, nofun⟩
        | ok u =>
          rw [FileTask.exec_bind_of_ok hsave]
          refine ⟨_, _, rfl, hholds, fun a' ha' => ?_⟩
          obtain rfl : a = a' := Except.ok.inj ha'
          exact ⟨s, hload, hresult, hread rfl⟩

end Keeper

/-! ## Stores with a snapshot -/

namespace Store

open Keeper (load Holds)

variable {store : Store} {used : List String} {c : EntityClass}

/-- The key made from a unique text. -/
def keyOf (store : Store) (unique : String) : String := store.idPrefix.getD "" ++ unique

theorem keyOf_inj {first second : String} (h : store.keyOf first = store.keyOf second) :
    first = second :=
  (String.append_right_inj _).1 h

theorem keys_append (store : Store) (used : List String) (unique : String) :
    ∀ key ∈ used.map store.keyOf, key ∈ (used ++ [unique]).map store.keyOf := by
  intro key hkey
  rw [List.map_append]
  exact List.mem_append_left _ hkey

/-- A look at the state leaves everything as it is. -/
theorem run_look {α : Type} (hkeeper : store.keeper = .snapshot path)
    (f : GraphState → Outcome α) (tree : FileTree) :
    (store.look f).run tree = ((((load path).exec tree).1 >>= f, store), tree) := by
  have hread : ((Keeper.snapshot path).read f).exec tree
      = (((load path).exec tree).1 >>= f, tree) := by
    refine FileTask.exec_bind_of_unchanged (Prod.ext rfl (Keeper.exec_load_unchanged path tree))
      fun s _ => ?_
    exact FileTask.exec_ofOutcome (f s) tree
  rw [look, hkeeper, FileProgram.run_bind, Keeper.run_outcome, hread]
  rfl

/-- A change of the state leaves the store as it is, its snapshot holding a proper state. -/
theorem run_change {α : Type} {given given' : List String}
    {f : GraphState → Outcome α × GraphState} (hkeeper : store.keeper = .snapshot path)
    (h : Holds path given tree) (hsub : ∀ key ∈ given, key ∈ given')
    (hf : ∀ s, s.Proper Number.Whole given → (f s).2.Proper Number.Whole given') :
    ∃ outcome tree', (store.change f).run tree = ((outcome, store), tree')
      ∧ Holds path given' tree'
      ∧ ∀ a, outcome = .ok a → ∃ s, (load path).exec tree = (.ok s, tree) ∧ (f s).1 = .ok a
        ∧ tree'.read path = .ok (f s).2.toJson.pretty := by
  obtain ⟨outcome, tree', hupdate, hholds, hdone⟩ := h.run_update hsub hf
  refine ⟨outcome, tree', ?_, hholds, hdone⟩
  rw [change, hkeeper, FileProgram.run_bind, hupdate]
  show ((outcome, { store with keeper := .snapshot path }), tree') = _
  rw [← hkeeper]

/-- What creating an entity leads to. -/
theorem run_create (hkeeper : store.keeper = .snapshot path)
    (h : Holds path (used.map store.keyOf) tree) {stamp : Stamp} {body : Body c}
    (htime : TimeFits stamp.time) (hbody : body.Proper Number.Whole) :
    ∃ outcome tree', (store.answer stamp (.create c body)).run tree = ((outcome, store), tree')
      ∧ Holds path ((used ++ [stamp.unique]).map store.keyOf) tree'
      ∧ ∀ e, outcome = .ok e → ∃ s, (load path).exec tree = (.ok s, tree)
        ∧ e = body.create (.ofString (store.keyOf stamp.unique)) (some stamp.time)
        ∧ tree'.read path = .ok (s.insert (store.keyOf stamp.unique) e).toJson.pretty := by
  have hsub := store.keys_append used stamp.unique
  obtain ⟨outcome, tree', hrun, hholds, hdone⟩ := run_change hkeeper h hsub
    (f := fun s => (.ok (body.create (.ofString (store.keyOf stamp.unique)) (some stamp.time)),
      s.insert (store.keyOf stamp.unique)
        (body.create (.ofString (store.keyOf stamp.unique)) (some stamp.time))))
    fun s hs => (hs.mono hsub).insert (by simp) (hbody.create _ htime)
  refine ⟨outcome, tree', hrun, hholds, fun e he => ?_⟩
  obtain ⟨s, hload, hresult, hread⟩ := hdone e he
  obtain rfl := Except.ok.inj hresult
  exact ⟨s, hload, rfl, hread⟩

/-- Every proper call leaves the store as it is, its snapshot holding a proper state. -/
theorem run_answer (hkeeper : store.keeper = .snapshot path)
    (h : Holds path (used.map store.keyOf) tree) {step : Engine.Step}
    (hproper : step.Proper Number.Whole) :
    ∃ outcome tree', (store.answer step.stamp step.call).run tree = ((outcome, store), tree')
      ∧ Holds path ((used ++ step.given).map store.keyOf) tree' := by
  obtain ⟨stamp, call⟩ := step
  -- only creating an entity gives out a key
  have hsame : Holds path ((used ++ []).map store.keyOf) tree := by
    rw [List.append_nil]
    exact h
  have hlook : ∀ {α : Type} (f : GraphState → Outcome α),
      ∃ outcome tree', (store.look f).run tree = ((outcome, store), tree')
        ∧ Holds path ((used ++ []).map store.keyOf) tree' :=
    fun f => ⟨_, _, run_look hkeeper f tree, hsame⟩
  have hchange : ∀ {α : Type} (f : GraphState → Outcome α × GraphState),
      (∀ s, s.Proper Number.Whole (used.map store.keyOf) →
        (f s).2.Proper Number.Whole (used.map store.keyOf)) →
      ∃ outcome tree', (store.change f).run tree = ((outcome, store), tree')
        ∧ Holds path ((used ++ []).map store.keyOf) tree' := by
    intro α f hf
    obtain ⟨outcome, tree', hrun, hholds, -⟩ := run_change hkeeper h (fun _ hkey => hkey) hf
    refine ⟨outcome, tree', hrun, ?_⟩
    rw [List.append_nil]
    exact hholds
  -- an identity that is no text ends a call before the state is looked at
  have hkey : ∀ {α : Type} (id : Id) (f : String → FileProgram (Outcome α × Store)),
      (∀ key, ∃ outcome tree', (f key).run tree = ((outcome, store), tree')
        ∧ Holds path ((used ++ []).map store.keyOf) tree') →
      ∃ outcome tree', (store.withKey id f).run tree = ((outcome, store), tree')
        ∧ Holds path ((used ++ []).map store.keyOf) tree' := by
    intro α id f hf
    rw [withKey]
    cases id.requireText with
    | ok key => exact hf key
    | error failure => exact ⟨_, _, rfl, hsame⟩
  cases call with
  | get c id => exact hkey id _ fun key => hlook _
  | search c searcher =>
    simp only [answer]
    cases searcher.compile (store.evaluators.forClass c) with
    | error failure => exact ⟨_, _, rfl, hsame⟩
    | ok m => exact hlook _
  | create c body =>
    obtain ⟨outcome, tree', hrun, hholds, -⟩ := run_create hkeeper h hproper.1 hproper.2
    exact ⟨outcome, tree', hrun, hholds⟩
  | edit c id patch =>
    exact hkey id _ fun key => hchange _ fun s hs => hs.edit hproper.2 hproper.1
  | remove c id => exact hkey id _ fun key => hchange _ fun s hs => hs.remove
  | types c => exact hlook _

/-- What is read of an identity. -/
theorem run_get (hkeeper : store.keeper = .snapshot path) (stamp : Stamp) (id : Id)
    (tree : FileTree) :
    (store.answer stamp (.get c id)).run tree
      = ((id.requireText >>= fun key =>
          ((load path).exec tree).1 >>= fun s => .ok (s.get c key), store), tree) := by
  rw [answer, withKey]
  cases id.requireText with
  | error failure => rfl
  | ok key =>
    show (store.look _).run tree = _
    rw [run_look hkeeper]
    rfl

/-- Below a path that leads to no file yet, all runs keep the store as it is. -/
theorem holds_after (hkeeper : store.keeper = .snapshot path)
    (hfree : ∀ text, tree.occupant (tree.placeOf path) ≠ some (.file text))
    {steps : List Engine.Step} (hproper : ProperRun Number.Whole steps) :
    ∃ tree', backend.after (store, tree) steps = (store, tree')
      ∧ Holds path ((Engine.given steps).map store.keyOf) tree' := by
  induction steps using List.reverseRecOn with
  | nil => exact ⟨tree, rfl, ⟨fun text htext => absurd htext (hfree text)⟩⟩
  | append_singleton steps step ih =>
    obtain ⟨tree₁, hafter, hholds⟩ := ih hproper.before
    obtain ⟨outcome, tree₂, hrun, hholds'⟩ :=
      run_answer hkeeper hholds (hproper.proper step (by simp))
    refine ⟨tree₂, ?_, ?_⟩
    · rw [Backend.after_append, hafter, Backend.advance, backend]
      simp only [hrun]
    · rw [Engine.given_append]
      exact hholds'

end Store

end PropertyGraph
