/-
  PropertyGraph.Proofs.Storage.Enclosure

  Programs that stay below a root.  A request stays there when its paths are plain names
  below the root, or below the directory of raw texts: such a path leads to a place below the
  root or nowhere, and what it meets depends on nothing outside.  So a program that makes only
  such requests changes nothing outside of the root, and runs in the same way on two trees
  that agree below it.
-/
import PropertyGraph.Proofs.Storage.FileTask
import PropertyGraph.Proofs.Storage.FileTree
import PropertyGraph.Proofs.Storage.Naming

namespace PropertyGraph

open FilePath (PlainName)
open FileTree (Rooted admits maxName)
open Naming (rawDirectory rawPath)

variable {α β : Type} {root : String} {base : Place} {tree tree' tree'' : FileTree}

/-! ## Paths below a root -/

/-- A plain name below a root, or below its directory of raw texts. -/
inductive FilePath.Below (root : String) : String → Prop
  | name {name : String} : PlainName name → Below root (FilePath.join root name)
  | raw {name : String} : PlainName name → Below root (rawPath root name)

namespace FileTree

/-- The path of a raw text leads through the directory of raw texts. -/
theorem Rooted.locate_rawPath (h : tree.Rooted root base) {name : String} (hname : PlainName name) :
    tree.locate (tree.origin (rawPath root name)) (names (rawPath root name))
      = tree.locate base ["raw", name] := by
  obtain ⟨before, hnames, hbefore⟩ :
      ∃ before, names (FilePath.join (rawDirectory root) name) = before ++ [name]
        ∧ (names (rawDirectory root) = before ∨ names (rawDirectory root) = before ++ [""]) :=
    FilePath.names_join hname
  obtain ⟨above, habove, hleads⟩ := h.names_join FilePath.plainName_raw
  have horigin : tree.origin (rawPath root name) = tree.origin (FilePath.join root "raw") := by
    rw [origin, origin, rawPath, rawDirectory, FilePath.isAbsolute_join hname]
  obtain rfl : before = above ++ ["raw"] := by
    rw [rawDirectory, habove] at hbefore
    rcases hbefore with hsame | hblank
    · exact hsame.symm
    · have hlast := (List.append_inj' hblank rfl).2
      exact absurd hlast (by decide)
  rw [horigin, rawPath, hnames, List.append_assoc, locate_append, hleads]
  rfl

/-- Where a path below a root leads is decided below the place of the root. -/
theorem resolve_below {path : String} (h : FilePath.Below root path) (base : Place) :
    ∃ names : List String, names ≠ [] ∧ (∀ name ∈ names, PlainName name)
      ∧ ∀ tree : FileTree, tree.Rooted root base →
        tree.resolve path = if admits path then tree.locate base names else .error .refused := by
  cases h with
  | @name name hname =>
    refine ⟨[name], by simp, by simpa using hname, fun tree hrooted => ?_⟩
    rw [resolve, FilePath.join_ne_empty hname, hrooted.locate_join hname]
    cases admits (FilePath.join root name) <;> rfl
  | @raw name hname =>
    refine ⟨["raw", name], by simp, ?_, fun tree hrooted => ?_⟩
    · intro other hother
      rcases List.mem_cons.1 hother with rfl | hother
      · exact FilePath.plainName_raw
      · exact (List.mem_singleton.1 hother) ▸ hname
    · have hempty : (rawPath root name).isEmpty = false := FilePath.join_ne_empty hname
      rw [resolve, hempty, hrooted.locate_rawPath hname]
      cases admits (rawPath root name) <;> rfl

/-! ## Trees that agree below a root -/

/-- Two trees with the same root, in which the same stands below it. -/
structure Alike (tree tree' : FileTree) (root : String) (base : Place) : Prop where
  here : tree.Rooted root base
  there : tree'.Rooted root base
  same : ∀ names, tree'.occupant (base ++ names) = tree.occupant (base ++ names)

/-- What stands outside of a root is the same in both trees. -/
def Spares (tree tree' : FileTree) (base : Place) : Prop :=
  ∀ place, ¬ base <+: place → tree'.occupant place = tree.occupant place

theorem Spares.refl (tree : FileTree) (base : Place) : tree.Spares tree base := fun _ _ => rfl

theorem Spares.trans (h : tree.Spares tree' base) (h' : tree'.Spares tree'' base) :
    tree.Spares tree'' base :=
  fun place hplace => (h' place hplace).trans (h place hplace)

theorem ne_append_of_outside {names : List String} {place : Place} (h : ¬ base <+: place) :
    place ≠ base ++ names := by
  rintro rfl
  exact h (List.prefix_append base names)

theorem spares_put (tree : FileTree) (base : Place) (names : List String) (entry : FileEntry) :
    tree.Spares (tree.put (base ++ names) entry) base :=
  fun _ hplace => tree.occupant_put_of_ne entry (ne_append_of_outside hplace)

theorem spares_drop (tree : FileTree) (base : Place) (names : List String) :
    tree.Spares (tree.drop (base ++ names)) base :=
  fun _ hplace => tree.occupant_drop_of_ne (ne_append_of_outside hplace)

namespace Alike

theorem locate (h : tree.Alike tree' root base) {names : List String}
    (hplain : ∀ name ∈ names, PlainName name) (before : List String) :
    tree'.locate (base ++ before) names = tree.locate (base ++ before) names := by
  induction names generalizing before with
  | nil => rfl
  | cons name rest ih =>
    have hrest := ih (fun other hother => hplain other (List.mem_cons_of_mem _ hother))
      (before ++ [name])
    have hname := hplain name (List.mem_cons_self ..)
    rw [← List.append_assoc] at hrest
    simp only [FileTree.locate, h.same, hrest, if_neg (not_or.2 ⟨hname.ne_empty, hname.ne_point⟩),
      if_neg hname.ne_points]

theorem locate_eq_ok {names : List String} (hplain : ∀ name ∈ names, PlainName name)
    {here place : Place} (hlocate : tree.locate here names = .ok place) : place = here ++ names := by
  induction names generalizing here with
  | nil =>
    rw [List.append_nil]
    exact (Except.ok.inj hlocate).symm
  | cons name rest ih =>
    have hname := hplain name (List.mem_cons_self ..)
    rw [FileTree.locate] at hlocate
    split at hlocate
    · cases hlocate
    · cases hlocate
    · rw [if_neg (not_or.2 ⟨hname.ne_empty, hname.ne_point⟩), if_neg hname.ne_points] at hlocate
      split at hlocate
      · cases hlocate
      · rw [ih (fun other hother => hplain other (List.mem_cons_of_mem _ hother)) hlocate,
          List.append_assoc]
        rfl

/-- A path below the root leads to the same place in both trees, and that is below the root. -/
theorem resolve (h : tree.Alike tree' root base) {path : String}
    (hbelow : FilePath.Below root path) :
    tree'.resolve path = tree.resolve path
      ∧ ∀ place, tree.resolve path = .ok place → ∃ names, names ≠ [] ∧ place = base ++ names := by
  obtain ⟨names, hne, hplain, hresolve⟩ := resolve_below hbelow base
  have hlocate := h.locate hplain []
  rw [List.append_nil] at hlocate
  rw [hresolve tree h.here, hresolve tree' h.there, hlocate]
  refine ⟨rfl, fun place hplace => ⟨names, hne, ?_⟩⟩
  split at hplace
  · exact locate_eq_ok hplain hplace
  · cases hplace

theorem occupant_put (h : tree.Alike tree' root base) (names : List String) (entry : FileEntry)
    (others : List String) (hne : names ≠ []) :
    (tree'.put (base ++ names) entry).occupant (base ++ others)
      = (tree.put (base ++ names) entry).occupant (base ++ others) := by
  have hroot : base ++ names ≠ [] := by simp [hne]
  by_cases hsame : others = names
  · rw [hsame, occupant_put_self _ _ hroot, occupant_put_self _ _ hroot]
  · have hother : base ++ others ≠ base ++ names := fun heq => hsame (List.append_cancel_left heq)
    rw [occupant_put_of_ne _ _ hother, occupant_put_of_ne _ _ hother, h.same]

theorem put_file (h : tree.Alike tree' root base) {names : List String} (hne : names ≠ [])
    (hfree : tree.occupant (base ++ names) ≠ some .directory) (text : String) :
    (tree.put (base ++ names) (.file text)).Alike (tree'.put (base ++ names) (.file text)) root
      base := by
  have hroot : base ++ names ≠ [] := by simp [hne]
  have hlast := List.getLast?_eq_some_getLast hroot
  have hfree' : tree'.occupant (base ++ names) ≠ some .directory := by rwa [h.same]
  exact ⟨h.here.changesOnly (changesOnly_put_file tree text hlast hfree),
    h.there.changesOnly (changesOnly_put_file tree' text hlast hfree'),
    fun others => h.occupant_put names _ others hne⟩

theorem put_directory (h : tree.Alike tree' root base) {names : List String} (hne : names ≠ []) :
    (tree.put (base ++ names) .directory).Alike (tree'.put (base ++ names) .directory) root base := by
  have hroot : base ++ names ≠ [] := by simp [hne]
  have hlast := List.getLast?_eq_some_getLast hroot
  exact ⟨h.here.changesOnly (changesOnly_put_directory tree hlast),
    h.there.changesOnly (changesOnly_put_directory tree' hlast),
    fun others => h.occupant_put names _ others hne⟩

theorem drop (h : tree.Alike tree' root base) {names : List String} (hne : names ≠ [])
    (hfree : tree.occupant (base ++ names) ≠ some .directory) :
    (tree.drop (base ++ names)).Alike (tree'.drop (base ++ names)) root base := by
  have hroot : base ++ names ≠ [] := by simp [hne]
  have hlast := List.getLast?_eq_some_getLast hroot
  have hfree' : tree'.occupant (base ++ names) ≠ some .directory := by rwa [h.same]
  refine ⟨h.here.changesOnly (changesOnly_drop tree hlast hfree),
    h.there.changesOnly (changesOnly_drop tree' hlast hfree'), fun others => ?_⟩
  by_cases hsame : others = names
  · rw [hsame, occupant_drop_self _ hroot, occupant_drop_self _ hroot]
  · have hother : base ++ others ≠ base ++ names := fun heq => hsame (List.append_cancel_left heq)
    rw [occupant_drop_of_ne _ hother, occupant_drop_of_ne _ hother, h.same]

end Alike

theorem not_directory_of_drop (tree : FileTree) (place : Place) {other : Place}
    (h : tree.occupant other ≠ some .directory) :
    (tree.drop place).occupant other ≠ some .directory := by
  by_cases hroot : other = []
  · exact absurd (by rw [hroot]; rfl) h
  · by_cases hsame : other = place
    · rw [hsame, occupant_drop_self tree (hsame ▸ hroot)]
      nofun
    · rw [occupant_drop_of_ne tree hsame]
      exact h

/-- Making a directory below the root. -/
theorem Alike.makeAlong (h : tree.Alike tree' root base) {name : String} (hname : PlainName name) :
    (tree'.makeAlong base [name]).1 = (tree.makeAlong base [name]).1
      ∧ (tree.makeAlong base [name]).2.Alike (tree'.makeAlong base [name]).2 root base
      ∧ tree.Spares (tree.makeAlong base [name]).2 base := by
  simp only [FileTree.makeAlong, if_neg (not_or.2 ⟨hname.ne_empty, hname.ne_point⟩),
    if_neg hname.ne_points, h.same]
  by_cases hlong : maxName < name.utf8ByteSize
  · simp only [if_pos hlong]
    exact ⟨trivial, h, .refl _ _⟩
  · simp only [if_neg hlong]
    cases tree.occupant (base ++ [name]) with
    | none => exact ⟨rfl, h.put_directory (List.cons_ne_nil _ _), spares_put tree base [name] _⟩
    | some entry => cases entry <;> exact ⟨rfl, h, .refl _ _⟩

end FileTree

/-! ## Requests -/

/-- A request whose paths are all below a root. -/
inductive FileRequest.Within (root : String) : FileRequest → Prop
  | read {path : String} : FilePath.Below root path → Within root (.read path)
  | write {path text : String} : FilePath.Below root path → Within root (.write path text)
  | rename {source target : String} : FilePath.Below root source → FilePath.Below root target →
    Within root (.rename source target)
  | remove {path : String} : FilePath.Below root path → Within root (.remove path)
  | directory {name : String} : PlainName name →
    Within root (.makeDirectories (FilePath.join root name))

namespace FileTree

/-- A request has the same reply on two trees, leaves them alike, and changes nothing outside. -/
def ServedAlike (tree tree' : FileTree) (root : String) (base : Place) (r : FileRequest) : Prop :=
  (tree'.serve r).1 = (tree.serve r).1 ∧ (tree.serve r).2.Alike (tree'.serve r).2 root base
    ∧ tree.Spares (tree.serve r).2 base

namespace Alike

theorem read (h : tree.Alike tree' root base) {path : String} (hbelow : FilePath.Below root path) :
    tree'.read path = tree.read path := by
  obtain ⟨hresolve, hplace⟩ := h.resolve hbelow
  rw [FileTree.read, FileTree.read, hresolve]
  cases hpath : tree.resolve path with
  | error trouble => rfl
  | ok place =>
    obtain ⟨names, -, rfl⟩ := hplace place hpath
    simp only [h.same]

theorem serve_read (h : tree.Alike tree' root base) {path : String}
    (hbelow : FilePath.Below root path) : tree.ServedAlike tree' root base (.read path) := by
  simp only [ServedAlike, serve, h.read hbelow]
  cases tree.read path with
  | ok text => exact ⟨rfl, h, .refl _ _⟩
  | error trouble => cases trouble <;> exact ⟨rfl, h, .refl _ _⟩

theorem serve_write (h : tree.Alike tree' root base) {path : String}
    (hbelow : FilePath.Below root path) (text : String) :
    tree.ServedAlike tree' root base (.write path text) := by
  obtain ⟨hresolve, hplace⟩ := h.resolve hbelow
  simp only [ServedAlike, serve, write?, hresolve]
  cases hpath : tree.resolve path with
  | error trouble => exact ⟨rfl, h, .refl _ _⟩
  | ok place =>
    obtain ⟨names, hne, rfl⟩ := hplace place hpath
    simp only [h.same]
    by_cases hdirectory : tree.occupant (base ++ names) = some .directory
    · simp only [if_pos hdirectory]
      exact ⟨trivial, h, .refl _ _⟩
    · simp only [if_neg hdirectory]
      exact ⟨trivial, h.put_file hne hdirectory text, spares_put tree base names _⟩

theorem serve_rename (h : tree.Alike tree' root base) {source target : String}
    (hsource : FilePath.Below root source) (htarget : FilePath.Below root target) :
    tree.ServedAlike tree' root base (.rename source target) := by
  obtain ⟨hold, hplace⟩ := h.resolve hsource
  obtain ⟨hnew, hplace'⟩ := h.resolve htarget
  simp only [ServedAlike, serve, rename?, hold, hnew]
  cases hsourcePath : tree.resolve source with
  | error trouble => exact ⟨rfl, h, .refl _ _⟩
  | ok old =>
    cases htargetPath : tree.resolve target with
    | error trouble => exact ⟨rfl, h, .refl _ _⟩
    | ok new =>
      obtain ⟨names, hne, rfl⟩ := hplace old hsourcePath
      obtain ⟨names', hne', rfl⟩ := hplace' new htargetPath
      simp only [h.same]
      cases hfile : tree.occupant (base ++ names) with
      | none => exact ⟨rfl, h, .refl _ _⟩
      | some entry =>
        cases entry with
        | directory => exact ⟨rfl, h, .refl _ _⟩
        | file text =>
          have hdrop := h.drop hne (by simp [hfile])
          -- both halves of the renaming happen below the root, in both trees alike
          have hspares := (spares_drop tree base names).trans
            (spares_put _ base names' (.file text))
          by_cases hfree : tree.occupant (base ++ names') = some .directory
          · rw [hfree]
            exact ⟨rfl, h, .refl _ _⟩
          · have hput := hdrop.put_file hne' (tree.not_directory_of_drop _ hfree) text
            cases hentry : tree.occupant (base ++ names') with
            | none => exact ⟨rfl, hput, hspares⟩
            | some entry =>
              cases entry with
              | directory => exact absurd hentry hfree
              | file found => exact ⟨rfl, hput, hspares⟩

theorem serve_remove (h : tree.Alike tree' root base) {path : String}
    (hbelow : FilePath.Below root path) : tree.ServedAlike tree' root base (.remove path) := by
  obtain ⟨hresolve, hplace⟩ := h.resolve hbelow
  simp only [ServedAlike, serve, remove, hresolve]
  cases hpath : tree.resolve path with
  | error trouble => cases trouble <;> exact ⟨rfl, h, .refl _ _⟩
  | ok place =>
    obtain ⟨names, hne, rfl⟩ := hplace place hpath
    simp only [h.same]
    cases hoccupant : tree.occupant (base ++ names) with
    | none => exact ⟨rfl, h, .refl _ _⟩
    | some entry =>
      cases entry with
      | directory => exact ⟨rfl, h, .refl _ _⟩
      | file text =>
        exact ⟨rfl, h.drop hne (by simp [hoccupant]), spares_drop tree base names⟩

theorem serve_makeDirectories (h : tree.Alike tree' root base) {name : String}
    (hname : PlainName name) :
    tree.ServedAlike tree' root base (.makeDirectories (FilePath.join root name)) := by
  by_cases hadmits : admits (FilePath.join root name) = true
  · obtain ⟨hdone, halike, hspares⟩ := h.makeAlong hname
    simp only [ServedAlike, serve, h.here.makeDirectories_join hname hadmits,
      h.there.makeDirectories_join hname hadmits]
    generalize tree.makeAlong base [name] = made at *
    generalize tree'.makeAlong base [name] = made' at *
    obtain ⟨done, tree₁⟩ := made
    obtain ⟨done', tree₁'⟩ := made'
    obtain rfl : done' = done := hdone
    cases done' <;> exact ⟨rfl, halike, hspares⟩
  · simp only [ServedAlike, serve, makeDirectories, hadmits]
    exact ⟨rfl, h, .refl _ _⟩

/-- Every request that stays below a root is served alike on trees that agree there. -/
theorem serve (h : tree.Alike tree' root base) {r : FileRequest} (hwithin : r.Within root) :
    tree.ServedAlike tree' root base r := by
  cases hwithin with
  | read hbelow => exact h.serve_read hbelow
  | write hbelow => exact h.serve_write hbelow _
  | rename hsource htarget => exact h.serve_rename hsource htarget
  | remove hbelow => exact h.serve_remove hbelow
  | directory hname => exact h.serve_makeDirectories hname

end Alike

end FileTree

/-! ## Programs -/

namespace FileProgram

/-- All requests that a program makes when it is run on a tree stay below a root. -/
def Stays (root : String) : FileProgram α → FileTree → Prop
  | .done _, _ => True
  | .ask request next, tree =>
    request.Within root ∧ Stays root (next (tree.serve request).1) (tree.serve request).2

theorem stays_bind {p : FileProgram α} {f : α → FileProgram β} (h : p.Stays root tree)
    (hf : (f (p.run tree).1).Stays root (p.run tree).2) : (p >>= f).Stays root tree := by
  show (bind p f).Stays root tree
  induction p generalizing tree with
  | done a => exact hf
  | ask request next ih => exact ⟨h.1, ih _ h.2 hf⟩

/-- A program that stays below a root has the same result on trees that agree there, leaves them
    agreeing, and changes nothing outside. -/
theorem Stays.run {p : FileProgram α} (h : p.Stays root tree)
    (halike : tree.Alike tree' root base) :
    (p.run tree').1 = (p.run tree).1 ∧ (p.run tree).2.Alike (p.run tree').2 root base
      ∧ tree.Spares (p.run tree).2 base := by
  induction p generalizing tree tree' with
  | done a => exact ⟨rfl, halike, .refl _ _⟩
  | ask request next ih =>
    obtain ⟨hreply, halike', hspares⟩ := halike.serve h.1
    obtain ⟨hresult, halike'', hspares'⟩ := ih _ h.2 halike'
    simp only [FileProgram.run, hreply]
    exact ⟨hresult, halike'', hspares.trans hspares'⟩

end FileProgram

namespace FileTask

/-- All requests that a task makes when it is run on a tree stay below a root. -/
def Stays (root : String) (task : FileTask α) (tree : FileTree) : Prop :=
  FileProgram.Stays root task.outcome tree

theorem stays_ofOutcome (o : Outcome α) : (ofOutcome o).Stays root tree := trivial

theorem stays_pure (a : α) : (pure a : FileTask α).Stays root tree := trivial

theorem stays_throw (f : Failure) : (throw f : FileTask α).Stays root tree := trivial

theorem Stays.bind {task : FileTask α} {next : α → FileTask β} (h : task.Stays root tree)
    (hnext : ∀ a, (task.exec tree).1 = .ok a → (next a).Stays root (task.exec tree).2) :
    (task >>= next).Stays root tree := by
  refine FileProgram.stays_bind h ?_
  show FileProgram.Stays root (ExceptT.bindCont next (task.exec tree).1) (task.exec tree).2
  cases houtcome : (task.exec tree).1 with
  | ok a => exact hnext a houtcome
  | error f => trivial

theorem stays_request {r : FileRequest} (h : r.Within root) (read : FileReply → Outcome α) :
    (request r read).Stays root tree := ⟨h, trivial⟩

end FileTask

end PropertyGraph
