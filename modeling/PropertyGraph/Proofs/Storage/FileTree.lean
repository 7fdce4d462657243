/-
  PropertyGraph.Proofs.Storage.FileTree

  What requests leave unchanged in a file tree.  A request touches places by their last
  names: directories stay, and what stands at a place with another last name is the same
  after the request.  A path that led somewhere leads there still, so that what is read from
  a file depends on no request about files of other names.
-/
import PropertyGraph.Proofs.Storage.FilePath

namespace PropertyGraph.FileTree

open FilePath (PlainName)

/-! ## Entries after a change -/

theorem lookup_filter_ne (place other : Place) (entries : List (Place × FileEntry))
    (h : other ≠ place) :
    lookup other (entries.filter fun e => e.1 ≠ place) = lookup other entries := by
  induction entries with
  | nil => rfl
  | cons entry rest ih =>
    obtain ⟨p, e⟩ := entry
    by_cases hp : p = place
    · have hother : ¬ p = other := fun he => h (he.symm.trans hp)
      rw [List.filter_cons_of_neg (by simp [hp]), ih, lookup, if_neg hother]
    · rw [List.filter_cons_of_pos (by simp [hp]), lookup, lookup, ih]

theorem lookup_filter_self (place : Place) (entries : List (Place × FileEntry)) :
    lookup place (entries.filter fun e => e.1 ≠ place) = none := by
  induction entries with
  | nil => rfl
  | cons entry rest ih =>
    obtain ⟨p, e⟩ := entry
    by_cases hp : p = place
    · rw [List.filter_cons_of_neg (by simp [hp]), ih]
    · rw [List.filter_cons_of_pos (by simp [hp]), lookup, if_neg hp, ih]

theorem occupant_drop_of_ne (tree : FileTree) {place other : Place} (h : other ≠ place) :
    (tree.drop place).occupant other = tree.occupant other := by
  rw [occupant, occupant, drop, lookup_filter_ne _ _ _ h]

theorem occupant_drop_self (tree : FileTree) {place : Place} (h : place ≠ []) :
    (tree.drop place).occupant place = none := by
  rw [occupant, if_neg h, drop, lookup_filter_self]

theorem occupant_put_of_ne (tree : FileTree) (entry : FileEntry) {place other : Place}
    (h : other ≠ place) : (tree.put place entry).occupant other = tree.occupant other := by
  have hne : ¬ place = other := fun he => h he.symm
  rw [← occupant_drop_of_ne tree h, occupant, occupant, put, lookup, if_neg hne]

theorem occupant_put_self (tree : FileTree) (entry : FileEntry) {place : Place} (h : place ≠ []) :
    (tree.put place entry).occupant place = some entry := by
  rw [occupant, if_neg h, put, lookup, if_pos rfl]

@[simp] theorem home_put (tree : FileTree) (place : Place) (entry : FileEntry) :
    (tree.put place entry).home = tree.home := rfl

@[simp] theorem home_drop (tree : FileTree) (place : Place) : (tree.drop place).home = tree.home :=
  rfl

/-! ## Following names -/

theorem locate_append (tree : FileTree) (here : Place) (first second : List String) :
    tree.locate here (first ++ second)
      = (tree.locate here first).bind fun place => tree.locate place second := by
  induction first generalizing here with
  | nil => rfl
  | cons name rest ih =>
    rw [List.cons_append, locate, locate]
    cases hentry : tree.occupant here with
    | none => rfl
    | some entry =>
      cases entry with
      | file text => rfl
      | directory =>
        simp only [ih]
        split
        · rfl
        · split
          · rfl
          · split <;> rfl

/-- A last name that stands for itself is the last name of the place. -/
theorem locate_plain {tree : FileTree} {here : Place} {name : String} (h : PlainName name)
    (hdirectory : tree.occupant here = some .directory) :
    tree.locate here [name]
      = if maxName < name.utf8ByteSize then .error .refused else .ok (here ++ [name]) := by
  rw [locate, hdirectory]
  simp only [h.ne_empty, h.ne_point, h.ne_points, or_self, if_false]
  split <;> rfl

theorem getLast?_of_locate {tree : FileTree} {here place : Place} {before : List String}
    {name : String} (h : PlainName name) (hlocate : tree.locate here (before ++ [name]) = .ok place) :
    place.getLast? = some name := by
  rw [locate_append] at hlocate
  cases hbefore : tree.locate here before with
  | error trouble => rw [hbefore] at hlocate; cases hlocate
  | ok above =>
    rw [hbefore] at hlocate
    have hlast : tree.locate above [name] = .ok place := hlocate
    cases hentry : tree.occupant above with
    | none => rw [locate, hentry] at hlast; cases hlast
    | some entry =>
      cases entry with
      | file text => rw [locate, hentry] at hlast; cases hlast
      | directory =>
        rw [locate_plain h hentry] at hlast
        split at hlast
        · cases hlast
        · obtain rfl := Except.ok.inj hlast
          simp

/-! ## What a change spares -/

/-- Between two trees only places whose last name is among some names differ, and every
    directory of the first tree is one of the second. -/
structure ChangesOnly (tree tree' : FileTree) (touched : String → Prop) : Prop where
  home : tree'.home = tree.home
  directories : ∀ place, tree.occupant place = some .directory →
    tree'.occupant place = some .directory
  others : ∀ place, (∀ name, place.getLast? = some name → ¬ touched name) →
    tree'.occupant place = tree.occupant place

namespace ChangesOnly

variable {tree tree' tree'' : FileTree} {touched touched' : String → Prop}

theorem refl (tree : FileTree) (touched : String → Prop) : tree.ChangesOnly tree touched where
  home := rfl
  directories _ h := h
  others _ _ := rfl

theorem trans (h : tree.ChangesOnly tree' touched) (h' : tree'.ChangesOnly tree'' touched) :
    tree.ChangesOnly tree'' touched where
  home := h'.home.trans h.home
  directories place hplace := h'.directories place (h.directories place hplace)
  others place hplace := (h'.others place hplace).trans (h.others place hplace)

theorem mono (h : tree.ChangesOnly tree' touched) (hsub : ∀ name, touched name → touched' name) :
    tree.ChangesOnly tree' touched' where
  home := h.home
  directories := h.directories
  others place hplace := h.others place fun name hname ht => hplace name hname (hsub name ht)

/-- A place below a directory is not touched if its name is not. -/
theorem occupant_below (h : tree.ChangesOnly tree' touched) {base : Place} {name : String}
    (hname : ¬ touched name) : tree'.occupant (base ++ [name]) = tree.occupant (base ++ [name]) := by
  refine h.others _ fun other hother => ?_
  obtain rfl : name = other := by simpa using hother
  exact hname

/-- Names that lead somewhere lead there still. -/
theorem locate (h : tree.ChangesOnly tree' touched) {here place : Place} {names : List String}
    (hlocate : tree.locate here names = .ok place) : tree'.locate here names = .ok place := by
  induction names generalizing here with
  | nil => exact hlocate
  | cons name rest ih =>
    rw [FileTree.locate] at hlocate ⊢
    cases hentry : tree.occupant here with
    | none => rw [hentry] at hlocate; cases hlocate
    | some entry =>
      cases entry with
      | file text => rw [hentry] at hlocate; cases hlocate
      | directory =>
        rw [hentry] at hlocate
        rw [h.directories here hentry]
        simp only at hlocate ⊢
        split
        · next hname => rw [if_pos hname] at hlocate; exact ih hlocate
        · next hname =>
          rw [if_neg hname] at hlocate
          split
          · next hup => rw [if_pos hup] at hlocate; exact ih hlocate
          · next hup =>
            rw [if_neg hup] at hlocate
            split
            · next hlong => rw [if_pos hlong] at hlocate; cases hlocate
            · next hlong => rw [if_neg hlong] at hlocate; exact ih hlocate

theorem origin (h : tree.ChangesOnly tree' touched) (path : String) :
    tree'.origin path = tree.origin path := by
  rw [FileTree.origin, FileTree.origin, h.home]

/-- A path that leads somewhere leads there still. -/
theorem resolve (h : tree.ChangesOnly tree' touched) {path : String} {place : Place}
    (hresolve : tree.resolve path = .ok place) : tree'.resolve path = .ok place := by
  rw [FileTree.resolve] at hresolve ⊢
  rw [h.origin]
  split
  · next hadmits => rw [if_pos hadmits] at hresolve; cases hresolve
  · next hadmits =>
    rw [if_neg hadmits] at hresolve
    split
    · next hempty => rw [if_pos hempty] at hresolve; cases hresolve
    · next hempty => rw [if_neg hempty] at hresolve; exact h.locate hresolve

/-- A file at a place that no name of the change leads to is read as before. -/
theorem read (h : tree.ChangesOnly tree' touched) {path text : String}
    (hread : tree.read path = .ok text)
    (hlast : ∀ place name, tree.resolve path = .ok place → place.getLast? = some name →
      ¬ touched name) : tree'.read path = .ok text := by
  rw [FileTree.read] at hread ⊢
  cases hresolve : tree.resolve path with
  | error trouble => rw [hresolve] at hread; cases hread
  | ok place =>
    rw [hresolve] at hread
    rw [h.resolve hresolve]
    simp only at hread ⊢
    rw [h.others place fun name hname => hlast place name hresolve hname]
    exact hread

end ChangesOnly

theorem ne_nil_of_getLast? {place : Place} {name : String} (h : place.getLast? = some name) :
    place ≠ [] := by
  rintro rfl
  cases h

/-- Putting a file where no directory stands changes that place only. -/
theorem changesOnly_put_file (tree : FileTree) {place : Place} {name : String} (text : String)
    (hlast : place.getLast? = some name) (hfree : tree.occupant place ≠ some .directory) :
    tree.ChangesOnly (tree.put place (.file text)) (· = name) where
  home := rfl
  directories other hother := by
    have hne : other ≠ place := fun he => hfree (he ▸ hother)
    rw [occupant_put_of_ne tree _ hne, hother]
  others other hother := occupant_put_of_ne tree _ fun he => hother name (he ▸ hlast) rfl

/-- Making a directory where nothing stands changes that place only. -/
theorem changesOnly_put_directory (tree : FileTree) {place : Place} {name : String}
    (hlast : place.getLast? = some name) :
    tree.ChangesOnly (tree.put place .directory) (· = name) where
  home := rfl
  directories other hother := by
    by_cases hne : other = place
    · subst hne
      exact occupant_put_self tree _ (ne_nil_of_getLast? hlast)
    · rw [occupant_put_of_ne tree _ hne, hother]
  others other hother := occupant_put_of_ne tree _ fun he => hother name (he ▸ hlast) rfl

/-- Removing a file changes its place only. -/
theorem changesOnly_drop (tree : FileTree) {place : Place} {name : String}
    (hlast : place.getLast? = some name) (hfree : tree.occupant place ≠ some .directory) :
    tree.ChangesOnly (tree.drop place) (· = name) where
  home := rfl
  directories other hother := by
    have hne : other ≠ place := fun he => hfree (he ▸ hother)
    rw [occupant_drop_of_ne tree hne, hother]
  others other hother := occupant_drop_of_ne tree fun he => hother name (he ▸ hlast) rfl

/-! ## Names below a root -/

/-- A root path leads to a directory, at the place `base`. -/
structure Rooted (tree : FileTree) (root : String) (base : Place) : Prop where
  leads : tree.locate (tree.origin root) (names root) = .ok base
  directory : tree.occupant base = some .directory

/-- Whether a name can be used below a root: neither it nor the whole path is too long. -/
def Fits (root name : String) : Prop :=
  admits (FilePath.join root name) = true ∧ name.utf8ByteSize ≤ maxName

theorem Rooted.changesOnly {tree tree' : FileTree} {root : String} {base : Place}
    {touched : String → Prop} (h : tree.Rooted root base) (hchange : tree.ChangesOnly tree' touched) :
    tree'.Rooted root base where
  leads := by rw [hchange.origin]; exact hchange.locate h.leads
  directory := hchange.directories base h.directory

/-- The names before a plain name below a root lead to the root. -/
theorem Rooted.names_join {tree : FileTree} {root : String} {base : Place}
    (h : tree.Rooted root base) {name : String} (hname : PlainName name) :
    ∃ before, names (FilePath.join root name) = before ++ [name]
      ∧ tree.locate (tree.origin (FilePath.join root name)) before = .ok base := by
  have horigin : tree.origin (FilePath.join root name) = tree.origin root := by
    rw [origin, origin, FilePath.isAbsolute_join hname]
  obtain ⟨before, hnames, hroot⟩ : ∃ before, names (FilePath.join root name) = before ++ [name]
      ∧ (names root = before ∨ names root = before ++ [""]) := FilePath.names_join hname
  refine ⟨before, hnames, ?_⟩
  rw [horigin]
  rcases hroot with hroot | hroot
  · rw [← hroot, h.leads]
  · have hleads := h.leads
    rw [hroot, locate_append] at hleads
    cases hbefore : tree.locate (tree.origin root) before with
    | error trouble => rw [hbefore] at hleads; cases hleads
    | ok above =>
      rw [hbefore] at hleads
      -- an empty name leads nowhere else, but only from a directory
      have habove : tree.locate above [""] = .ok base := hleads
      cases hentry : tree.occupant above with
      | none => rw [locate, hentry] at habove; cases habove
      | some entry =>
        cases entry with
        | file text => rw [locate, hentry] at habove; cases habove
        | directory =>
          rw [locate, hentry] at habove
          obtain rfl : above = base := by simpa [locate] using habove
          rfl

/-- A path with a plain name below a root goes on from the root. -/
theorem Rooted.locate_join {tree : FileTree} {root : String} {base : Place}
    (h : tree.Rooted root base) {name : String} (hname : PlainName name) :
    tree.locate (tree.origin (FilePath.join root name)) (names (FilePath.join root name))
      = tree.locate base [name] := by
  obtain ⟨before, hnames, hbefore⟩ := h.names_join hname
  rw [hnames, locate_append, hbefore]
  rfl

/-- The place of a plain name below a root. -/
theorem Rooted.resolve_join {tree : FileTree} {root : String} {base : Place}
    (h : tree.Rooted root base) {name : String} (hname : PlainName name) (hfits : Fits root name) :
    tree.resolve (FilePath.join root name) = .ok (base ++ [name]) := by
  rw [resolve, hfits.1, FilePath.join_ne_empty hname, h.locate_join hname,
    locate_plain hname h.directory, if_neg (Nat.not_lt.2 hfits.2)]
  rfl

/-- A name that cannot be used below a root is refused. -/
theorem Rooted.resolve_join_refused {tree : FileTree} {root : String} {base : Place}
    (h : tree.Rooted root base) {name : String} (hname : PlainName name)
    (hfits : ¬ Fits root name) : tree.resolve (FilePath.join root name) = .error .refused := by
  rw [resolve]
  by_cases hadmits : admits (FilePath.join root name) = true
  · have hlong : maxName < name.utf8ByteSize := Nat.lt_of_not_le fun hle => hfits ⟨hadmits, hle⟩
    rw [hadmits, FilePath.join_ne_empty hname, h.locate_join hname,
      locate_plain hname h.directory, if_pos hlong]
    rfl
  · simp [hadmits]

/-! ## Making directories -/

/-- Directories that are there already are passed through. -/
theorem makeAlong_of_locate {tree : FileTree} {here place : Place} {names : List String}
    (hlocate : tree.locate here names = .ok place) (hplace : tree.occupant place = some .directory)
    (rest : List String) : tree.makeAlong here (names ++ rest) = tree.makeAlong place rest := by
  induction names generalizing here with
  | nil =>
    obtain rfl := Except.ok.inj hlocate
    rfl
  | cons name more ih =>
    rw [locate] at hlocate
    cases hentry : tree.occupant here with
    | none => rw [hentry] at hlocate; cases hlocate
    | some entry =>
      cases entry with
      | file text => rw [hentry] at hlocate; cases hlocate
      | directory =>
        rw [hentry] at hlocate
        simp only at hlocate
        rw [List.cons_append, makeAlong]
        split
        · next hname => rw [if_pos hname] at hlocate; exact ih hlocate
        · next hname =>
          rw [if_neg hname] at hlocate
          split
          · next hup => rw [if_pos hup] at hlocate; exact ih hlocate
          · next hup =>
            rw [if_neg hup] at hlocate
            split
            · next hlong => rw [if_pos hlong] at hlocate; cases hlocate
            · next hlong =>
              rw [if_neg hlong] at hlocate
              -- the next step starts from this place, so it is a directory
              have hnext : tree.occupant (here ++ [name]) = some .directory := by
                cases more with
                | nil =>
                  obtain rfl := Except.ok.inj hlocate
                  exact hplace
                | cons second more =>
                  rw [locate] at hlocate
                  cases hsecond : tree.occupant (here ++ [name]) with
                  | none => rw [hsecond] at hlocate; cases hlocate
                  | some entry =>
                    cases entry with
                    | file text => rw [hsecond] at hlocate; cases hlocate
                    | directory => rfl
              rw [hnext]
              exact ih hlocate

theorem endsInPoint_of_names {path name : String} {before : List String}
    (hnames : names path = before ++ [name]) (hname : PlainName name) :
    endsInPoint path = false := by
  rw [endsInPoint, hnames, List.filter_append]
  have hfilter : List.filter (fun x => decide (x ≠ "")) [name] = [name] := by
    simp [hname.ne_empty]
  rw [hfilter, List.getLast?_append]
  simp [hname.ne_point]

/-- Whether a directory of a plain name stands below a root, under a path that is admitted. -/
structure HasDirectory (tree : FileTree) (root : String) (base : Place) (name : String) : Prop where
  admits : admits (FilePath.join root name) = true
  there : tree.occupant (base ++ [name]) = some .directory
  short : name.utf8ByteSize ≤ maxName

theorem Rooted.makeDirectories_join {tree : FileTree} {root : String} {base : Place}
    (h : tree.Rooted root base) {name : String} (hname : PlainName name)
    (hadmits : FileTree.admits (FilePath.join root name) = true) :
    tree.makeDirectories (FilePath.join root name) = tree.makeAlong base [name] := by
  obtain ⟨before, hnames, hbefore⟩ := h.names_join hname
  rw [makeDirectories, hadmits, endsInPoint_of_names hnames hname, hnames,
    makeAlong_of_locate hbefore h.directory]
  rfl

/-- A directory that is there need not be made. -/
theorem HasDirectory.makeDirectories {tree : FileTree} {root name : String} {base : Place}
    (h : tree.HasDirectory root base name) (hrooted : tree.Rooted root base)
    (hname : PlainName name) :
    tree.makeDirectories (FilePath.join root name) = (true, tree) := by
  rw [hrooted.makeDirectories_join hname h.admits, makeAlong]
  simp only [hname.ne_empty, hname.ne_point, hname.ne_points, or_self, if_false,
    if_neg (Nat.not_lt.2 h.short), h.there]
  rfl

/-- Making a directory below a root touches nothing else, and it is there if that succeeds. -/
theorem Rooted.makeDirectories {tree : FileTree} {root : String} {base : Place}
    (h : tree.Rooted root base) {name : String} (hname : PlainName name) :
    tree.ChangesOnly (tree.makeDirectories (FilePath.join root name)).2 (· = name)
      ∧ ((tree.makeDirectories (FilePath.join root name)).1 = true →
        (tree.makeDirectories (FilePath.join root name)).2.HasDirectory root base name) := by
  by_cases hadmits : FileTree.admits (FilePath.join root name) = true
  · rw [h.makeDirectories_join hname hadmits, makeAlong]
    simp only [hname.ne_empty, hname.ne_point, hname.ne_points, or_self, if_false]
    by_cases hlong : maxName < name.utf8ByteSize
    · rw [if_pos hlong]
      exact ⟨.refl _ _, fun hfalse => by cases hfalse⟩
    · rw [if_neg hlong]
      have hshort : name.utf8ByteSize ≤ maxName := Nat.not_lt.1 hlong
      cases hentry : tree.occupant (base ++ [name]) with
      | none =>
        refine ⟨tree.changesOnly_put_directory (by simp), fun _ => ⟨hadmits, ?_, hshort⟩⟩
        exact occupant_put_self _ _ (by simp)
      | some entry =>
        cases entry with
        | file text => exact ⟨.refl _ _, fun hfalse => by cases hfalse⟩
        | directory => exact ⟨.refl _ _, fun _ => ⟨hadmits, hentry, hshort⟩⟩
  · rw [FileTree.makeDirectories]
    simp only [hadmits]
    exact ⟨.refl _ _, fun hfalse => by cases hfalse⟩

end PropertyGraph.FileTree
