/-
  PropertyGraph.Proofs.Storage.DocumentFiles

  Documents as files below a root.  A tree hosts documents when the root path leads to a
  directory and no directory has the name of a document.  Then a document is either
  replaced as a whole, with all other documents as they were, or nothing changes; which of
  the two depends on the length of its name alone.
-/
import PropertyGraph.Proofs.Storage.FileTask
import PropertyGraph.Proofs.Storage.FileTree
import PropertyGraph.Proofs.Storage.Naming

namespace PropertyGraph

open Naming (jsonPath PlainStem Touches)

namespace FileTree

/-! ## Hosting documents -/

/-- The root path leads to a directory, and no document of it, nor a file beside one, is a
    directory itself. -/
structure Hosts (tree : FileTree) (root : String) (base : Place) : Prop where
  rooted : tree.Rooted root base
  free : ∀ stem name, Touches stem name → tree.occupant (base ++ [name]) ≠ some .directory

/-- Whether the document of a stem can be written below a root. -/
def Writable (root stem : String) : Prop := Fits root (stem ++ ".json.tmp")

theorem admits_append_left {s t : String} (h : admits (s ++ t) = true) : admits s = true := by
  simp only [admits, Bool.and_eq_true, decide_eq_true_eq, Bool.not_eq_true',
    List.contains_eq_mem, decide_eq_false_iff_not, String.utf8ByteSize_append,
    String.toList_append, List.mem_append, not_or] at h ⊢
  exact ⟨by omega, h.2.1⟩

/-- Where the file beside a document fits, the document fits. -/
theorem Writable.fits {root stem : String} (h : Writable root stem) (hstem : PlainStem stem) :
    Fits root (stem ++ ".json") := by
  obtain ⟨hadmits, hshort⟩ := h
  have haside : stem ++ ".json.tmp" = (stem ++ ".json") ++ ".tmp" := by
    rw [String.append_assoc]
    rfl
  constructor
  · rw [FilePath.join_plain hstem.aside, haside, ← String.append_assoc] at hadmits
    rw [FilePath.join_plain hstem.json]
    exact admits_append_left hadmits
  · rw [haside, String.utf8ByteSize_append] at hshort
    omega

/-- The length of a stem decides whether its document can be written. -/
theorem Writable.of_shorter {root stem stem' : String} (h : Writable root stem)
    (hstem : PlainStem stem) (hstem' : PlainStem stem')
    (hsize : stem'.utf8ByteSize ≤ stem.utf8ByteSize) (hnull : '\x00' ∉ stem'.toList) :
    Writable root stem' := by
  obtain ⟨hadmits, hshort⟩ := h
  constructor
  · rw [FilePath.join_plain hstem.aside] at hadmits
    rw [FilePath.join_plain hstem'.aside]
    simp only [admits, Bool.and_eq_true, decide_eq_true_eq, Bool.not_eq_true',
      List.contains_eq_mem, decide_eq_false_iff_not, String.utf8ByteSize_append,
      String.toList_append, List.mem_append, not_or] at hadmits ⊢
    exact ⟨by omega, hadmits.2.1, hnull, hadmits.2.2.2⟩
  · rw [String.utf8ByteSize_append] at hshort ⊢
    omega

theorem Hosts.of_changesOnly {tree tree' : FileTree} {root : String} {base : Place}
    {touched : String → Prop} (h : tree.Hosts root base) (hchange : tree.ChangesOnly tree' touched)
    (hnames : ∀ stem name, Touches stem name → ¬ touched name) : tree'.Hosts root base where
  rooted := h.rooted.changesOnly hchange
  free stem name htouches := by
    rw [hchange.occupant_below (hnames stem name htouches)]
    exact h.free stem name htouches

/-! ## Reading -/

/-- A document that can be written is read from its place; without one it is missing. -/
theorem Hosts.read_json {tree : FileTree} {root stem : String} {base : Place}
    (h : tree.Hosts root base) (hstem : PlainStem stem) (hwritable : Writable root stem) :
    tree.read (jsonPath root stem)
      = match tree.occupant (base ++ [stem ++ ".json"]) with
        | some (.file text) => .ok text
        | _ => .error .missing := by
  rw [FileTree.read, jsonPath, h.rooted.resolve_join hstem.json (hwritable.fits hstem)]
  have hfree := h.free stem _ (.inl rfl)
  cases hentry : tree.occupant (base ++ [stem ++ ".json"]) with
  | none => simp [hentry]
  | some entry =>
    cases entry with
    | directory => exact absurd hentry hfree
    | file text => simp [hentry]

/-- A document whose file a change does not touch is read as before. -/
theorem Rooted.read_json_congr {tree tree' : FileTree} {root stem : String} {base : Place}
    {touched : String → Prop} (h : tree.Rooted root base) (hstem : PlainStem stem)
    (hchange : tree.ChangesOnly tree' touched) (hname : ¬ touched (stem ++ ".json")) :
    tree'.read (jsonPath root stem) = tree.read (jsonPath root stem) := by
  have h' := h.changesOnly hchange
  rw [FileTree.read, FileTree.read, jsonPath]
  by_cases hfits : Fits root (stem ++ ".json")
  · rw [h.resolve_join hstem.json hfits, h'.resolve_join hstem.json hfits]
    simp only [hchange.occupant_below hname]
  · rw [h.resolve_join_refused hstem.json hfits, h'.resolve_join_refused hstem.json hfits]

/-! ## Writing -/

/-- The tree after a file was written beside its place and moved there. -/
def replaced (tree : FileTree) (aside place : Place) (text : String) : FileTree :=
  ((tree.put aside (.file text)).drop aside).put place (.file text)

theorem json_place_ne_aside (base : Place) (stem : String) :
    base ++ [stem ++ ".json"] ≠ base ++ [stem ++ ".json.tmp"] := by
  intro he
  simp at he

theorem changesOnly_replaced (tree : FileTree) {base : Place} {stem text : String}
    (haside : tree.occupant (base ++ [stem ++ ".json.tmp"]) ≠ some .directory)
    (hplace : tree.occupant (base ++ [stem ++ ".json"]) ≠ some .directory) :
    tree.ChangesOnly
      (tree.replaced (base ++ [stem ++ ".json.tmp"]) (base ++ [stem ++ ".json"]) text)
      (Touches stem) := by
  have hne := json_place_ne_aside base stem
  have hlast : ∀ name : String, (base ++ [name]).getLast? = some name := by simp
  have hput := changesOnly_put_file tree text (hlast (stem ++ ".json.tmp")) haside
  have hdrop := changesOnly_drop (tree.put (base ++ [stem ++ ".json.tmp"]) (.file text))
    (hlast (stem ++ ".json.tmp")) (by rw [occupant_put_self _ _ (by simp)]; simp)
  have hfree : ((tree.put (base ++ [stem ++ ".json.tmp"]) (.file text)).drop
      (base ++ [stem ++ ".json.tmp"])).occupant (base ++ [stem ++ ".json"]) ≠ some .directory := by
    rw [occupant_drop_of_ne _ hne, occupant_put_of_ne _ _ hne]
    exact hplace
  have hmove := changesOnly_put_file _ text (hlast (stem ++ ".json")) hfree
  exact ((hput.mono fun _ => .inr).trans (hdrop.mono fun _ => .inr)).trans
    (hmove.mono fun _ => .inl)

theorem occupant_replaced_self (tree : FileTree) (aside : Place) {place : Place} (text : String)
    (h : place ≠ []) : (tree.replaced aside place text).occupant place = some (.file text) :=
  occupant_put_self _ _ h

/-- Replacing a document makes no directory. -/
theorem directory_of_replaced {tree : FileTree} {aside place other : Place} {text : String}
    (haside : aside ≠ []) (hplace : place ≠ [])
    (h : (tree.replaced aside place text).occupant other = some .directory) :
    tree.occupant other = some .directory := by
  by_cases hp : other = place
  · subst hp
    rw [occupant_replaced_self _ _ _ hplace] at h
    cases h
  · rw [replaced, occupant_put_of_ne _ _ hp] at h
    by_cases ha : other = aside
    · subst ha
      rw [occupant_drop_self _ haside] at h
      cases h
    · rwa [occupant_drop_of_ne _ ha, occupant_put_of_ne _ _ ha] at h

/-- What a document's replacement does to the tree: the document has the new text, and only
    its own files are touched. -/
structure Replaces (tree tree' : FileTree) (root : String) (base : Place) (stem text : String) :
    Prop where
  hosts : tree'.Hosts root base
  here : tree'.read (jsonPath root stem) = .ok text
  change : tree.ChangesOnly tree' (Touches stem)

/-- All other documents are read as before. -/
theorem Replaces.elsewhere {tree tree' : FileTree} {root stem stem' text : String} {base : Place}
    (h : tree.Replaces tree' root base stem text) (hrooted : tree.Rooted root base)
    (hstem : PlainStem stem') (hne : stem' ≠ stem) :
    tree'.read (jsonPath root stem') = tree.read (jsonPath root stem') :=
  hrooted.read_json_congr hstem h.change (Naming.not_touches_json hne)

end FileTree

namespace FileTask

open FileTree (Hosts Writable Replaces Fits)

variable {tree : FileTree} {root stem : String} {base : Place}

/-- A document whose files fit is replaced. -/
theorem exec_replace (h : tree.Hosts root base) (hstem : PlainStem stem)
    (hwritable : Writable root stem) (text : String) :
    ∃ tree', (replace (jsonPath root stem) text).exec tree = (.ok (), tree')
      ∧ tree.Replaces tree' root base stem text := by
  have haside : FilePath.withExtension (jsonPath root stem) "json.tmp"
      = FilePath.join root (stem ++ ".json.tmp") :=
    FilePath.withExtension_join_json hstem.no_slash hstem.ne_empty hstem.ne_point
  have hfreeAside := h.free stem _ (.inr rfl)
  have hfreePlace := h.free stem _ (.inl rfl)
  have hput : (tree.put (base ++ [stem ++ ".json.tmp"]) (.file text)).Rooted root base :=
    h.rooted.changesOnly (FileTree.changesOnly_put_file tree text
      (show _ = some (stem ++ ".json.tmp") by simp) hfreeAside)
  have hwrite : tree.write? (FilePath.join root (stem ++ ".json.tmp")) text
      = some (tree.put (base ++ [stem ++ ".json.tmp"]) (.file text)) := by
    rw [FileTree.write?, h.rooted.resolve_join hstem.aside hwritable]
    simp [hfreeAside]
  have hne := FileTree.json_place_ne_aside base stem
  have hrename : (tree.put (base ++ [stem ++ ".json.tmp"]) (.file text)).rename?
      (FilePath.join root (stem ++ ".json.tmp")) (jsonPath root stem)
      = some (tree.replaced (base ++ [stem ++ ".json.tmp"]) (base ++ [stem ++ ".json"]) text) := by
    rw [FileTree.rename?, hput.resolve_join hstem.aside hwritable, jsonPath,
      hput.resolve_join hstem.json (hwritable.fits hstem)]
    simp only [FileTree.occupant_put_self _ _ (show base ++ [stem ++ ".json.tmp"] ≠ [] by simp),
      FileTree.occupant_put_of_ne _ _ hne]
    -- what stood at the place before is gone, be it a file or nothing
    cases hentry : tree.occupant (base ++ [stem ++ ".json"]) with
    | none => rfl
    | some entry =>
      cases entry with
      | directory => exact absurd hentry hfreePlace
      | file old => rfl
  have hchange : tree.ChangesOnly (tree.replaced (base ++ [stem ++ ".json.tmp"])
      (base ++ [stem ++ ".json"]) text) (Touches stem) :=
    tree.changesOnly_replaced hfreeAside hfreePlace
  have hhosts : (tree.replaced (base ++ [stem ++ ".json.tmp"]) (base ++ [stem ++ ".json"])
      text).Hosts root base := by
    refine ⟨h.rooted.changesOnly hchange, fun stem' name htouches hdirectory => ?_⟩
    exact h.free stem' name htouches
      (FileTree.directory_of_replaced (by simp) (by simp) hdirectory)
  refine ⟨_, ?_, hhosts, ?_, hchange⟩
  · have hdone : (write (FilePath.join root (stem ++ ".json.tmp")) text).exec tree
        = (.ok (), tree.put (base ++ [stem ++ ".json.tmp"]) (.file text)) := by
      rw [exec_write, hwrite]
    rw [replace, haside, exec_bind_of_ok hdone, exec_rename, hrename]
  · rw [hhosts.read_json hstem hwritable, FileTree.occupant_replaced_self _ _ _ (by simp)]

/-- A document whose files do not fit is refused, and nothing changes. -/
theorem exec_replace_refused (h : tree.Hosts root base) (hstem : PlainStem stem)
    (hwritable : ¬ Writable root stem) (text : String) :
    (replace (jsonPath root stem) text).exec tree = (.error .io, tree) := by
  have haside : FilePath.withExtension (jsonPath root stem) "json.tmp"
      = FilePath.join root (stem ++ ".json.tmp") :=
    FilePath.withExtension_join_json hstem.no_slash hstem.ne_empty hstem.ne_point
  have hwrite : tree.write? (FilePath.join root (stem ++ ".json.tmp")) text = none := by
    rw [FileTree.write?, h.rooted.resolve_join_refused hstem.aside hwritable]
  rw [replace, haside]
  refine exec_bind_of_error ?_
  rw [exec_write, hwrite]

end FileTask

end PropertyGraph
