/-
  PropertyGraph.Proofs.Storage.RawText

  Raw texts and the files they stand in.  Moving texts of a node out touches the file of the
  node's identity and the directory of raw texts, nothing else; afterwards the bag names no
  file, or it names that one and the file is there.  Giving texts back reads that file only,
  and removing it leaves the place free for the next text.
-/
import PropertyGraph.Proofs.Json.Nesting
import PropertyGraph.Proofs.Storage.Shelf
import PropertyGraph.Storage.RawText

namespace PropertyGraph

open FileTree (Hosts ChangesOnly)
open Naming (rawName rawPath rawDirectory rawLast RawTouches)

/-! ## Files of raw texts -/

namespace FileTree

variable {tree tree' : FileTree} {root id text : String} {base : Place} {touched : String → Prop}

/-- The path of a raw text leads to a place with the name of that raw text. -/
theorem getLast?_of_resolve_raw {place : Place}
    (h : tree.resolve (rawPath root (rawName id)) = .ok place) :
    place.getLast? = some (rawLast id) := by
  rw [resolve] at h
  split at h
  · cases h
  · split at h
    · cases h
    · obtain ⟨before, hnames⟩ := FilePath.names_join_last (rawDirectory root) (rawName id)
      rw [rawPath, hnames, Naming.ofList_lastPart_rawName] at h
      exact getLast?_of_locate (Naming.plainName_rawLast id) h

theorem HasDirectory.of_changesOnly {name : String} (h : tree.HasDirectory root base name)
    (hchange : tree.ChangesOnly tree' touched) : tree'.HasDirectory root base name where
  admits := h.admits
  there := hchange.directories _ h.there
  short := h.short

/-- The raw text of an identity stands in its file. -/
structure HasRaw (tree : FileTree) (root : String) (base : Place) (id text : String) : Prop where
  directory : tree.HasDirectory root base "raw"
  read : tree.read (rawPath root (rawName id)) = .ok text

/-- A raw text of an identity can be written. -/
structure TakesRaw (tree : FileTree) (root : String) (base : Place) (id : String) : Prop where
  directory : tree.HasDirectory root base "raw"
  place : ∃ place, tree.resolve (rawPath root (rawName id)) = .ok place
    ∧ tree.occupant place ≠ some .directory

/-- A file that is read stands at the place of its path. -/
theorem resolve_of_read {path : String} (h : tree.read path = .ok text) :
    ∃ place, tree.resolve path = .ok place ∧ tree.occupant place = some (.file text) := by
  rw [FileTree.read] at h
  cases hresolve : tree.resolve path with
  | error trouble => rw [hresolve] at h; cases h
  | ok place =>
    rw [hresolve] at h
    simp only at h
    cases hentry : tree.occupant place with
    | none => rw [hentry] at h; cases h
    | some entry =>
      rw [hentry] at h
      cases entry with
      | directory => cases h
      | file t =>
        obtain rfl := Except.ok.inj h
        exact ⟨place, rfl, hentry⟩

theorem HasRaw.takes (h : tree.HasRaw root base id text) : tree.TakesRaw root base id := by
  obtain ⟨place, hresolve, hentry⟩ := resolve_of_read h.read
  exact ⟨h.directory, place, hresolve, by rw [hentry]; simp⟩

/-- A raw text stays where it is under changes that do not touch its name. -/
theorem HasRaw.of_changesOnly (h : tree.HasRaw root base id text)
    (hchange : tree.ChangesOnly tree' touched) (hname : ¬ touched (rawLast id)) :
    tree'.HasRaw root base id text where
  directory := h.directory.of_changesOnly hchange
  read := by
    refine hchange.read h.read fun place name hresolve hlast => ?_
    obtain rfl : rawLast id = name :=
      Option.some.inj ((getLast?_of_resolve_raw hresolve).symm.trans hlast)
    exact hname

end FileTree

/-! ## Entities with another bag -/

/-- An entity that differs from another one at most in its bag, which is still proper and not
    nested deeper. -/
structure Entity.Rebagged {c : EntityClass} (p : Number → Prop) (e e' : Entity c) : Prop where
  id : e'.id = e.id
  type : e'.type = e.type
  ends : e'.ends = e.ends
  time : e'.updateTime = e.updateTime
  bag : (Json.object e.properties).Proper p → (Json.object e'.properties).Proper p
  nesting : (Json.object e'.properties).nesting ≤ (Json.object e.properties).nesting

namespace Entity.Rebagged

variable {c : EntityClass} {p : Number → Prop} {e e' e'' : Entity c}

theorem refl (e : Entity c) : Rebagged p e e := ⟨rfl, rfl, rfl, rfl, fun h => h, Nat.le_refl _⟩

theorem trans (h : Rebagged p e e') (h' : Rebagged p e' e'') : Rebagged p e e'' :=
  ⟨h'.id.trans h.id, h'.type.trans h.type, h'.ends.trans h.ends, h'.time.trans h.time,
    fun hp => h'.bag (h.bag hp), Nat.le_trans h'.nesting h.nesting⟩

theorem proper (h : Rebagged p e e') (he : e.Proper p) : e'.Proper p where
  id := h.id ▸ he.id
  properties := h.bag he.properties
  ends := h.ends ▸ he.ends
  time := h.time ▸ he.time

end Entity.Rebagged

namespace RawText

variable {tree tree' : FileTree} {root id : String} {base : Place} {p : Number → Prop}

/-! ## Bags with an entry under another key -/

/-- What becomes of an entry when a key is replaced by another one. -/
def renamed (source target : String) (value : Json) (e : String × Json) : String × Json :=
  if e.1 = source then (target, value) else e

theorem renameEntry_eq (source target : String) (value : Json) (bag : Bag) :
    renameEntry source target value bag
      = Entries.collapse (bag.map (renamed source target value)) := rfl

theorem renamed_of_eq {source target : String} {value : Json} {e : String × Json}
    (h : e.1 = source) : renamed source target value e = (target, value) := if_pos h

theorem renamed_of_ne {source target : String} {value : Json} {e : String × Json}
    (h : e.1 ≠ source) : renamed source target value e = e := if_neg h

theorem proper_renameEntry {source target : String} {value : Json} {bag : Bag}
    (h : (Json.object bag).Proper p) (hvalue : value.Proper p) :
    (Json.object (renameEntry source target value bag)).Proper p := by
  rw [renameEntry_eq]
  refine Json.proper_collapse (Json.properEntries_iff.2 fun e he => ?_)
  obtain ⟨entry, hentry, rfl⟩ := List.mem_map.1 he
  by_cases hk : entry.1 = source
  · rw [renamed_of_eq hk]
    exact hvalue
  · rw [renamed_of_ne hk]
    exact Json.properEntries_iff.1 h.2 entry hentry

/-- A text in place of a value nests no deeper. -/
theorem nesting_renameEntry_le (source target text : String) (bag : Bag) :
    (Json.object (renameEntry source target (.string text) bag)).nesting
      ≤ (Json.object bag).nesting := by
  rw [Json.nesting, Json.nesting, Nat.add_le_add_iff_right, Json.nestingEntries_le_iff,
    renameEntry_eq]
  intro e he
  obtain ⟨entry, hentry, rfl⟩ := List.mem_map.1 (Entries.mem_of_mem_collapse he)
  by_cases hk : entry.1 = source
  · simp [renamed_of_eq hk, Json.nesting]
  · rw [renamed_of_ne hk]
    exact Json.nestingEntries_le_iff.1 (Nat.le_refl _) entry hentry

/-- The new key gives the new value, unless it stood elsewhere with another one. -/
theorem get?_renameEntry_target {source target : String} {value old : Json} {bag : Bag}
    (hsource : Entries.get? source bag = some old)
    (h : ∀ e ∈ bag, e.1 = target → e.1 = source ∨ e.2 = value) :
    Entries.get? target (renameEntry source target value bag) = some value := by
  have hmapped : ∀ e ∈ bag.map (renamed source target value), e.1 = target → e.2 = value := by
    intro e he hkey
    obtain ⟨entry, hentry, rfl⟩ := List.mem_map.1 he
    by_cases hk : entry.1 = source
    · rw [renamed_of_eq hk]
    · rw [renamed_of_ne hk] at hkey ⊢
      exact (h entry hentry hkey).resolve_left hk
  have hmem : target ∈ Entries.keys (bag.map (renamed source target value)) :=
    List.mem_map.2 ⟨(target, value),
      List.mem_map.2 ⟨(source, old), Entries.mem_of_get? hsource, renamed_of_eq rfl⟩, rfl⟩
  rw [renameEntry_eq, Entries.get?_collapse hmapped, if_pos hmem]

/-- The old key is gone. -/
theorem get?_renameEntry_source {source target : String} {value : Json} {bag : Bag}
    (hne : target ≠ source) : Entries.get? source (renameEntry source target value bag) = none := by
  have hkeys : ∀ e ∈ bag.map (renamed source target value), e.1 ≠ source := by
    intro e he
    obtain ⟨entry, hentry, rfl⟩ := List.mem_map.1 he
    by_cases hk : entry.1 = source
    · rw [renamed_of_eq hk]
      exact hne
    · rw [renamed_of_ne hk]
      exact hk
  have hvalue : ∀ e ∈ bag.map (renamed source target value), e.1 = source → e.2 = value :=
    fun e he hkey => absurd hkey (hkeys e he)
  rw [renameEntry_eq, Entries.get?_collapse hvalue]
  refine if_neg fun hmem => ?_
  obtain ⟨e, he, hkey⟩ := List.mem_map.1 hmem
  exact hkeys e he hkey

/-- A bag is as before when an entry has been given another key, which it did not have, and then
    its own key and value again. -/
theorem renameEntry_renameEntry {source target : String} {old value : Json} {bag : Bag}
    (hnodup : (Entries.keys bag).Nodup) (hsource : Entries.get? source bag = some old)
    (htarget : Entries.get? target bag = none) :
    renameEntry target source old (renameEntry source target value bag) = bag := by
  have hother : ∀ e ∈ bag, e.1 ≠ target := fun e he hkey =>
    Entries.get?_eq_none_iff.1 htarget (List.mem_map.2 ⟨e, he, hkey⟩)
  -- under the new key the keys are as distinct as they were
  have hrenamed : (Entries.keys (bag.map (renamed source target value))).Nodup := by
    rw [Entries.keys, List.map_map]
    refine List.pairwise_map.2 ((List.pairwise_map.1 hnodup).imp_of_mem ?_)
    intro x y hx hy hne heq
    by_cases hxs : x.1 = source <;> by_cases hys : y.1 = source
    · exact hne (hxs.trans hys.symm)
    · exact hother y hy (by simpa [renamed, hxs, hys] using heq.symm)
    · exact hother x hx (by simpa [renamed, hxs, hys] using heq)
    · exact hne (by simpa [renamed, hxs, hys] using heq)
  have hback : (bag.map (renamed source target value)).map (renamed target source old) = bag := by
    rw [List.map_map]
    refine (List.map_congr_left fun e he => ?_).trans (List.map_id bag)
    by_cases hk : e.1 = source
    · obtain ⟨k, v⟩ := e
      obtain rfl : k = source := hk
      obtain rfl : v = old :=
        Option.some.inj ((Entries.get?_of_mem hnodup he).symm.trans hsource)
      simp [renamed]
    · simp [renamed, hk, hother e he]
  rw [renameEntry_eq, renameEntry_eq, Entries.collapse_of_nodup hrenamed, hback,
    Entries.collapse_of_nodup hnodup]

theorem rebagged_renameEntry (node : Node) (source target text : String) :
    Entity.Rebagged p node
      (withBag node (renameEntry source target (.string text) node.properties)) :=
  ⟨rfl, rfl, rfl, rfl, fun h => proper_renameEntry h trivial, nesting_renameEntry_le ..⟩

/-! ## Giving texts back -/

/-- The node that the rules give for a raw text: the first rule puts it back, and nothing is
    left for the others. -/
def merged (rules : List RawText) (node : Node) (text : String) : Node :=
  match rules with
  | [] => node
  | rule :: _ => withBag node (renameEntry fileKey rule.property (.string text) node.properties)

/-- Giving a text back changes no file. -/
theorem exec_merge_unchanged (rule : RawText) (root : String) (node : Node) (tree : FileTree) :
    ∃ outcome, (rule.merge root node).exec tree = (outcome, tree) := by
  rw [merge]
  split
  · rw [FileTask.exec_bind, FileTask.exec_read]
    rcases tree.read _ with trouble | text
    · cases trouble <;> exact ⟨_, rfl⟩
    · exact ⟨_, rfl⟩
  · exact ⟨_, rfl⟩

theorem exec_mergeAll_unchanged (rules : List RawText) (root : String) (node : Node)
    (tree : FileTree) :
    ∃ outcome, (rules.foldlM (fun e rule => merge rule root e) node : FileTask Node).exec tree
      = (outcome, tree) := by
  induction rules generalizing node with
  | nil => exact ⟨_, rfl⟩
  | cons rule rest ih =>
    obtain ⟨outcome, hmerge⟩ := exec_merge_unchanged rule root node tree
    rw [List.foldlM_cons]
    cases outcome with
    | error f => exact ⟨_, FileTask.exec_bind_of_error hmerge⟩
    | ok e =>
      rw [FileTask.exec_bind_of_ok hmerge]
      exact ih e

theorem exec_merge_none (rule : RawText) {node : Node}
    (h : Entries.get? fileKey node.properties = none) (tree : FileTree) :
    (rule.merge root node).exec tree = (.ok node, tree) := by
  rw [merge, h]
  rfl

/-- A node whose bag names no file is given as it is. -/
theorem exec_mergeAll_none (rules : List RawText) {node : Node}
    (h : Entries.get? fileKey node.properties = none) (tree : FileTree) :
    (rules.foldlM (fun e rule => merge rule root e) node : FileTask Node).exec tree
      = (.ok node, tree) := by
  induction rules with
  | nil => rfl
  | cons rule rest ih =>
    rw [List.foldlM_cons, FileTask.exec_bind_of_ok (exec_merge_none rule h tree)]
    exact ih

/-- A node whose bag names a file is given with the text in that file. -/
theorem exec_mergeAll {rules : List RawText} {node : Node} {file text : String}
    (hproperty : ∀ rule ∈ rules, rule.property ≠ fileKey)
    (hfile : Entries.get? fileKey node.properties = some (.string file))
    (hread : tree.read (rawPath root file) = .ok text) :
    (rules.foldlM (fun e rule => merge rule root e) node : FileTask Node).exec tree
      = (.ok (merged rules node text), tree) := by
  cases rules with
  | nil => rfl
  | cons rule rest =>
    have hmerge : (rule.merge root node).exec tree
        = (.ok (merged (rule :: rest) node text), tree) := by
      rw [merge, hfile]
      simp only
      rw [FileTask.exec_bind, FileTask.exec_read, hread]
      rfl
    rw [List.foldlM_cons, FileTask.exec_bind_of_ok hmerge]
    exact exec_mergeAll_none rest
      (get?_renameEntry_source (hproperty rule (List.mem_cons_self ..))) tree

/-! ## Moving texts out -/

theorem rebagged_merged (rules : List RawText) (node : Node) (text : String) :
    Entity.Rebagged p node (merged rules node text) := by
  cases rules with
  | nil => exact .refl node
  | cons rule rest => exact rebagged_renameEntry node _ _ _

/-- A node as stored names no file, or it names the file of its identity, which is there. -/
def Keeps (tree : FileTree) (root : String) (base : Place) (id : String) (node : Node) : Prop :=
  Entries.get? fileKey node.properties = none
    ∨ Entries.get? fileKey node.properties = some (.string (rawName id))
      ∧ ∃ text, tree.HasRaw root base id text

/-- The results of making the directory of raw texts. -/
theorem exec_makeRaw (h : tree.Hosts root base) :
    ∃ outcome tree', (FileTask.makeDirectories (rawDirectory root)).exec tree = (outcome, tree')
      ∧ (∀ f, outcome = .error f → f.OfFiles)
      ∧ tree.ChangesOnly tree' (· = "raw")
      ∧ (outcome = .ok () → tree'.HasDirectory root base "raw")
      ∧ (tree.HasDirectory root base "raw" → outcome = .ok () ∧ tree' = tree) := by
  obtain ⟨hchange, hthere⟩ := h.rooted.makeDirectories FilePath.plainName_raw
  have hknown : tree.HasDirectory root base "raw" →
      tree.makeDirectories (rawDirectory root) = (true, tree) := fun hdirectory =>
    hdirectory.makeDirectories h.rooted FilePath.plainName_raw
  rw [FileTask.exec_makeDirectories]
  have hdirectory : rawDirectory root = FilePath.join root "raw" := rfl
  rw [← hdirectory] at hchange hthere
  rcases hmake : tree.makeDirectories (rawDirectory root) with ⟨made, tree'⟩
  rw [hmake] at hchange hthere
  cases made with
  | true =>
    refine ⟨_, _, rfl, nofun, hchange, fun _ => hthere rfl, fun hd => ⟨rfl, ?_⟩⟩
    exact (Prod.mk.inj (hmake.symm.trans (hknown hd))).2
  | false =>
    refine ⟨_, _, rfl, fun f hf => ?_, hchange, nofun, fun hd => ?_⟩
    · obtain rfl := Except.error.inj hf
      trivial
    · exact absurd (Prod.mk.inj (hmake.symm.trans (hknown hd))).1 (by decide)

/-- Writing the text of an identity below the directory of raw texts succeeds, or its place is
    taken. -/
theorem exec_writeRaw (hdirectory : tree.HasDirectory root base "raw") (id text : String) :
    (∃ tree', (FileTask.write (rawPath root (rawName id)) text).exec tree = (.ok (), tree')
        ∧ tree.ChangesOnly tree' (· = rawLast id) ∧ tree'.HasRaw root base id text)
      ∨ (FileTask.write (rawPath root (rawName id)) text).exec tree = (.error .io, tree)
        ∧ ¬ tree.TakesRaw root base id := by
  rw [FileTask.exec_write, FileTree.write?]
  cases hresolve : tree.resolve (rawPath root (rawName id)) with
  | error trouble =>
    refine .inr ⟨rfl, ?_⟩
    rintro ⟨-, place, hplace, -⟩
    rw [hresolve] at hplace
    cases hplace
  | ok place =>
    by_cases hentry : tree.occupant place = some .directory
    · refine .inr ⟨by simp only [hentry, if_true], ?_⟩
      rintro ⟨-, place', hplace, hfree⟩
      obtain rfl := Except.ok.inj (hresolve.symm.trans hplace)
      exact hfree hentry
    · have hlast := FileTree.getLast?_of_resolve_raw hresolve
      have hput := tree.changesOnly_put_file text hlast hentry
      refine .inl ⟨tree.put place (.file text), by simp only [hentry, if_false], hput,
        hdirectory.of_changesOnly hput, ?_⟩
      rw [FileTree.read, hput.resolve hresolve]
      simp only [FileTree.occupant_put_self _ _ (FileTree.ne_nil_of_getLast? hlast)]

/-- A node whose text has been moved to the file of an identity. -/
def movedOut (rule : RawText) (id : String) (node : Node) : Node :=
  withBag node (renameEntry rule.property fileKey (.string (rawName id)) node.properties)

/-- The results of moving the text of one rule out. -/
inductive Splits (tree : FileTree) (root : String) (base : Place) (id : String) (rule : RawText)
    (node : Node) : Outcome Node → FileTree → Prop where
  /-- there is no text to move -/
  | kept : Splits tree root base id rule node (.ok node) tree
  | refused (f : Failure) (tree' : FileTree) : f.OfFiles →
    tree.ChangesOnly tree' (RawTouches id) → ¬ tree.TakesRaw root base id →
    Splits tree root base id rule node (.error f) tree'
  | moved (tree' : FileTree) (text : String) :
    Entries.get? rule.property node.properties = some (.string text) →
    tree.ChangesOnly tree' (RawTouches id) → tree'.HasRaw root base id text →
    Splits tree root base id rule node (.ok (rule.movedOut id node)) tree'

theorem exec_split (h : tree.Hosts root base) (rule : RawText) {node : Node}
    (hid : node.id.requireText = .ok id) :
    ∃ outcome tree', (rule.split root node).exec tree = (outcome, tree')
      ∧ Splits tree root base id rule node outcome tree' := by
  rw [split]
  split
  · next text hproperty =>
    rw [FileTask.exec_bind, FileTask.exec_ofOutcome, hid]
    simp only
    obtain ⟨made, tree', hmake, hfails, hchange, hthere, hknown⟩ := exec_makeRaw h
    have hmade : tree.ChangesOnly tree' (RawTouches id) := hchange.mono fun _ => .inl
    cases made with
    | error f =>
      refine ⟨_, _, FileTask.exec_bind_of_error hmake,
        .refused f tree' (hfails f rfl) hmade fun htakes => ?_⟩
      cases (hknown htakes.directory).1
    | ok u =>
      rw [FileTask.exec_bind_of_ok hmake]
      rcases exec_writeRaw (hthere rfl) id text with
        ⟨tree'', hwrite, hwritten, hraw⟩ | ⟨hwrite, hnot⟩
      · rw [FileTask.exec_bind_of_ok hwrite]
        exact ⟨_, _, rfl, .moved _ text hproperty (hmade.trans (hwritten.mono fun _ => .inr)) hraw⟩
      · refine ⟨_, _, FileTask.exec_bind_of_error hwrite,
          .refused _ tree' trivial hmade fun htakes => ?_⟩
        -- a directory that was there already leaves the tree as it is
        obtain rfl := (hknown htakes.directory).2
        exact hnot htakes
  · exact ⟨_, _, rfl, .kept⟩

/-- A node whose text has been moved out is seen as it was, if its bag named no file. -/
theorem exec_merge_of_split (h : tree.Hosts root base) {rule : RawText} {node s : Node}
    (hid : node.id.requireText = .ok id) (hproper : (Json.object node.properties).Proper p)
    (hfile : Entries.get? fileKey node.properties = none)
    (hsplit : (rule.split root node).exec tree = (.ok s, tree')) :
    (rule.merge root s).exec tree' = (.ok node, tree') := by
  obtain ⟨outcome, tree'', hexec, hresult⟩ := exec_split h rule hid
  rw [hsplit] at hexec
  obtain ⟨rfl, rfl⟩ := Prod.mk.inj hexec
  cases hresult with
  | kept => exact exec_merge_none rule hfile _
  | moved _ text hproperty hchange hraw =>
    have hnames : Entries.get? fileKey (rule.movedOut id node).properties
        = some (.string (rawName id)) := by
      refine get?_renameEntry_target hproperty fun e he hkey => ?_
      exact absurd (List.mem_map.2 ⟨e, he, hkey⟩) (Entries.get?_eq_none_iff.1 hfile)
    rw [merge, hnames]
    simp only
    rw [FileTask.exec_bind, FileTask.exec_read, hraw.read]
    have hback : renameEntry fileKey rule.property (.string text) (rule.movedOut id node).properties
        = node.properties := renameEntry_renameEntry hproper.1 hproperty hfile
    show (Except.ok (withBag (rule.movedOut id node) (renameEntry fileKey rule.property (.string text)
      (rule.movedOut id node).properties)), tree') = _
    rw [hback]
    rfl

/-- What moving all texts of a node out has led to. -/
structure Stores (p : Number → Prop) (tree tree' : FileTree) (root : String) (base : Place)
    (id : String) (node : Node) (outcome : Outcome Node) : Prop where
  change : tree.ChangesOnly tree' (RawTouches id)
  stored : ∀ e, outcome = .ok e → Entity.Rebagged p node e ∧ Keeps tree' root base id e
  fails : ∀ f, outcome = .error f → f.OfFiles
  takes : tree.TakesRaw root base id → ∃ e, outcome = .ok e

/-- Whatever one rule does, the bag names the file of the node's identity or none. -/
theorem keeps_of_moved {rule : RawText} {node : Node} {old : Json} {text : String}
    (hnodup : (Entries.keys node.properties).Nodup) (hkeeps : Keeps tree root base id node)
    (hold : Entries.get? rule.property node.properties = some old)
    (hraw : tree'.HasRaw root base id text) :
    Keeps tree' root base id (rule.movedOut id node) := by
  refine .inr ⟨get?_renameEntry_target hold fun e he hkey => .inr ?_, text, hraw⟩
  obtain ⟨k, v⟩ := e
  have hkey : k = fileKey := hkey
  have hget : Entries.get? fileKey node.properties = some v :=
    hkey ▸ Entries.get?_of_mem hnodup he
  rcases hkeeps with hnone | ⟨hown, -⟩
  · rw [hget] at hnone; cases hnone
  · exact Option.some.inj (hget.symm.trans hown)

theorem exec_splitAll (rules : List RawText) {node : Node} (h : tree.Hosts root base)
    (hid : node.id.requireText = .ok id) (hproper : (Json.object node.properties).Proper p)
    (hkeeps : Keeps tree root base id node) :
    ∃ outcome tree',
      (rules.foldlM (fun e rule => split rule root e) node : FileTask Node).exec tree
        = (outcome, tree')
      ∧ Stores p tree tree' root base id node outcome := by
  induction rules generalizing node tree with
  | nil =>
    refine ⟨_, _, rfl, .refl _ _, fun e he => ?_, nofun, fun _ => ⟨node, rfl⟩⟩
    obtain rfl := Except.ok.inj he
    exact ⟨Entity.Rebagged.refl _, hkeeps⟩
  | cons rule rest ih =>
    rw [List.foldlM_cons]
    obtain ⟨first, tree', hsplit, hresult⟩ := exec_split h rule hid
    cases hresult with
    | kept =>
      rw [FileTask.exec_bind_of_ok hsplit]
      exact ih h hid hproper hkeeps
    | refused f _ hfiles hchange hnot =>
      refine ⟨_, _, FileTask.exec_bind_of_error hsplit, hchange, nofun, fun f' hf => ?_,
        fun htakes => absurd htakes hnot⟩
      rwa [← Except.error.inj hf]
    -- the next rules meet a node with another bag, whose file exists by now
    | moved _ text hold hchange hraw =>
      rw [FileTask.exec_bind_of_ok hsplit]
      have hhosts := h.of_changesOnly hchange fun _ _ ht => Naming.not_rawTouches ht id
      have hmoved : Entity.Rebagged p node (rule.movedOut id node) :=
        rebagged_renameEntry node _ _ _
      have hkeeps' := keeps_of_moved hproper.1 hkeeps hold hraw
      have hid' : (rule.movedOut id node).id.requireText = .ok id := hid
      obtain ⟨outcome, tree'', hexec, hstores⟩ := ih hhosts hid' (hmoved.bag hproper) hkeeps'
      refine ⟨outcome, tree'', hexec, hchange.trans hstores.change, fun e he => ?_, hstores.fails,
        fun _ => ?_⟩
      · obtain ⟨hrebagged, hkept⟩ := hstores.stored e he
        exact ⟨hmoved.trans hrebagged, hkept⟩
      · exact hstores.takes hraw.takes

/-- Rules whose property the bag lacks move nothing. -/
theorem exec_splitAll_inert {rules : List RawText} {node : Node}
    (h : ∀ rule ∈ rules, Entries.get? rule.property node.properties = none) (tree : FileTree) :
    (rules.foldlM (fun e rule => split rule root e) node : FileTask Node).exec tree
      = (.ok node, tree) := by
  induction rules with
  | nil => rfl
  | cons rule rest ih =>
    have hsplit : (rule.split root node).exec tree = (.ok node, tree) := by
      rw [split, h rule (List.mem_cons_self ..)]
      rfl
    rw [List.foldlM_cons, FileTask.exec_bind_of_ok hsplit]
    exact ih fun other hother => h other (List.mem_cons_of_mem _ hother)

/-! ## Removing texts -/

theorem exec_discard_none {node : Node} (h : Entries.get? fileKey node.properties = none)
    (tree : FileTree) : (discard root node).exec tree = (.ok (), tree) := by
  rw [discard, h]
  rfl

/-- The file of a node is removed, or it is gone already; its place is free for a text. -/
theorem exec_discard_own {node : Node}
    (hfile : Entries.get? fileKey node.properties = some (.string (rawName id)))
    (htakes : tree.TakesRaw root base id) :
    ∃ tree', (discard root node).exec tree = (.ok (), tree')
      ∧ tree.ChangesOnly tree' (RawTouches id) ∧ tree'.TakesRaw root base id := by
  obtain ⟨place, hresolve, hentry⟩ := htakes.place
  have hlast := FileTree.getLast?_of_resolve_raw hresolve
  have hexec : (discard root node).exec tree
      = (FileTask.remove (rawPath root (rawName id))).exec tree := by
    rw [discard, hfile]
  rw [hexec, FileTask.exec_remove, FileTree.remove, hresolve]
  cases hthere : tree.occupant place with
  | none => exact ⟨tree, by simp [hthere], .refl _ _, htakes⟩
  | some entry =>
    cases entry with
    | directory => exact absurd hthere hentry
    | file text =>
      have hdrop := tree.changesOnly_drop hlast hentry
      refine ⟨tree.drop place, by simp [hthere], hdrop.mono fun _ => .inr,
        htakes.directory.of_changesOnly hdrop, place, hdrop.resolve hresolve, ?_⟩
      rw [FileTree.occupant_drop_self _ (FileTree.ne_nil_of_getLast? hlast)]
      simp

theorem exec_discardAll_none (rules : List RawText) {node : Node}
    (h : Entries.get? fileKey node.properties = none) (tree : FileTree) :
    (rules.forM fun _ => discard root node : FileTask Unit).exec tree = (.ok (), tree) := by
  induction rules with
  | nil => rfl
  | cons rule rest ih =>
    show (discard root node >>= fun _ => rest.forM fun _ => discard root node).exec tree = _
    rw [FileTask.exec_bind_of_ok (exec_discard_none h tree)]
    exact ih

theorem exec_discardAll_own (rules : List RawText) {node : Node}
    (hfile : Entries.get? fileKey node.properties = some (.string (rawName id)))
    (htakes : tree.TakesRaw root base id) :
    ∃ tree', (rules.forM fun _ => discard root node : FileTask Unit).exec tree = (.ok (), tree')
      ∧ tree.ChangesOnly tree' (RawTouches id) ∧ tree'.TakesRaw root base id := by
  induction rules generalizing tree with
  | nil => exact ⟨tree, rfl, .refl _ _, htakes⟩
  | cons rule rest ih =>
    obtain ⟨tree', hexec, hchange, htakes'⟩ := exec_discard_own hfile htakes
    obtain ⟨tree'', hexec', hchange', htakes''⟩ := ih htakes'
    refine ⟨tree'', ?_, hchange.trans hchange', htakes''⟩
    show (discard root node >>= fun _ => rest.forM fun _ => discard root node).exec tree = _
    rw [FileTask.exec_bind_of_ok hexec]
    exact hexec'

end RawText

end PropertyGraph
