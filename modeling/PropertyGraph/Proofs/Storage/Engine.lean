/-
  PropertyGraph.Proofs.Storage.Engine

  What the calls to a graph below a root do.  Reading changes nothing.  Of creating, editing
  and removing all results are listed, failures included: how the shelf of the class has
  changed, that only files of the one entity have been touched besides, and how the entity
  is kept afterwards.
-/
import PropertyGraph.Proofs.Storage.Catalog
import PropertyGraph.Proofs.Storage.RawText
import PropertyGraph.Storage.Engine

namespace PropertyGraph

open FileTree (Hosts Writable ChangesOnly DocumentName)
open Naming (checkType documentStem indexStem rawName rawLast RawTouches)

variable {c : EntityClass} {g : Engine} {p : Number → Prop} {tree tree' tree'' : FileTree}
  {base : Place} {key root : String}

/-! ## What a call changes -/

/-- The names of raw texts that work on an entity touches; only nodes have raw texts. -/
def RawTouched (c : EntityClass) (key name : String) : Prop := c = .node ∧ RawTouches key name

/-- The names that a call about an entity touches. -/
def Touched (c : EntityClass) (key name : String) : Prop :=
  DocumentName name ∨ RawTouched c key name

/-- A tree after a call about an entity of a class: the documents of the class have become
    another shelf, those of the other class are as they were, and of the raw texts at most
    the one of the entity has changed. -/
structure FileTree.Becomes (tree tree' : FileTree) (root : String) (base : Place) (key : String)
    (s : Shelf c) : Prop where
  hosts : tree'.Hosts root base
  change : tree.ChangesOnly tree' (Touched c key)
  here : tree'.shelf root c = s
  other : ∀ c', c' ≠ c → tree'.shelf root c' = tree.shelf root c'

theorem not_rawTouched_of_documentName {name : String} (h : DocumentName name) :
    ¬ RawTouched c key name := by
  rintro ⟨-, hraw⟩
  obtain ⟨stem, htouches⟩ := h
  exact Naming.not_rawTouches htouches key hraw

/-- No document has the name of a raw text. -/
theorem not_documentName_rawLast (key : String) : ¬ DocumentName (rawLast key) :=
  fun hname => not_rawTouched_of_documentName (c := .node) hname ⟨rfl, .inr rfl⟩

namespace FileTree

/-- Work on raw texts leaves the documents as they are. -/
theorem Hosts.becomes_raw (h : tree.Hosts root base)
    (hchange : tree.ChangesOnly tree' (RawTouched c key)) :
    tree.Becomes tree' root base key (tree.shelf root c) where
  hosts := h.of_changesOnly hchange fun _ _ ht => not_rawTouched_of_documentName ⟨_, ht⟩
  change := hchange.mono fun _ => .inr
  here := h.shelf_eq hchange (fun _ => not_rawTouched_of_documentName) c
  other c' _ := h.shelf_eq hchange (fun _ => not_rawTouched_of_documentName) c'

theorem Becomes.updates {s t : Shelf c} (h : tree.Becomes tree' root base key s)
    (h' : tree'.Updates tree'' root base t) : tree.Becomes tree'' root base key t where
  hosts := h'.hosts
  change := h.change.trans (h'.change.mono fun _ => .inl)
  here := h'.here
  other c' hne := (h'.other c' hne).trans (h.other c' hne)

theorem Becomes.raw {s : Shelf c} (h : tree.Becomes tree' root base key s)
    (hchange : tree'.ChangesOnly tree'' (RawTouched c key)) :
    tree.Becomes tree'' root base key s where
  hosts := (h.hosts.becomes_raw hchange).hosts
  change := h.change.trans (hchange.mono fun _ => .inr)
  here := (h.hosts.becomes_raw hchange).here.trans h.here
  other c' hne := ((h.hosts.becomes_raw hchange).other c' hne).trans (h.other c' hne)

theorem Hosts.becomes_self (h : tree.Hosts root base) (key : String) :
    tree.Becomes tree root base key (tree.shelf root c) :=
  h.becomes_raw (.refl _ _)

end FileTree

namespace Engine

/-! ## How entities are kept -/

/-- The text of the identity made from a unique text. -/
def keyOf (g : Engine) (unique : String) : String := g.idPrefix.getD "" ++ unique

/-- Either no rule keeps its text under the key of file names, or all do, and then none ever
    moves a text. -/
def Uniform (g : Engine) : Prop :=
  (∀ rule ∈ g.rules, rule.property ≠ RawText.fileKey)
    ∨ ∀ rule ∈ g.rules, rule.property = RawText.fileKey

/-- A graph with one rule at most is uniform. -/
theorem uniform_of_length (h : g.rules.length ≤ 1) : g.Uniform := by
  rcases hrules : g.rules with _ | ⟨rule, rest⟩
  · exact .inl (by simp [hrules])
  · obtain rfl : rest = [] := by
      rw [hrules] at h
      exact List.eq_nil_of_length_eq_zero (by simpa using h)
    by_cases hproperty : rule.property = RawText.fileKey
    · exact .inr (by simp [hrules, hproperty])
    · exact .inl (by simp [hrules, hproperty])

/-- A bag as owners give it: where there are rules, it does not name the file of a node. -/
def PlainBag (g : Engine) (c : EntityClass) (bag : Bag) : Prop :=
  c = .node → g.rules ≠ [] → Entries.get? RawText.fileKey bag = none

/-- The ways to keep a node of an identity. -/
inductive KeepsNode (g : Engine) (tree : FileTree) (base : Place) (key : String) (node : Node) :
    Prop where
  | unruled : g.rules = [] → KeepsNode g tree base key node
  /-- the bag as stored names no file -/
  | inline : Entries.get? RawText.fileKey node.properties = none → KeepsNode g tree base key node
  /-- the bag as stored names the file of the identity, which holds a text -/
  | apart (text : String) : (∀ rule ∈ g.rules, rule.property ≠ RawText.fileKey) →
    g.rulesFor node.type ≠ [] →
    Entries.get? RawText.fileKey node.properties = some (.string (rawName key)) →
    tree.HasRaw g.root base key text → KeepsNode g tree base key node

/-- An entity of an identity is kept as it should be. -/
def Keeps (g : Engine) (tree : FileTree) (base : Place) (key : String) :
    {c : EntityClass} → Entity c → Prop
  | .node, e => g.KeepsNode tree base key e
  | .relationship, _ => True

theorem keeps_node {node : Node} : g.Keeps tree base key node ↔ g.KeepsNode tree base key node :=
  Iff.rfl

theorem keeps_relationship {e : Relationship} : g.Keeps tree base key e := trivial

theorem rulesFor_of_rules (h : g.rules = []) (type : String) : g.rulesFor type = [] := by
  rw [rulesFor, h]
  rfl

theorem mem_rules {type : String} {rule : RawText} (h : rule ∈ g.rulesFor type) :
    rule ∈ g.rules := (List.mem_filter.1 h).1

/-- An entity is kept as well after changes that do not touch its raw text. -/
theorem Keeps.of_changesOnly {e : Entity c} {touched : String → Prop}
    (h : g.Keeps tree base key e) (hchange : tree.ChangesOnly tree' touched)
    (hname : c = .node → ¬ touched (rawLast key)) : g.Keeps tree' base key e := by
  cases c with
  | relationship => exact keeps_relationship
  | node =>
    rw [keeps_node] at h ⊢
    cases h with
    | unruled hrules => exact .unruled hrules
    | inline hfile => exact .inline hfile
    | apart text hproperty hrules hfile hraw =>
      exact .apart text hproperty hrules hfile (hraw.of_changesOnly hchange (hname rfl))

/-! ## Reading -/

theorem exec_view_unchanged (g : Engine) (e : Entity c) (tree : FileTree) :
    ∃ outcome, (g.view e).exec tree = (outcome, tree) := by
  cases c with
  | node => exact RawText.exec_mergeAll_unchanged _ _ _ _
  | relationship => exact ⟨_, rfl⟩

/-- A kept entity is seen, with the same identity and type, and with a bag as owners give it. -/
theorem exec_view {e : Entity c} (h : g.Keeps tree base key e) :
    ∃ seen, (g.view e).exec tree = (.ok seen, tree) ∧ Entity.Rebagged p e seen
      ∧ g.PlainBag c seen.properties := by
  cases c with
  | relationship => exact ⟨e, rfl, .refl e, nofun⟩
  | node =>
    cases keeps_node.1 h with
    | unruled hrules =>
      refine ⟨e, ?_, .refl e, fun _ hne => absurd hrules hne⟩
      rw [view, rulesFor_of_rules hrules]
      rfl
    | inline hfile =>
      exact ⟨e, RawText.exec_mergeAll_none _ hfile tree, .refl e, fun _ _ => hfile⟩
    | apart text hproperty hrules hfile hraw =>
      refine ⟨_, RawText.exec_mergeAll (fun rule hrule => hproperty rule (mem_rules hrule)) hfile
        hraw.read, RawText.rebagged_merged _ e text, fun _ _ => ?_⟩
      cases hfor : g.rulesFor e.type with
      | nil => exact absurd hfor hrules
      | cons rule rest =>
        have hmem : rule ∈ g.rulesFor e.type := hfor ▸ List.mem_cons_self ..
        exact RawText.get?_renameEntry_source (hproperty rule (mem_rules hmem))

/-- A kept entity is seen in the same way after changes that do not touch its raw text. -/
theorem view_of_changesOnly {e : Entity c} {touched : String → Prop}
    (h : g.Keeps tree base key e) (hchange : tree.ChangesOnly tree' touched)
    (hname : c = .node → ¬ touched (rawLast key)) :
    ((g.view e).exec tree').1 = ((g.view e).exec tree).1 := by
  cases c with
  | relationship => rfl
  | node =>
    cases keeps_node.1 h with
    | unruled hrules =>
      rw [view, rulesFor_of_rules hrules]
      rfl
    | inline hfile =>
      rw [view, RawText.exec_mergeAll_none _ hfile tree, RawText.exec_mergeAll_none _ hfile tree']
    | apart text hproperty hrules hfile hraw =>
      have hraw' := hraw.of_changesOnly hchange (hname rfl)
      have hproperties : ∀ rule ∈ g.rulesFor e.type, rule.property ≠ RawText.fileKey :=
        fun rule hrule => hproperty rule (mem_rules hrule)
      rw [view, RawText.exec_mergeAll hproperties hfile hraw.read,
        RawText.exec_mergeAll hproperties hfile hraw'.read]

/-! ## Storing and discarding raw texts -/

/-- How the stored form `s` of an entity `e` stands in a tree: it was made of `e`, it differs from
    `e` in its bag only, it is kept as it should be, and with one rule at most it is seen as `e`
    again. -/
structure StoredAs (g : Engine) (p : Number → Prop) (tree : FileTree) (base : Place)
    (key : String) (e s : Entity c) : Prop where
  made : ∃ before after, (g.stored e).exec before = (.ok s, after)
  rebagged : Entity.Rebagged p e s
  keeps : g.Keeps tree base key s
  seen : g.rules.length ≤ 1 → (g.view s).exec tree = (.ok e, tree)

/-- A stored form stands as well after changes that do not touch its raw text. -/
theorem StoredAs.of_changesOnly {e s : Entity c} {touched : String → Prop}
    (h : g.StoredAs p tree base key e s) (hchange : tree.ChangesOnly tree' touched)
    (hname : c = .node → ¬ touched (rawLast key)) : g.StoredAs p tree' base key e s where
  made := h.made
  rebagged := h.rebagged
  keeps := h.keeps.of_changesOnly hchange hname
  seen hlength := by
    have hsame := view_of_changesOnly h.keeps hchange hname
    obtain ⟨outcome, hexec⟩ := exec_view_unchanged g s tree'
    rw [hexec, h.seen hlength] at hsame
    rw [hexec, show outcome = .ok e from hsame]

/-- What bringing an entity into its stored form has led to. -/
structure Stores (g : Engine) (p : Number → Prop) (tree tree' : FileTree) (base : Place)
    (key : String) (e : Entity c) (outcome : Outcome (Entity c)) : Prop where
  change : tree.ChangesOnly tree' (RawTouched c key)
  stored : ∀ s, outcome = .ok s → g.StoredAs p tree' base key e s
  fails : ∀ f, outcome = .error f → f.OfFiles
  takes : tree.TakesRaw g.root base key → ∃ s, outcome = .ok s

/-- An entity whose bag names no file, or which no rule governs, is its own stored form. -/
theorem stores_self {e : Entity c} (hexec : (g.stored e).exec tree = (.ok e, tree))
    (h : c = .node → g.rulesFor e.type = [] ∨ Entries.get? RawText.fileKey e.properties = none)
    (hkeeps : g.Keeps tree base key e) : g.Stores p tree tree base key e (.ok e) where
  change := .refl _ _
  stored s hs := by
    obtain rfl := Except.ok.inj hs
    refine ⟨⟨tree, tree, hexec⟩, .refl _, hkeeps, fun _ => ?_⟩
    cases c with
    | relationship => rfl
    | node =>
      rw [view]
      rcases h rfl with hfor | hfile
      · rw [hfor]
        rfl
      · exact RawText.exec_mergeAll_none _ hfile tree
  fails := nofun
  takes _ := ⟨e, rfl⟩

/-- With one rule at most, a node whose text has been moved out is seen as it was. -/
theorem exec_view_of_stored (h : tree.Hosts g.root base) (hlength : g.rules.length ≤ 1)
    {node s : Node} (hid : node.id.requireText = .ok key)
    (hproper : (Json.object node.properties).Proper p)
    (hfile : Entries.get? RawText.fileKey node.properties = none)
    (htype : s.type = node.type) (hstored : (g.stored node).exec tree = (.ok s, tree')) :
    (g.view s).exec tree' = (.ok node, tree') := by
  rw [stored] at hstored
  rw [view, htype]
  have hshort : (g.rulesFor node.type).length ≤ 1 :=
    Nat.le_trans (List.length_filter_le _ _) hlength
  generalize g.rulesFor node.type = rules at hstored hshort ⊢
  match rules, hshort with
  | [], _ =>
    obtain ⟨hs, rfl⟩ := Prod.mk.inj hstored
    rw [← Except.ok.inj hs]
    rfl
  | [rule], _ =>
    rw [List.foldlM_cons] at hstored ⊢
    obtain ⟨a, tree₁, hsplit, hrest⟩ := FileTask.exec_bind_eq_ok hstored
    obtain ⟨ha, rfl⟩ := Prod.mk.inj hrest
    rw [← Except.ok.inj ha]
    exact FileTask.exec_bind_of_ok (RawText.exec_merge_of_split h hid hproper hfile hsplit)

theorem exec_stored (h : tree.Hosts g.root base) (huniform : g.Uniform) {e : Entity c}
    (hid : e.id.requireText = .ok key) (hproper : (Json.object e.properties).Proper p)
    (hplain : g.PlainBag c e.properties) :
    ∃ outcome tree', (g.stored e).exec tree = (outcome, tree')
      ∧ g.Stores p tree tree' base key e outcome := by
  cases c with
  | relationship => exact ⟨_, _, rfl, stores_self rfl nofun keeps_relationship⟩
  | node =>
    by_cases hfor : g.rulesFor e.type = []
    · have hkeeps : g.KeepsNode tree base key e := by
        by_cases hrules : g.rules = []
        · exact .unruled hrules
        · exact .inline (hplain rfl hrules)
      have hexec : (g.stored e).exec tree = (.ok e, tree) := by
        rw [stored, hfor]
        rfl
      exact ⟨.ok e, tree, hexec, stores_self hexec (fun _ => .inl hfor) (keeps_node.2 hkeeps)⟩
    · have hrules : g.rules ≠ [] := fun hnil => hfor (rulesFor_of_rules hnil e.type)
      have hfile := hplain rfl hrules
      -- either no rule has the key of files for its property, or all rules have it
      rcases huniform with happart | hsame
      · obtain ⟨outcome, tree', hexec, hstores⟩ :=
          RawText.exec_splitAll (g.rulesFor e.type) h hid hproper (.inl hfile)
        refine ⟨outcome, tree', hexec, hstores.change.mono fun _ ht => ⟨rfl, ht⟩,
          fun s hs => ?_, hstores.fails, hstores.takes⟩
        obtain ⟨hrebagged, hkeeps⟩ := hstores.stored s hs
        refine ⟨⟨tree, tree', hs ▸ hexec⟩, hrebagged, keeps_node.2 ?_, fun hlength => ?_⟩
        · rcases hkeeps with hnone | ⟨hown, text, hraw⟩
          · exact .inline hnone
          · exact .apart text happart (hrebagged.type ▸ hfor) hown hraw
        · exact exec_view_of_stored h hlength hid hproper hfile hrebagged.type (hs ▸ hexec)
      · have hexec : (g.stored e).exec tree = (.ok e, tree) := by
          refine RawText.exec_splitAll_inert (fun rule hrule => ?_) tree
          rw [hsame rule (mem_rules hrule)]
          exact hfile
        exact ⟨_, _, hexec, stores_self hexec (fun _ => .inr hfile) (keeps_node.2 (.inline hfile))⟩

/-- The raw text of a kept entity is removed.  Either there was none to remove, and then the
    entity is kept as well without a file, or its place is free for another text. -/
theorem exec_discard {e : Entity c} (h : g.Keeps tree base key e) :
    ∃ tree', (g.discard e.type e).exec tree = (.ok (), tree')
      ∧ tree.ChangesOnly tree' (RawTouched c key)
      ∧ ((tree' = tree ∧ ∀ tree'', g.Keeps tree'' base key e)
        ∨ tree'.TakesRaw g.root base key) := by
  cases c with
  | relationship => exact ⟨tree, rfl, .refl _ _, .inl ⟨rfl, fun _ => keeps_relationship⟩⟩
  | node =>
    rw [discard]
    cases keeps_node.1 h with
    | unruled hrules =>
      rw [rulesFor_of_rules hrules]
      exact ⟨tree, rfl, .refl _ _, .inl ⟨rfl, fun _ => keeps_node.2 (.unruled hrules)⟩⟩
    | inline hfile =>
      exact ⟨tree, RawText.exec_discardAll_none _ hfile tree, .refl _ _,
        .inl ⟨rfl, fun _ => keeps_node.2 (.inline hfile)⟩⟩
    | apart text hproperty hrules hfile hraw =>
      obtain ⟨tree', hexec, hchange, htakes⟩ :=
        RawText.exec_discardAll_own (g.rulesFor e.type) hfile hraw.takes
      exact ⟨tree', hexec, hchange.mono fun _ ht => ⟨rfl, ht⟩, .inr htakes⟩

/-- Brings a changed entity into its stored form, once the raw text of the old one has been
    removed. -/
def rewrite (g : Engine) (old : String) (kept e : Entity c) : FileTask (Entity c) := do
  g.discard old kept
  g.stored e

/-- Removing the old raw text and storing the new one are the two halves of rewriting. -/
theorem exec_discard_stored {β : Type} (g : Engine) (old : String) (kept e : Entity c)
    (next : Entity c → FileTask β) (tree : FileTree) :
    (g.discard old kept >>= fun _ => g.stored e >>= next).exec tree
      = (g.rewrite old kept e >>= next).exec tree := by
  rw [rewrite, FileTask.exec_bind, FileTask.exec_bind (g.discard old kept >>= _),
    FileTask.exec_bind (g.discard old kept)]
  rcases (g.discard old kept).exec tree with ⟨outcome, tree'⟩
  cases outcome with
  | error f => rfl
  | ok u => exact FileTask.exec_bind _ _ _

/-- If a changed entity cannot be brought into its stored form, that is for the sake of files, and
    the old one had no raw text; so it is kept still, whatever the files. -/
theorem exec_rewrite (h : tree.Hosts g.root base) (huniform : g.Uniform) {kept e : Entity c}
    (hkeeps : g.Keeps tree base key kept) (hid : e.id.requireText = .ok key)
    (hproper : (Json.object e.properties).Proper p) (hplain : g.PlainBag c e.properties) :
    ∃ outcome tree', (g.rewrite kept.type kept e).exec tree = (outcome, tree')
      ∧ tree.ChangesOnly tree' (RawTouched c key)
      ∧ (∀ s, outcome = .ok s → g.StoredAs p tree' base key e s)
      ∧ ∀ f, outcome = .error f → f.OfFiles ∧ ∀ tree'', g.Keeps tree'' base key kept := by
  obtain ⟨tree₁, hdiscard, hchange₁, hold⟩ := exec_discard hkeeps
  obtain ⟨outcome, tree₂, hstored, hstores⟩ :=
    exec_stored (h.becomes_raw hchange₁).hosts huniform hid hproper hplain
  refine ⟨outcome, tree₂, ?_, hchange₁.trans hstores.change, hstores.stored, fun f hf => ?_⟩
  · rw [rewrite, FileTask.exec_bind_of_ok hdiscard]
    exact hstored
  · refine ⟨hstores.fails f hf, ?_⟩
    rcases hold with ⟨-, halways⟩ | htakes
    · exact halways
    · obtain ⟨s, hs⟩ := hstores.takes htakes
      rw [hs] at hf
      cases hf

end Engine

end PropertyGraph
