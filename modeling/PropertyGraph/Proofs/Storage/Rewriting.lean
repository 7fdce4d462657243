/-
  PropertyGraph.Proofs.Storage.Rewriting

  Documents of any origin.  Whatever text an index is read from, its keys are distinct, and
  whatever text entities are read from, they can be written and read again.  Wherever a write is
  served, in whatever tree, the document has the new text and no other file of the graph is
  touched.
-/
import PropertyGraph.Proofs.Json.Bounded
import PropertyGraph.Proofs.Json.NumberIdentity
import PropertyGraph.Proofs.Storage.Layout
import PropertyGraph.Proofs.Storage.Shelf

namespace PropertyGraph

open FilePath (PlainName)
open FileTree (Fits Rooted)
open Json (Tree Decoded Record maxDepth printedTree)
open Naming (Touches checkType)

variable {α : Type} {c : EntityClass} {root : String} {tree tree' : FileTree}

/-! ## What is read from any text -/

theorem Number.gives_normalized : Json.Numeral.Gives Number.Normalized :=
  fun _ _ => Number.normalized_value?

namespace Document

/-- What the payload of a document satisfies, whatever its text is. -/
theorem of_decode {p : Number → Prop} (hp : Json.Numeral.Gives p) {payload : Tree → Decoded α}
    {P : α → Prop} (hpayload : ∀ t x, t.Bounded p 1 → payload t = .ok x → P x) {text : String}
    {data : α} (h : decode payload text = .ok data) : P data := by
  have hrecord : (Record.required "data" payload).Yields (Tree.Bounded p 1) P :=
    Record.yields_field hpayload fun x hx => by cases hx
  rw [decode] at h
  split at h
  · next read hread =>
    obtain rfl := Except.ok.inj h
    exact hrecord.decode (Tree.bounded_ofText hp text) hread
  · cases h

/-- What a document gives satisfies the same, if its absence does. -/
theorem of_payload {p : Number → Prop} (hp : Json.Numeral.Gives p) {decode : Tree → Decoded α}
    {P : α → Prop} (hdecode : ∀ t x, t.Bounded p 1 → decode t = .ok x → P x) {absent : α}
    (habsent : P absent) {read : Except PathTrouble String} {data : α}
    (h : payload decode absent read = .ok data) : P data := by
  cases read with
  | ok text => exact of_decode hp hdecode h
  | error trouble =>
    cases trouble with
    | missing =>
      obtain rfl := Except.ok.inj h
      exact habsent
    | refused => cases h

theorem nodup_keys_of_toMap {decode : Tree → Decoded α} {t : Tree} {entries : Entries α}
    (h : Tree.toMap decode t = .ok entries) : (Entries.keys entries).Nodup := by
  unfold Tree.toMap at h
  split at h
  · obtain ⟨decoded, -, h⟩ := exists_of_bind h
    split at h
    · obtain rfl := Except.ok.inj h
      exact Entries.nodup_keys_collapse decoded
    · cases h
  · cases h
  · cases h

/-- Entities that are read from a list are proper, and nest no deeper than the list admits. -/
theorem fits_of_toList {p : Number → Prop} {t : Tree} (ht : t.Bounded p 1)
    {entities : List (Entity c)} (h : Tree.toList Entity.decode t = .ok entities) :
    ∀ e ∈ entities, e.Proper p ∧ 2 + e.toJson.nesting ≤ maxDepth := by
  unfold Tree.toList at h
  split at h
  · next items closed =>
    obtain ⟨decoded, hdecoded, h⟩ := exists_of_bind h
    split at h
    · obtain rfl := Except.ok.inj h
      intro e he
      obtain ⟨item, hitem, hdecode⟩ := exists_of_mapM hdecoded e he
      exact Entity.fits_of_decode (by decide) (Tree.boundedItems_iff.1 ht.2 item hitem) hdecode
    · cases h
  · obtain rfl := Except.ok.inj h
    exact fun e he => absurd he List.not_mem_nil
  · cases h
  · cases h

end Document

/-- The keys of an index are distinct, whatever its document holds. -/
theorem FileTree.nodup_keys_index {index : Entries String}
    (h : (tree.shelf root c).index = .ok index) : (Entries.keys index).Nodup :=
  Document.of_payload (p := fun _ => True) (fun _ _ _ => trivial)
    (fun _ _ _ hmap => Document.nodup_keys_of_toMap hmap)
    (show (Entries.keys ([] : Entries String)).Nodup from List.nodup_nil) h

/-- Entities that are read can be written and read again, whatever their document holds. -/
theorem Shelf.fits_of_load {s : Shelf c} {type : String} {entities : List (Entity c)}
    (h : s.load type = .ok entities) :
    ∀ e ∈ entities, e.Proper Number.Normalized ∧ 2 + e.toJson.nesting ≤ maxDepth := by
  rw [load, checkType_of_load h] at h
  exact Document.of_payload Number.gives_normalized
    (fun _ _ ht hlist => Document.fits_of_toList ht hlist)
    (fun e he => absurd he List.not_mem_nil) h

/-- Some of the entities that were read are read again, each as printing and reading makes it. -/
theorem Document.decode_entitiesText_of_load {s : Shelf c} {type : String}
    {entities kept : List (Entity c)} (h : s.load type = .ok entities)
    (hkept : ∀ e ∈ kept, e ∈ entities) :
    decode (Tree.toList Entity.decode) (entitiesText kept) = .ok (kept.map Entity.reread) := by
  have hfits := Shelf.fits_of_load h
  apply decode_entitiesText_of_entities Number.stable_normalized
  · exact fun e he => (hfits e (hkept e he)).1
  · intro e he
    exact (Tree.withinLimit_printedTree_iff (by decide) _).2 (hfits e (hkept e he)).2

/-! ## Writes that are served -/

/-- An empty name leads from a directory to itself. -/
theorem FileTree.locate_blank {here : Place} (h : tree.occupant here = some .directory) :
    tree.locate here [""] = .ok here := by
  rw [locate, h]
  rfl

/-- Where a plain name below a root leads somewhere, the root is a directory. -/
theorem FileTree.rooted_of_resolve_join {name : String} {place : Place} (hname : PlainName name)
    (h : tree.resolve (FilePath.join root name) = .ok place) :
    ∃ base, tree.Rooted root base ∧ place = base ++ [name] := by
  have horigin : tree.origin (FilePath.join root name) = tree.origin root := by
    rw [origin, origin, FilePath.isAbsolute_join hname]
  obtain ⟨before, hnames, hroot⟩ := @FilePath.names_join root name hname
  have hlocate : tree.locate (tree.origin root) (before ++ [name]) = .ok place := by
    rw [resolve, horigin, hnames] at h
    split at h
    · cases h
    · split at h
      · cases h
      · exact h
  rw [locate_append] at hlocate
  cases hbefore : tree.locate (tree.origin root) before with
  | error trouble => rw [hbefore] at hlocate; cases hlocate
  | ok base =>
    rw [hbefore] at hlocate
    have hlast : tree.locate base [name] = .ok place := hlocate
    have hdirectory : tree.occupant base = some .directory := by
      rw [locate] at hlast
      split at hlast
      · cases hlast
      · cases hlast
      · assumption
    refine ⟨base, ⟨?_, hdirectory⟩, ?_⟩
    -- the root may end in a slash and so have an empty name at its end
    · rcases hroot with hroot | hroot
      · rw [hroot, hbefore]
      · rw [hroot, locate_append, hbefore]
        exact locate_blank hdirectory
    · rw [locate_plain hname hdirectory] at hlast
      split at hlast
      · cases hlast
      · exact (Except.ok.inj hlast).symm

/-- A file of a graph has a new text, and no other one is read in another way than before. -/
structure FileTree.Rewrites (tree tree' : FileTree) (root : String) (f : StoredFile)
    (text : String) : Prop where
  here : tree'.read (f.path root) = .ok text
  elsewhere : ∀ g : StoredFile, g.Accepted → g ≠ f →
    tree'.read (g.path root) = tree.read (g.path root)

theorem FileTree.write?_eq_some {path text : String} (h : tree.write? path text = some tree') :
    ∃ place, tree.resolve path = .ok place ∧ tree.occupant place ≠ some .directory
      ∧ tree' = tree.put place (.file text) := by
  rw [write?] at h
  split at h
  · cases h
  · next place hplace =>
    split at h
    · cases h
    · next hfree => exact ⟨place, hplace, hfree, (Option.some.inj h).symm⟩

theorem FileTree.rename?_eq_some {source target : String}
    (h : tree.rename? source target = some tree') :
    ∃ old new text, tree.resolve source = .ok old ∧ tree.resolve target = .ok new
      ∧ tree.occupant old = some (.file text) ∧ tree.occupant new ≠ some .directory
      ∧ tree' = (tree.drop old).put new (.file text) := by
  rw [rename?] at h
  split at h
  · next old new hold hnew =>
    split at h
    · cases h
    · next text hfile hfree =>
      exact ⟨old, new, text, hold, hnew, hfile, hfree, (Option.some.inj h).symm⟩
    · cases h
  · cases h

/-- Writing a file aside and moving it to its place, where both are done, rewrites it. -/
theorem FileTree.rewrites_of_replaced {f : StoredFile} (hf : f.Accepted) {text : String}
    {written : FileTree} (hwrite : tree.write? (f.aside root) text = some written)
    (hmove : written.rename? (f.aside root) (f.path root) = some tree') :
    tree.Rewrites tree' root f text := by
  have hname := hf.plainName
  obtain ⟨aside, haside, hasideFree, rfl⟩ := write?_eq_some hwrite
  rw [hf.aside_eq] at haside hmove
  obtain ⟨base, hrooted, rfl⟩ := rooted_of_resolve_join hf.plainStem.aside haside
  have hwritten := tree.changesOnly_put_file text
    (show (base ++ [f.stem ++ ".json.tmp"]).getLast? = some (f.stem ++ ".json.tmp") by simp)
    hasideFree
  have hrooted₁ := hrooted.changesOnly hwritten
  obtain ⟨old, new, moved, hold, hnew, hfile, hfree, hmoved⟩ := rename?_eq_some hmove
  obtain rfl := Except.ok.inj ((hwritten.resolve haside).symm.trans hold)
  rw [occupant_put_self _ _ (by simp)] at hfile
  obtain rfl : text = moved := by simpa using hfile
  rw [f.path_eq] at hnew
  have hfits : Fits root f.name := by
    by_contra hno
    rw [hrooted₁.resolve_join_refused hname hno] at hnew
    cases hnew
  obtain rfl := Except.ok.inj ((hrooted₁.resolve_join hname hfits).symm.trans hnew)
  -- the place itself was not touched when the file beside it was written
  have hplace : tree.occupant (base ++ [f.name]) ≠ some .directory := by
    rw [StoredFile.name, occupant_put_of_ne _ _ (json_place_ne_aside base f.stem)] at hfree
    exact hfree
  have hchange : tree.ChangesOnly tree' (Touches f.stem) := by
    rw [hmoved]
    exact tree.changesOnly_replaced hasideFree hplace
  constructor
  · rw [f.path_eq, FileTree.read, (hrooted.changesOnly hchange).resolve_join hname hfits, hmoved]
    simp only [occupant_put_self _ _ (show base ++ [f.name] ≠ [] by simp)]
  · intro g hg hne
    rw [g.path_eq]
    apply hrooted.read_json_congr hg.plainStem hchange
    exact Naming.not_touches_json fun hstems => hne (StoredFile.stem_inj hstems)

/-- A write that is served rewrites a file. -/
theorem FileTask.exec_replace_of_served {f : StoredFile} (hf : f.Accepted) {text : String}
    (h : (replace (f.path root) text).ChangesServed tree) :
    ∃ tree', (replace (f.path root) text).exec tree = (.ok (), tree')
      ∧ tree.Rewrites tree' root f text := by
  have hwriting : (write (f.aside root) text).ChangesServed tree := h.first
  obtain ⟨written, hwrite, hexec⟩ := hwriting.exec_write
  have hmoving : (rename (f.aside root) (f.path root)).ChangesServed written := h.next hexec
  obtain ⟨tree', hmove, hexec'⟩ := hmoving.exec_rename
  exact ⟨tree', (exec_bind_of_ok hexec).trans hexec',
    FileTree.rewrites_of_replaced hf hwrite hmove⟩

end PropertyGraph
