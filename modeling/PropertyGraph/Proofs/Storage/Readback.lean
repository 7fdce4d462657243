/-
  PropertyGraph.Proofs.Storage.Readback

  What a persistent graph accepts, read back.  A node that was created is found as it was
  returned, and the nodes before it are found as before, in documents as well as in a
  snapshot, as long as the new bag is not nested deeper than a reader takes.  Nothing checks
  this when the bag is written: a deeper one is accepted, and its document is lost with it.
-/
import PropertyGraph.Proofs.Memory.Snapshot
import PropertyGraph.Proofs.Storage.Lookup
import PropertyGraph.Proofs.Storage.Progress

namespace PropertyGraph

open Engine (Step given)
open Naming (checkType documentStem indexStem)
open Json (printedTree)

variable {σ : Type} {tree tree' : FileTree} {base : Place} {path : String} {stamp : Stamp}
  {body : Body .node} {node : Node} {used : List String}

/-- A node is found in the state after a change, and all nodes of the state before it are found
    as before. -/
structure Backend.ReadsBack (b : Backend σ) (before after : σ) (stamp : Stamp) (node : Node) :
    Prop where
  new : (b.answer stamp (.get .node node.id) after).1 = .ok (some node)
  old : ∀ id other, (b.answer stamp (.get .node id) before).1 = .ok (some other) →
    (b.answer stamp (.get .node id) after).1 = .ok (some other)

/-! ## Documents -/

namespace Engine

variable {g : Engine}

theorem exists_kept_of_get {id : Id} (h : ((g.get .node id).exec tree).1 = .ok (some node)) :
    ∃ kept, (tree.shelf g.root .node).get id = .ok (some kept) := by
  obtain ⟨found, tree₁, hfound, hnext⟩ :=
    FileTask.exec_bind_eq_ok (Prod.ext h rfl : (g.get .node id).exec tree = (.ok (some node), _))
  cases found with
  | none =>
    cases congrArg Prod.fst hnext
  | some kept =>
    rw [Catalog.exec_get] at hfound
    exact ⟨kept, congrArg Prod.fst hfound⟩

theorem Sound.readsBack (h : g.Sound Number.Whole used tree base) (hrules : g.rules = [])
    (hshallow : (tree.shelf g.root .node).Shallow) (hfresh : stamp.unique ∉ used)
    (hcreates : g.Creates Number.Whole tree base stamp body (.ok node) tree')
    (hlimit : (Json.object body.properties).nesting ≤ Node.maxNesting) :
    g.backend.ReadsBack tree tree' stamp node := by
  rw [← hcreates.properties] at hlimit
  obtain ⟨hid, hsettles⟩ := h.settles_of_creates hshallow hfresh hcreates hlimit
  constructor
  · show ((g.get .node node.id).exec tree').1 = _
    rw [hid]
    exact congrArg Prod.fst (hsettles.exec_get (by simp [hrules]))
  · intro id other hother
    -- the identity is not the new one, which belonged to no node
    obtain ⟨kept, hkept⟩ := exists_kept_of_get hother
    obtain ⟨hkeptId, type, entities, hload, hmem⟩ := h.id_of_get hkept
    have hne := h.id_ne hfresh hload hmem
    rw [hkeptId] at hne
    rw [← hother]
    exact h.get_of_spares (absurd hrules) hsettles.change hsettles.spares hne

/-- A node that is nested deeper than a reader takes is found in the index, but not read. -/
theorem Sound.malformed_of_creates (h : g.Sound Number.Whole used tree base)
    (hrules : g.rules = [])
    (hcreates : g.Creates Number.Whole tree base stamp body (.ok node) tree')
    (hdeep : Node.maxNesting < (Json.object body.properties).nesting) :
    ((g.get .node node.id).exec tree').1 = .error .malformed := by
  refine h.malformed_of_deep hrules hcreates fun hshallow => ?_
  have hlimit := hshallow.properties
  rw [hcreates.properties] at hlimit
  exact absurd hlimit (Nat.not_le.2 hdeep)

end Engine

/-! ## Snapshots -/

namespace Store

open Keeper (load Holds)

variable {store : Store}

theorem answer_get (hkeeper : store.keeper = .snapshot path) (stamp : Stamp) (id : Id)
    (tree : FileTree) :
    (backend.answer stamp (.get .node id) (store, tree)).1
      = id.requireText >>= fun key =>
          ((load path).exec tree).1 >>= fun s => .ok (s.get .node key) := by
  show (((store.answer stamp (.get .node id)).run tree).1).1 = _
  rw [run_get hkeeper]

/-- What a node that was created has led to: the state that was loaded is saved with the node. -/
theorem exists_saved (hkeeper : store.keeper = .snapshot path)
    (h : Holds path (used.map store.keyOf) tree) (htime : TimeFits stamp.time)
    (hbody : body.Proper Number.Whole)
    (hcreated : (backend.answer stamp (.create .node body) (store, tree)).1 = .ok node) :
    ∃ s tree', backend.advance (store, tree) ⟨stamp, .create .node body⟩ = (store, tree')
      ∧ (load path).exec tree = (.ok s, tree)
      ∧ node.id = .ofString (store.keyOf stamp.unique) ∧ node.properties = body.properties
      ∧ (s.insert (store.keyOf stamp.unique) node).Proper Number.Whole
          ((used ++ [stamp.unique]).map store.keyOf)
      ∧ tree'.read path = .ok (s.insert (store.keyOf stamp.unique) node).toJson.pretty := by
  obtain ⟨outcome, tree', hrun, -, hdone⟩ := run_create hkeeper h htime hbody
  obtain rfl : outcome = .ok node := by
    simp only [backend, hrun] at hcreated
    exact hcreated
  obtain ⟨s, hload, rfl, hread⟩ := hdone node rfl
  refine ⟨s, tree', ?_, hload, rfl, rfl, ?_, hread⟩
  · simp only [Backend.advance, backend, hrun]
  · exact ((h.loaded hload).1.mono (store.keys_append used stamp.unique)).insert (by simp)
      (hbody.create _ htime)

theorem readsBack (hkeeper : store.keeper = .snapshot path)
    (h : Holds path (used.map store.keyOf) tree) (hfresh : stamp.unique ∉ used)
    (htime : TimeFits stamp.time) (hbody : body.Proper Number.Whole)
    (hcreated : (backend.answer stamp (.create .node body) (store, tree)).1 = .ok node)
    (hlimit : (Json.object body.properties).nesting ≤ Node.maxNesting) :
    backend.ReadsBack (store, tree)
      (backend.advance (store, tree) ⟨stamp, .create .node body⟩) stamp node := by
  obtain ⟨s, tree', hadvance, hload, hid, hproperties, hproper, hread⟩ :=
    exists_saved hkeeper h htime hbody hcreated
  obtain ⟨hs, hwithin⟩ := h.loaded hload
  rw [← hproperties] at hlimit
  have hload' : (load path).exec tree'
      = (.ok (s.insert (store.keyOf stamp.unique) node), tree') := by
    have hwithin' := hwithin.insert (store.keyOf stamp.unique) ((Node.withinLimit_iff hid).2 hlimit)
    rw [Keeper.exec_load_of_read hread, GraphState.decode_pretty hproper hwithin']
    rfl
  rw [hadvance]
  constructor
  · rw [hid, answer_get hkeeper, hload']
    exact congrArg Except.ok (s.get_insert_self _ _)
  · intro id other hother
    rw [answer_get hkeeper, hload] at hother
    rw [answer_get hkeeper, hload', ← hother]
    cases hkey : id.requireText with
    | error f => rfl
    | ok key =>
      have hold : s.get .node key = some other := by
        rw [hkey] at hother
        exact Except.ok.inj hother
      -- the key is not the new one, which no node had
      have hne : key ≠ store.keyOf stamp.unique := by
        rintro rfl
        obtain ⟨unique, hmem, hsame⟩ := List.mem_map.1
          (hs.keys .node _ (List.mem_map_of_mem (Entries.mem_of_get? hold)))
        exact hfresh (keyOf_inj hsame ▸ hmem)
      exact congrArg Except.ok (s.get_insert_of_ne hne _)

/-- A node that is nested deeper than a reader takes makes the whole snapshot unreadable. -/
theorem malformed_of_created (hkeeper : store.keeper = .snapshot path)
    (h : Holds path (used.map store.keyOf) tree) (htime : TimeFits stamp.time)
    (hbody : body.Proper Number.Whole)
    (hcreated : (backend.answer stamp (.create .node body) (store, tree)).1 = .ok node)
    (hdeep : Node.maxNesting < (Json.object body.properties).nesting) (key : String) :
    (backend.answer stamp (.get .node (.ofString key))
      (backend.advance (store, tree) ⟨stamp, .create .node body⟩)).1 = .error .malformed := by
  obtain ⟨s, tree', hadvance, hload, hid, hproperties, hproper, hread⟩ :=
    exists_saved hkeeper h htime hbody hcreated
  rw [← hproperties] at hdeep
  -- a state that decodes is within the limit as a whole, the new node included
  have hload' : (load path).exec tree' = (.error .malformed, tree') := by
    rw [Keeper.exec_load_of_read hread]
    cases hdecode : GraphState.decode (Json.Tree.ofText _) with
    | error problem => rfl
    | ok read =>
      have hmem := Entries.mem_of_get? (s.get_insert_self (store.keyOf stamp.unique) node)
      have hwithin := GraphState.withinLimit_of_decode hproper hdecode .node _ hmem
      exact absurd ((Node.withinLimit_iff hid).1 hwithin) (Nat.not_le.2 hdeep)
  rw [hadvance, answer_get hkeeper, hload']
  rfl

end Store

/-! ## Runs -/

/-- The last step of a run that has created a node. -/
theorem Engine.creates_after {g : Engine} {steps : List Step}
    (hrun : ProperRun Number.Whole (steps ++ [⟨stamp, .create .node body⟩])) (hrules : g.rules = [])
    (hbare : tree.Bare g.root base)
    (hcreated : (g.backend.answer stamp (.create .node body) (g.backend.after tree steps)).1
      = .ok node) :
    g.Sound Number.Whole (given steps) (g.after tree steps) base
      ∧ g.Creates Number.Whole (g.after tree steps) base stamp body (.ok node)
          (g.after tree (steps ++ [⟨stamp, .create .node body⟩])) := by
  have huniform : g.Uniform := uniform_of_length (by simp [hrules])
  have hallows := hrun.allows hrules
  have hsound := sound_after hbare Number.stable_whole huniform hallows.before
  refine ⟨hsound, ?_⟩
  have hanswers := hsound.answers huniform
    (hallows.accepted ⟨stamp, .create .node body⟩ (by simp))
  rw [show ((g.answer stamp (.create .node body)).exec (g.after tree steps)).1 = .ok node
    from hcreated, ← after_append] at hanswers
  cases hanswers with
  | created hcreates => exact hcreates

/-- What was created last is read back, and nothing is lost by it: after every run of the file
    engine without raw texts below an empty root, and after every run of a store in memory whose
    path leads to no file yet. -/
theorem readsBack_after_created {steps : List Step}
    (hrun : ProperRun Number.Whole (steps ++ [⟨stamp, .create .node body⟩]))
    (hlimit : (Json.object body.properties).nesting ≤ Node.maxNesting) :
    (∀ (g : Engine) (tree : FileTree) (base : Place), g.rules = [] → tree.Bare g.root base →
      (g.backend.answer stamp (.create .node body) (g.backend.after tree steps)).1 = .ok node →
      g.backend.ReadsBack (g.backend.after tree steps)
        (g.backend.after tree (steps ++ [⟨stamp, .create .node body⟩])) stamp node)
    ∧ ∀ (store : Store) (path : String) (tree : FileTree), store.keeper = .snapshot path →
      (∀ text, tree.occupant (tree.placeOf path) ≠ some (.file text)) →
      (Store.backend.answer stamp (.create .node body)
        (Store.backend.after (store, tree) steps)).1 = .ok node →
      Store.backend.ReadsBack (Store.backend.after (store, tree) steps)
        (Store.backend.after (store, tree) (steps ++ [⟨stamp, .create .node body⟩])) stamp node := by
  have hfresh : stamp.unique ∉ given steps := hrun.fresh (List.mem_singleton.2 rfl)
  constructor
  · intro g tree base hrules hbare hcreated
    obtain ⟨hsound, hcreates⟩ := Engine.creates_after hrun hrules hbare hcreated
    have hshallow := Engine.shallow_after hbare Number.stable_whole
      (Engine.uniform_of_length (by simp [hrules])) (hrun.allows hrules).before .node
    exact hsound.readsBack hrules hshallow hfresh hcreates hlimit
  · intro store path tree hkeeper hfree hcreated
    obtain ⟨htime, hbody⟩ := hrun.proper ⟨stamp, .create .node body⟩ (by simp)
    obtain ⟨tree', hafter, hholds⟩ := Store.holds_after hkeeper hfree hrun.before
    rw [hafter] at hcreated
    rw [Backend.after_append, hafter]
    exact Store.readsBack hkeeper hholds hfresh htime hbody hcreated hlimit

/-! ## Lists inside one another -/

/-- Lists inside one another. -/
def nested : Nat → Json
  | 0 => .null
  | n + 1 => .array [nested n]

theorem nesting_nested (n : Nat) : (nested n).nesting = n := by
  induction n with
  | zero => rfl
  | succ n ih => simp [nested, Json.nesting, Json.nestingItems, ih]

theorem proper_nested (p : Number → Prop) (n : Nat) : (nested n).Proper p := by
  induction n with
  | zero => trivial
  | succ n ih => exact ⟨ih, trivial⟩

/-- A node whose bag holds lists inside one another. -/
def nestedNode (n : Nat) : Body .node := .node "Nested" [("a", nested n)]

theorem nesting_nestedNode (n : Nat) :
    (Json.object (nestedNode n).properties).nesting = n + 1 := by
  show max (nested n).nesting 0 + 1 = n + 1
  rw [nesting_nested, Nat.max_eq_left (Nat.zero_le n)]

/-- The surroundings in which such a node is created. -/
def nestedStamp : Stamp := ⟨"d", 1⟩

/-- The run that creates such a node besides a note. -/
def nestedRun (n : Nat) : List Step :=
  Engine.noteRun ++ [⟨nestedStamp, .create .node (nestedNode n)⟩]

theorem properRun_nested (n : Nat) : ProperRun Number.Whole (nestedRun n) where
  distinct := show ["n", "d"].Nodup by decide
  proper step hstep := by
    rcases List.mem_append.1 hstep with hnote | hnested
    · obtain rfl := List.mem_singleton.1 hnote
      exact ⟨by decide, ⟨by decide, trivial, trivial⟩, trivial⟩
    · obtain rfl := List.mem_singleton.1 hnested
      exact ⟨show TimeFits 1 by decide,
        ⟨show ["a"].Nodup by decide, proper_nested _ n, trivial⟩, trivial⟩

/-- After the note such a node is created, however deep it nests. -/
theorem Engine.created_nested (n : Nat) :
    ((Engine.sample []).backend.answer nestedStamp (.create .node (nestedNode n))
      ((Engine.sample []).backend.after .sample Engine.noteRun)).1
        = .ok ((Engine.sample []).created nestedStamp (nestedNode n)) := by
  have hindex : FileTree.Writable "/g" (indexStem .node) := writable_index_sample .node
  have hproper : (Body.node "Note" [("content", .string "t")]).Proper Number.Whole :=
    ⟨⟨by decide, trivial, trivial⟩, trivial⟩
  obtain ⟨tree', hnote, hconsistent, -⟩ := created_of_bare (g := Engine.sample [])
    FileTree.bare_sample Number.stable_whole rfl hindex ⟨"n", 0⟩ (by decide) hproper
    ⟨by decide, trivial⟩ rfl (Catalog.writable_document hindex rfl (by decide))
  -- a document of this type can be written whatever stands in the bag
  have hcheck : checkType (nestedNode n).type = .ok () := show checkType "Nested" = .ok () from rfl
  have hwritable : FileTree.Writable "/g" (documentStem (nestedNode n).type .node) :=
    Catalog.writable_document hindex hcheck (show "Nested".utf8ByteSize ≤ 7 by decide)
  obtain ⟨tree'', hnested⟩ := hconsistent.exec_create_ok rfl hindex nestedStamp hcheck hwritable
  have hafter : (Engine.sample []).after .sample noteRun = tree' := congrArg Prod.snd hnote
  show (((Engine.sample []).answer nestedStamp (.create .node (nestedNode n))).exec
    ((Engine.sample []).after .sample noteRun)).1 = _
  rw [hafter]
  exact congrArg Prod.fst hnested

/-- A store whose snapshot is the file `/g/s.json`. -/
def Store.sample : Store := ⟨none, .builtin, .snapshot "/g/s.json"⟩

theorem FileTree.sample_free (text : String) :
    FileTree.sample.occupant (FileTree.sample.placeOf "/g/s.json") ≠ some (.file text) := by
  have hplace : FileTree.sample.placeOf "/g/s.json" = ["g", "s.json"] := by decide +kernel
  rw [hplace]
  nofun

/-- The deepest bag that is read back, from a document and from a snapshot. -/
theorem readsBack_nested :
    ProperRun Number.Whole (nestedRun 123)
      ∧ (Json.object (nestedNode 123).properties).nesting ≤ Node.maxNesting
      ∧ (Engine.sample []).rules = [] ∧ FileTree.sample.Bare "/g" ["g"]
      ∧ (∃ node,
        ((Engine.sample []).backend.answer nestedStamp (.create .node (nestedNode 123))
          ((Engine.sample []).backend.after .sample Engine.noteRun)).1 = .ok node
        ∧ (Engine.sample []).backend.ReadsBack
          ((Engine.sample []).backend.after .sample Engine.noteRun)
          ((Engine.sample []).backend.after .sample (nestedRun 123)) nestedStamp node)
      ∧ Store.sample.keeper = .snapshot "/g/s.json"
      ∧ (∀ text, FileTree.sample.occupant (FileTree.sample.placeOf "/g/s.json")
          ≠ some (.file text))
      ∧ ∃ node,
        (Store.backend.answer nestedStamp (.create .node (nestedNode 123))
          (Store.backend.after (.sample, .sample) Engine.noteRun)).1 = .ok node
        ∧ Store.backend.ReadsBack (Store.backend.after (.sample, .sample) Engine.noteRun)
          (Store.backend.after (.sample, .sample) (nestedRun 123)) nestedStamp node := by
  have hrun := properRun_nested 123
  have hlimit : (Json.object (nestedNode 123).properties).nesting ≤ Node.maxNesting := by
    rw [nesting_nestedNode]
    decide
  have hnode := Engine.created_nested 123
  have hstore : (Store.backend.answer nestedStamp (.create .node (nestedNode 123))
      (Store.backend.after (.sample, .sample) Engine.noteRun)).1.isOk = true := by
    decide +kernel
  obtain ⟨node', hnode'⟩ := Engine.exists_of_isOk hstore
  exact ⟨hrun, hlimit, rfl, FileTree.bare_sample,
    ⟨_, hnode, (readsBack_after_created hrun hlimit).1 _ _ _ rfl FileTree.bare_sample hnode⟩,
    rfl, FileTree.sample_free,
    ⟨node', hnode', (readsBack_after_created hrun hlimit).2 _ _ _ rfl FileTree.sample_free hnode'⟩⟩

/-- A bag that is one list deeper is accepted by both, and cannot be read back; the snapshot has
    lost the note as well. -/
theorem malformed_nested :
    (∃ node,
      ((Engine.sample []).backend.answer nestedStamp (.create .node (nestedNode 124))
        ((Engine.sample []).backend.after .sample Engine.noteRun)).1 = .ok node
      ∧ ((Engine.sample []).backend.answer nestedStamp (.get .node node.id)
        ((Engine.sample []).backend.after .sample (nestedRun 124))).1 = .error .malformed)
    ∧ (Store.backend.answer nestedStamp (.create .node (nestedNode 124))
        (Store.backend.after (.sample, .sample) Engine.noteRun)).1.isOk = true
    ∧ ∀ key, (Store.backend.answer nestedStamp (.get .node (.ofString key))
        (Store.backend.after (.sample, .sample) (nestedRun 124))).1 = .error .malformed := by
  have hrun := properRun_nested 124
  have hdeep : Node.maxNesting < (Json.object (nestedNode 124).properties).nesting := by
    rw [nesting_nestedNode]
    decide
  have hnode := Engine.created_nested 124
  have hstore : (Store.backend.answer nestedStamp (.create .node (nestedNode 124))
      (Store.backend.after (.sample, .sample) Engine.noteRun)).1.isOk = true := by
    decide +kernel
  obtain ⟨node', hnode'⟩ := Engine.exists_of_isOk hstore
  refine ⟨⟨_, hnode, ?_⟩, hstore, fun key => ?_⟩
  · obtain ⟨hsound, hcreates⟩ := Engine.creates_after hrun rfl FileTree.bare_sample hnode
    exact hsound.malformed_of_creates rfl hcreates hdeep
  · have hkeeper : Store.sample.keeper = .snapshot "/g/s.json" := rfl
    obtain ⟨tree', hafter, hholds⟩ :=
      Store.holds_after hkeeper FileTree.sample_free hrun.before
    obtain ⟨htime, hbody⟩ :=
      hrun.proper ⟨nestedStamp, .create .node (nestedNode 124)⟩ (by simp [nestedRun])
    rw [hafter] at hnode'
    rw [nestedRun, Backend.after_append, hafter]
    exact Store.malformed_of_created hkeeper hholds htime hbody hnode' hdeep key

end PropertyGraph
