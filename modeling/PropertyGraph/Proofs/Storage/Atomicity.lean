/-
  PropertyGraph.Proofs.Storage.Atomicity

  What a call that fails leaves behind.  It may leave directories, raw texts that no entity
  owns, and entries of an index cleaned up, but whatever is asked afterwards is answered as
  before.  One call is an exception: an edit to another type takes the entity out of its old
  document before it looks at the new one, and if that fails, the entity is gone.
-/
import PropertyGraph.Proofs.Json.DoubleText
import PropertyGraph.Proofs.Storage.Contents
import PropertyGraph.Proofs.Storage.Lookup
import PropertyGraph.Proofs.Storage.Progress

namespace PropertyGraph

open FileTree (ChangesOnly DocumentName Writable)
open Naming (indexStem documentStem checkType)

variable {c : EntityClass} {g : Engine} {p : Number → Prop} {tree tree' : FileTree}
  {base : Place} {used : List String}

namespace Shelf

variable {s : Shelf c}

/-- Without an index no lookup finds anything, whatever stands in the documents. -/
theorem get_put_of_blank (hblank : ∀ index, s.index = .ok index → index = []) (type : String)
    (entities : List (Entity c)) (id : Id) : (s.put type entities).get id = s.get id := by
  rw [get, get, index_put]
  cases id.requireText with
  | error f => rfl
  | ok key =>
    cases hindex : s.index with
    | error f => rfl
    | ok index =>
      obtain rfl := hblank index hindex
      rfl

/-- An entry of the index that leads to no entity is as good as none. -/
theorem get_erase_of_stale {key type : String} {index : Entries String}
    {entities : List (Entity c)} (hkeys : (Entries.keys index).Nodup)
    (hindex : s.index = .ok index) (htype : Entries.get? key index = some type)
    (hload : s.load type = .ok entities)
    (hfind : Catalog.find (.ofString key) entities = none) (id : Id) :
    (s.setIndex (index.erase key)).get id = s.get id := by
  rw [get, get, index_setIndex, hindex]
  cases hid : id.requireText with
  | error f => rfl
  | ok other =>
    simp only [bind, Except.bind]
    by_cases hother : other = key
    · subst hother
      obtain rfl := Catalog.eq_ofString_of_requireText hid
      rw [Entries.get?_erase_self hkeys, htype]
      simp only [hload, hfind]
    · rw [Entries.get?_erase_of_ne hother]
      rfl

/-- An entity that is not in its document any more is not found. -/
theorem Located.get_put_eq_none {id : Id} {key type : String}
    {index : Entries String} {entities rest read : List (Entity c)} {e : Entity c}
    (h : s.Located id key type index entities e) (hload : (s.put type rest).load type = .ok read)
    (hfind : Catalog.find id read = none) : (s.put type rest).get id = .ok none := by
  simp [get, h.named, index_put, h.indexed, h.typed, hload, hfind, bind, Except.bind, pure,
    Except.pure]

end Shelf

namespace Engine

/-- Every lookup and every search is answered in one tree as in the other. -/
structure Unchanged (g : Engine) (tree tree' : FileTree) : Prop where
  get : ∀ c id, ((g.get c id).exec tree').1 = ((g.get c id).exec tree).1
  search : ∀ c s, ((g.search c s).exec tree').1 = ((g.search c s).exec tree).1

theorem Unchanged.refl (g : Engine) (tree : FileTree) : g.Unchanged tree tree where
  get _ _ := rfl
  search _ _ := rfl

namespace Sound

/-- Changes of documents alone leave all entities as they were seen. -/
theorem seenSame_of_documents (h : g.Sound p used tree base)
    (hchange : tree.ChangesOnly tree' DocumentName) {type : String} {entities : List (Entity c)}
    (hload : (tree.shelf g.root c).load type = .ok entities) {e : Entity c} (he : e ∈ entities) :
    g.SeenSame tree tree' e := by
  obtain ⟨other, -, hkept⟩ := (h.good c).all type entities hload e he
  exact view_of_changesOnly hkept.keeps hchange fun _ => not_documentName_rawLast _

/-- Nothing is answered differently after a call about an entity of a class, if lookups in the
    class find the same entities, the known types are the same with the same documents, and all
    entities of the class are seen as before. -/
theorem unchanged (h : g.Sound p used tree base) {key : String}
    (hchange : tree.ChangesOnly tree' (Touched c key))
    (hother : ∀ c', c' ≠ c → tree'.shelf g.root c' = tree.shelf g.root c')
    (hget : ∀ id, (tree'.shelf g.root c).get id = (tree.shelf g.root c).get id)
    (htypes : (tree'.shelf g.root c).types = (tree.shelf g.root c).types)
    (hload : ∀ known, (tree.shelf g.root c).types = .ok known → ∀ type ∈ known,
      (tree'.shelf g.root c).load type = (tree.shelf g.root c).load type)
    (hseen : ∀ type entities, (tree.shelf g.root c).load type = .ok entities →
      ∀ e ∈ entities, g.SeenSame tree tree' e) : g.Unchanged tree tree' := by
  -- entities of the other class have no part in the change, so they are seen as before too
  have hseen' : ∀ c' type entities, (tree.shelf g.root c').load type = .ok entities →
      ∀ e ∈ entities, g.SeenSame tree tree' e := by
    intro c' type entities hloaded e he
    by_cases hclass : c' = c
    · subst hclass
      exact hseen type entities hloaded e he
    · exact h.seenSame_of_other_class hclass hchange hloaded he
  constructor
  · intro c' id
    have hagrees : (g.get c' id).Agrees tree tree' := by
      refine agrees_get ?_ fun e hfound => ?_
      · by_cases hclass : c' = c
        · subst hclass
          exact hget id
        · rw [hother c' hclass]
      · obtain ⟨-, type, entities, hloaded, he⟩ := h.id_of_get hfound
        exact hseen' c' type entities hloaded e he
    exact hagrees.same
  · intro c' s
    have hagrees : (g.search c' s).Agrees tree tree' := by
      by_cases hclass : c' = c
      · subst hclass
        exact agrees_search s htypes hload (hseen' c')
      · have hshelf := hother c' hclass
        exact agrees_search s (by rw [hshelf]) (fun _ _ _ _ => by rw [hshelf]) (hseen' c')
    exact hagrees.same

/-- A call that has left the documents alone. -/
theorem unchanged_of_shelf (h : g.Sound p used tree base) {key : String}
    (hbecomes : tree.Becomes tree' g.root base key (tree.shelf g.root c))
    (hseen : ∀ type entities, (tree.shelf g.root c).load type = .ok entities →
      ∀ e ∈ entities, g.SeenSame tree tree' e) : g.Unchanged tree tree' := by
  have hsame := hbecomes.here
  exact h.unchanged hbecomes.change hbecomes.other (fun id => by rw [hsame]) (by rw [hsame])
    (fun _ _ _ _ => by rw [hsame]) hseen

theorem unchanged_of_creates (h : g.Sound p used tree base) {stamp : Stamp}
    (hfresh : stamp.unique ∉ used) (hslash : g.rules ≠ [] → '/' ∉ stamp.unique.toList)
    {body : Body c} {f : Failure} (hcreates : g.Creates p tree base stamp body (.error f) tree') :
    g.Unchanged tree tree' := by
  have hseen : ∀ type entities, (tree.shelf g.root c).load type = .ok entities →
      ∀ e ∈ entities, g.SeenSame tree tree' e := fun type entities hload e he =>
    h.seenSame hslash hcreates.change hload he (h.id_ne hfresh hload he)
  cases hcreates with
  | refused _ _ hbecomes => exact h.unchanged_of_shelf hbecomes hseen
  | unindexed _ _ entities s _ _ _ hindex _ hbecomes =>
    -- the entity stands in a document that no index and no list of types leads to
    obtain ⟨hindexBlank, htypesBlank⟩ := (h.ready c).blank hindex
    refine h.unchanged hbecomes.change hbecomes.other (fun id => ?_) ?_
      (fun known hknown type htype => ?_) hseen
    · rw [hbecomes.here, Shelf.get_put_of_blank hindexBlank]
    · rw [hbecomes.here, Shelf.types_put]
    · rw [htypesBlank known hknown] at htype
      cases htype

theorem unchanged_of_edits (h : g.Sound p used tree base) {stamp : Stamp} {id : Id}
    {patch : Patch c} {f : Failure}
    (hedits : g.Edits p tree base stamp id patch (.error f) tree')
    (hstays : ¬ g.MovesOut tree stamp id patch) : g.Unchanged tree tree' := by
  cases hedits with
  | refused _ _ => exact .refl g tree
  | lost _ _ key type index entities kept seen _ _ _ hmoves _ => exact absurd hmoves hstays
  | unwritten _ _ key type index entities kept hlocated _ hbecomes hkeeps =>
    obtain ⟨unique, hmem, rfl⟩ := h.key_of_located hlocated
    refine h.unchanged_of_shelf hbecomes fun type' entities' hload e he => ?_
    by_cases hsame : e.id = .ofString (g.keyOf unique)
    · -- it is the entity of the call, which has no raw text
      obtain ⟨rfl, rfl⟩ := h.eq_of_located hlocated hload he hsame
      exact seenSame_of_keeps_everywhere hkeeps tree tree'
    · exact h.seenSame (fun hrules => h.slashless hrules unique hmem) hbecomes.change hload he hsame

theorem unchanged_of_deletes (h : g.Sound p used tree base) {id : Id} {f : Failure}
    (hdeletes : g.Deletes tree base c id (.error f) tree') : g.Unchanged tree tree' := by
  cases hdeletes with
  | refused _ => exact .refl g tree
  | stale _ _ key type index entities hkey hindex htype hload hfind hupdates =>
    -- the index has lost an entry that led nowhere
    obtain rfl := Catalog.eq_ofString_of_requireText hkey
    have hkeys := (h.ready c).keys index hindex
    have hchange : tree.ChangesOnly tree' (Touched c key) := hupdates.change.mono fun _ => .inl
    refine h.unchanged hchange hupdates.other (fun other => ?_) ?_ (fun known _ type' _ => ?_)
      fun type' entities' hload' e he => h.seenSame_of_documents hupdates.change hload' he
    · rw [hupdates.here, Shelf.get_erase_of_stale hkeys hindex htype hload hfind]
    · rw [hupdates.here, Shelf.types_setIndex]
    · rw [hupdates.here, Shelf.load_setIndex]

end Sound

/-- An edit that moves an entity to a type whose document cannot be written fails, and all that it
    has done is to take the entity out of its document. -/
theorem Edits.lost_of_unwritable {stamp : Stamp} {id : Id} {patch : Patch c} {type : String}
    {outcome : Outcome (Entity c)} (hedits : g.Edits p tree base stamp id patch outcome tree')
    (hmoves : g.MovesOut tree stamp id patch) (htype : patch.type = some type)
    (hunwritable : ¬ Writable g.root (documentStem type c)) :
    outcome.isOk = false ∧ ∃ key old index entities kept,
      (tree.shelf g.root c).Located id key old index entities kept
      ∧ tree'.shelf g.root c
        = (tree.shelf g.root c).put old (entities.filter fun e => !e.id.same id) := by
  have hnew : ∀ seen : Entity c, (patch.apply seen stamp.time).type = type := fun seen => by
    rw [Patch.apply, htype]
    rfl
  cases hedits with
  | refused _ hstays => exact absurd hmoves hstays
  | unwritten _ _ _ _ _ _ _ _ hstays => exact absurd hmoves hstays
  | lost _ _ key old index entities kept seen _ hlocated _ _ hbecomes =>
    exact ⟨rfl, key, old, index, entities, kept, hlocated, hbecomes.here⟩
  | changed _ key old index entities kept seen s hlocated _ hkept hstored _ =>
    -- what is stored has the new type, so it has not stayed under the old one
    obtain ⟨old', kept', seen', hlocate, -, hne, -, -⟩ := hmoves
    rw [Catalog.exec_locate, hlocated.locate_eq] at hlocate
    obtain ⟨rfl, rfl⟩ := Prod.mk.inj (Except.ok.inj hlocate)
    rw [hnew, ← hnew seen, ← hstored.rebagged.type, hkept.type] at hne
    exact absurd rfl hne
  | moved _ key old type' index entities entities' kept seen s _ _ _ hwritable _ hkept hstored _ =>
    rw [← hkept.type, hstored.rebagged.type, hnew] at hwritable
    exact absurd hwritable hunwritable

/-- A step that takes a stored entity to the document of another type. -/
def Step.MovesOut (g : Engine) (tree : FileTree) (step : Step) : Prop :=
  match step.call with
  | .edit _ id patch => g.MovesOut tree step.stamp id patch
  | _ => False

/-- After every run below an empty root, a call that fails changes no answer, unless it is an edit
    that has begun to take an entity to another document. -/
theorem unchanged_after_failure (hbare : tree.Bare g.root base) (huniform : g.Uniform)
    {steps : List Step} {step : Step} (hallows : g.Allows Number.InRange (steps ++ [step]))
    {f : Failure}
    (hfails : ((g.answer step.stamp step.call).exec (g.after tree steps)).1 = .error f)
    (hstays : ¬ step.MovesOut g (g.after tree steps)) :
    g.Unchanged (g.after tree steps) (g.after tree (steps ++ [step])) := by
  have hsound := sound_after hbare Number.stable_inRange huniform hallows.before
  have hfresh : ∀ unique ∈ step.given, unique ∉ given steps := fun _ => hallows.fresh
  have hslash : ∀ unique ∈ step.given, g.rules ≠ [] → '/' ∉ unique.toList :=
    fun _ => hallows.slashless_last
  have hanswers := hsound.answers huniform (hallows.accepted step (by simp))
  rw [hfails, ← after_append] at hanswers
  generalize g.after tree (steps ++ [step]) = tree' at hanswers ⊢
  obtain ⟨stamp, call⟩ := step
  -- reading changes nothing; each kind of change has its own list of failures
  cases hanswers with
  | got c id => exact .refl g _
  | searched c s => exact .refl g _
  | listed c => exact .refl g _
  | created hcreates =>
    exact hsound.unchanged_of_creates (hfresh _ (List.mem_singleton.2 rfl))
      (hslash _ (List.mem_singleton.2 rfl)) hcreates
  | edited hedits => exact hsound.unchanged_of_edits hedits hstays
  | removed hdeletes => exact hsound.unchanged_of_deletes hdeletes

/-- Without rules an edit of a stored entity to a type that is not accepted is refused. -/
theorem exec_edit_of_checkType (hrules : g.rules = []) {stamp : Stamp} {id : Id} {patch : Patch c}
    {key type : String} {index : Entries String} {entities : List (Entity c)} {kept : Entity c}
    (hlocated : (tree.shelf g.root c).Located id key type index entities kept) {f : Failure}
    (hcheck : checkType (patch.apply kept stamp.time).type = .error f) :
    (g.edit stamp id patch).exec tree = (.error f, tree) := by
  have hlocate : (Catalog.locate g.root c id).exec tree = (.ok (type, kept), tree) := by
    rw [Catalog.exec_locate, hlocated.locate_eq]
  rw [edit, FileTask.exec_bind_of_ok hlocate]
  simp only
  rw [FileTask.exec_bind_of_ok (view_of_rules hrules kept tree)]
  refine FileTask.exec_bind_of_error ?_
  rw [FileTask.exec_ofOutcome, hcheck]

/-- A run that creates a node without properties. -/
def plainRun : List Step := [⟨⟨"n", 0⟩, .create .node (.node "A" [])⟩]

/-- The edit of that node that gives it another type. -/
def retype (type : String) : Step := ⟨⟨"x", 1⟩, .edit .node (.ofString "n") ⟨some type, none, ()⟩⟩

theorem allows_retype (p : Number → Prop) (type : String) :
    (Engine.sample []).Allows p (plainRun ++ [retype type]) where
  distinct := show ["n"].Nodup by decide
  slashless hrules := absurd rfl hrules
  accepted step hstep := by
    rcases List.mem_append.1 hstep with hcreate | hedit
    · obtain rfl := List.mem_singleton.1 hcreate
      exact ⟨by decide, ⟨⟨List.nodup_nil, trivial⟩, trivial⟩, fun _ hrules => absurd rfl hrules⟩
    · obtain rfl := List.mem_singleton.1 hedit
      exact ⟨show TimeFits 1 by decide, ⟨nofun, trivial⟩, nofun⟩

/-- The node of the run stands in the document of its type, and nothing else does. -/
theorem located_after_plainRun : ∃ index entities kept,
    (((Engine.sample []).after .sample plainRun).shelf "/g" .node).Located (.ofString "n") "n" "A"
        index entities kept
      ∧ ∀ e ∈ entities, e.id = .ofString "n" := by
  have hindex : Writable "/g" (indexStem .node) := writable_index_sample .node
  have hproper : (Body.node "A" []).Proper Number.InRange := ⟨⟨List.nodup_nil, trivial⟩, trivial⟩
  obtain ⟨tree', hexec, hconsistent, hfollows⟩ := created_of_bare (g := Engine.sample [])
    FileTree.bare_sample Number.stable_inRange rfl hindex ⟨"n", 0⟩ (by decide) hproper
    ⟨by decide, trivial⟩ rfl (Catalog.writable_document hindex rfl (by decide))
  obtain rfl : (Engine.sample []).after .sample plainRun = tree' := congrArg Prod.snd hexec
  cases hfollows with
  | @created _ _ key e kept _ he _ _ hhere hrereads =>
    obtain rfl : "n" = key := Catalog.ofString_inj (congrArg Entity.id he)
    obtain ⟨index, entities, hlocated⟩ := hconsistent.exists_located hindex hhere
    have htype : kept.type = "A" := hrereads.type
    rw [htype] at hlocated
    refine ⟨index, entities, kept, hlocated, fun e he => ?_⟩
    -- every identity in the documents is one that the run was given
    obtain ⟨unique, hunique, hkept⟩ :=
      (hconsistent.sound.good .node).all "A" entities hlocated.loaded e he
    rw [hkept.id, List.mem_singleton.1 hunique]
    rfl

/-- An edit to a type that cannot be part of a file name is refused and changes nothing. -/
theorem unchanged_after_retype :
    FileTree.sample.Bare "/g" ["g"] ∧ (Engine.sample []).Uniform
      ∧ (Engine.sample []).Allows Number.InRange (plainRun ++ [retype ""])
      ∧ ∃ f, (((Engine.sample []).answer (retype "").stamp (retype "").call).exec
          ((Engine.sample []).after .sample plainRun)).1 = .error f
        ∧ ¬ (retype "").MovesOut (Engine.sample []) ((Engine.sample []).after .sample plainRun)
        ∧ (Engine.sample []).Unchanged ((Engine.sample []).after .sample plainRun)
          ((Engine.sample []).after .sample (plainRun ++ [retype ""])) := by
  have huniform : (Engine.sample []).Uniform := uniform_of_length (by decide)
  obtain ⟨_, _, kept, hlocated, -⟩ := located_after_plainRun
  have hfails : (((Engine.sample []).answer (retype "").stamp (retype "").call).exec
      ((Engine.sample []).after .sample plainRun)).1 = .error (.typeName "") :=
    congrArg Prod.fst (exec_edit_of_checkType (g := Engine.sample []) rfl hlocated rfl)
  have hstays : ¬ (retype "").MovesOut (Engine.sample [])
      ((Engine.sample []).after .sample plainRun) := by
    rintro ⟨old, kept, seen, -, -, -, hcheck, -⟩
    cases hcheck
  exact ⟨FileTree.bare_sample, huniform, allows_retype _ _, _, hfails, hstays,
    unchanged_after_failure FileTree.bare_sample huniform (allows_retype _ _) hfails hstays⟩

/-- An edit of that node to a type that is accepted, and whose document cannot be written, fails,
    and the node is gone. -/
theorem lost_with_retype {type : String} (hcheck : checkType type = .ok ()) (hne : type ≠ "A")
    (hunwritable : ¬ Writable "/g" (documentStem type .node)) :
    (((Engine.sample []).answer (retype type).stamp (retype type).call).exec
        ((Engine.sample []).after .sample plainRun)).1.isOk = false
      ∧ (((Engine.sample []).get .node (.ofString "n")).exec
          ((Engine.sample []).after .sample (plainRun ++ [retype type]))).1 = .ok none := by
  have huniform : (Engine.sample []).Uniform := uniform_of_length (by decide)
  have hsound := sound_after FileTree.bare_sample Number.stable_inRange huniform
    (allows_retype _ type).before
  obtain ⟨index, entities, kept, hlocated, hids⟩ := located_after_plainRun
  have hmoves : (Engine.sample []).MovesOut ((Engine.sample []).after .sample plainRun)
      (retype type).stamp (.ofString "n") (⟨some type, none, ()⟩ : Patch .node) := by
    refine ⟨"A", kept, kept, ?_, rfl, hne, hcheck, _, rfl⟩
    exact (congrArg Prod.fst (Catalog.exec_locate ..)).trans hlocated.locate_eq
  have hanswers := hsound.answers huniform
    ((allows_retype _ type).accepted (retype type) (by simp))
  rw [← after_append] at hanswers
  generalize (Engine.sample []).after .sample (plainRun ++ [retype type]) = tree' at hanswers ⊢
  cases hanswers with
  | edited hedits =>
    -- The edit has located the node again: what it came upon is what the run left.
    obtain ⟨hfails, key, old, index', entities', kept', hlocated', hshelf⟩ :=
      hedits.lost_of_unwritable hmoves rfl hunwritable
    obtain rfl : "n" = key := Catalog.ofString_inj hlocated'.id_eq
    obtain rfl := Except.ok.inj (hlocated.indexed.symm.trans hlocated'.indexed)
    obtain rfl : "A" = old := Option.some.inj (hlocated.typed.symm.trans hlocated'.typed)
    obtain rfl := Except.ok.inj (hlocated.loaded.symm.trans hlocated'.loaded)
    refine ⟨hfails, ?_⟩
    -- The node was the only one in its document, and the edit has stopped between the two
    -- documents.
    have hempty : entities.filter (fun e => !e.id.same (.ofString "n")) = [] := by
      refine List.filter_eq_nil_iff.2 fun e he => ?_
      rw [hids e he, Catalog.same_ofString.2 rfl]
      decide
    have hload : ((((Engine.sample []).after .sample plainRun).shelf "/g" .node).put "A" []).load
        "A" = .ok [] := Shelf.load_put_of_entities hlocated.loaded nofun nofun
    rw [exec_get_of_rules rfl]
    refine (congrArg (fun s : Shelf .node => s.get (.ofString "n")) hshelf).trans ?_
    rw [hempty]
    exact hlocated.get_put_eq_none hload rfl

/-- A type that is accepted, but too long for the name of a file. -/
def longType : String := String.ofList (List.replicate 250 'x')

theorem utf8Len_replicate (n : Nat) : String.utf8Len (List.replicate n 'x') = n := by
  induction n with
  | zero => rfl
  | succ n ih =>
    rw [List.replicate_succ, String.utf8Len_cons, ih]
    rfl

/-- The long type is accepted. -/
theorem checkType_longType : checkType longType = .ok () := by
  have haccepted : ∀ n, Naming.isTypeName (String.ofList (List.replicate (n + 1) 'x')) = true := by
    intro n
    simp [Naming.isTypeName]
  exact if_pos (haccepted 249)

theorem utf8ByteSize_longType : longType.utf8ByteSize = 250 :=
  (String.utf8ByteSize_ofList _).trans (utf8Len_replicate 250)

theorem longType_unwritable : ¬ Writable "/g" (documentStem longType .node) := by
  rintro ⟨-, hsize⟩
  rw [documentStem, String.utf8ByteSize_append, String.utf8ByteSize_append,
    String.utf8ByteSize_append, utf8ByteSize_longType] at hsize
  have htail : ".".utf8ByteSize + EntityClass.node.name.utf8ByteSize + ".json.tmp".utf8ByteSize
      = 14 := rfl
  rw [FileTree.maxName] at hsize
  omega

/-- An edit to such a type fails, and the node is gone. -/
theorem lost_after_retype :
    (((Engine.sample []).answer (retype longType).stamp (retype longType).call).exec
        ((Engine.sample []).after .sample plainRun)).1.isOk = false
      ∧ ((((Engine.sample []).get .node (.ofString "n")).exec
          ((Engine.sample []).after .sample plainRun)).1.toOption.any Option.isSome) = true
      ∧ ((((Engine.sample []).get .node (.ofString "n")).exec
          ((Engine.sample []).after .sample (plainRun ++ [retype longType]))).1.toOption.any
            Option.isNone) = true := by
  have hne : longType ≠ "A" := by
    intro h
    have hsize := utf8ByteSize_longType
    rw [h] at hsize
    revert hsize
    decide
  obtain ⟨hfails, hgone⟩ := lost_with_retype checkType_longType hne longType_unwritable
  obtain ⟨_, _, _, hlocated, -⟩ := located_after_plainRun
  refine ⟨hfails, ?_, by rw [hgone]; rfl⟩
  rw [exec_get_of_rules rfl]
  show ((((Engine.sample []).after .sample plainRun).shelf "/g" .node).get
    (.ofString "n")).toOption.any Option.isSome = true
  rw [hlocated.get_eq]
  rfl

end Engine

end PropertyGraph
