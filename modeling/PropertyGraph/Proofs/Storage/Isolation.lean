/-
  PropertyGraph.Proofs.Storage.Isolation

  One node does not feel what happens to another.  As long as owners leave the key of file names
  to the graph, a call that succeeds changes what is read of the node that it is about and of
  no other one.  A bag that names a file itself breaks this: its node owns the raw text of
  another node, and takes it along when it is removed.
-/
import PropertyGraph.Proofs.Storage.Lookup

namespace PropertyGraph.Engine

variable {g : Engine} {tree tree' : FileTree} {base : Place} {used : List String}

/-- The node that a call changes, if it succeeds. -/
def subject (g : Engine) (step : Step) : Option Id :=
  match step.call with
  | .create .node _ => some (.ofString (g.keyOf step.stamp.unique))
  | .edit .node id _ => some id
  | .remove .node id => some id
  | _ => none

/-- The bag that an owner gives for a node. -/
def Step.bag? (step : Step) : Option Bag :=
  match step.call with
  | .create .node body => some body.properties
  | .edit .node _ patch => patch.properties
  | _ => none

/-- An edited node nests no deeper than the bag of the edit, or than a reader takes. -/
theorem Sound.nesting_of_edits (h : g.Sound Number.Whole used tree base)
    (hshallow : (tree.shelf g.root .node).Shallow) {stamp : Stamp} {id : Id} {patch : Patch .node}
    {v : Node} (hedits : g.Edits Number.Whole tree base stamp id patch (.ok v) tree')
    (hbag : ∀ bag, patch.properties = some bag → (Json.object bag).nesting ≤ Node.maxNesting) :
    (Json.object v.properties).nesting ≤ Node.maxNesting := by
  -- a bag that stays is the one of the node as it was seen before
  have hcase : ∀ type (entities : List Node) (kept seen : Node),
      (tree.shelf g.root .node).load type = .ok entities → kept ∈ entities →
      Entity.Rebagged Number.Whole kept seen →
      (Json.object (patch.apply seen stamp.time).properties).nesting ≤ Node.maxNesting := by
    intro type entities kept seen hload hmem hrebagged
    show (Json.object (patch.properties.getD seen.properties)).nesting ≤ _
    cases hpatch : patch.properties with
    | some bag => exact hbag bag hpatch
    | none =>
      obtain ⟨unique, -, hkept⟩ := (h.good .node).all type entities hload kept hmem
      exact Nat.le_trans hrebagged.nesting
        ((Node.withinLimit_iff hkept.id).1 (hshallow type entities hload kept hmem))
  cases hedits with
  | changed _ key type index entities kept seen s hlocated hrebagged =>
    exact hcase type entities kept seen hlocated.loaded hlocated.mem hrebagged
  | moved _ key type type' index entities entities' kept seen s hlocated _ _ _ hrebagged =>
    exact hcase type entities kept seen hlocated.loaded hlocated.mem hrebagged

/-- A call about a relationship leaves the documents of nodes and the raw texts alone. -/
theorem Sound.get_of_relationship (h : g.Sound Number.Whole used tree base) {key : String}
    (hshelf : tree'.shelf g.root .node = tree.shelf g.root .node)
    (hchange : tree.ChangesOnly tree' (Touched .relationship key)) (id : Id) :
    ((g.get .node id).exec tree').1 = ((g.get .node id).exec tree).1 := by
  have hagrees : (g.get .node id).Agrees tree tree' := by
    refine agrees_get (by rw [hshelf]) fun e hget => ?_
    obtain ⟨-, type, entities, hload, he⟩ := h.id_of_get hget
    exact h.seenSame_of_other_class (show EntityClass.node ≠ .relationship from nofun) hchange
      hload he
  exact hagrees.same

/-- What is read of a node after a call about another one that succeeded. -/
theorem Sound.get_of_other (h : g.Sound Number.Whole used tree base) (huniform : g.Uniform)
    (hshallow : (tree.shelf g.root .node).Shallow) {step : Step}
    (haccepts : g.Accepts Number.Whole step) (hfresh : ∀ unique ∈ step.given, unique ∉ used)
    (hslash : ∀ unique ∈ step.given, g.rules ≠ [] → '/' ∉ unique.toList)
    (hsucceeds : ∃ reply, ((g.answer step.stamp step.call).exec tree).1 = .ok reply)
    (hbag : ∀ bag, step.bag? = some bag → (Json.object bag).nesting ≤ Node.maxNesting) {id : Id}
    (hother : g.subject step ≠ some id) :
    ((g.get .node id).exec (g.advance tree step)).1 = ((g.get .node id).exec tree).1 := by
  obtain ⟨reply, hreply⟩ := hsucceeds
  have hanswers := h.answers huniform haccepts
  rw [hreply] at hanswers
  generalize g.advance tree step = tree' at hanswers ⊢
  obtain ⟨stamp, call⟩ := step
  -- a change of a node spares all other identities, if its document can still be read
  cases hanswers with
  | got c id => rfl
  | searched c s => rfl
  | listed c => rfl
  | @created c body _ _ hcreates =>
    cases c with
    | relationship => exact h.get_of_relationship (hcreates.other_class nofun) hcreates.change id
    | node =>
      have hlimit : (Json.object reply.properties).nesting ≤ Node.maxNesting := by
        rw [hcreates.properties]
        exact hbag _ rfl
      obtain ⟨-, hsettles⟩ :=
        h.settles_of_creates hshallow (hfresh _ (List.mem_singleton.2 rfl)) hcreates hlimit
      refine h.get_of_spares (hslash _ (List.mem_singleton.2 rfl)) hsettles.change hsettles.spares ?_
      rintro rfl
      exact hother rfl
  | @edited c id' patch _ _ hedits =>
    cases c with
    | relationship =>
      obtain ⟨key, hchange⟩ := hedits.change
      exact h.get_of_relationship (hedits.other_class nofun) hchange id
    | node =>
      obtain ⟨unique, hmem, rfl, -, hsettles⟩ :=
        h.settles_of_edits hshallow hedits (h.nesting_of_edits hshallow hedits hbag)
      refine h.get_of_spares (fun hrules => h.slashless hrules unique hmem) hsettles.change
        hsettles.spares ?_
      rintro rfl
      exact hother rfl
  | @removed c id' _ _ hdeletes =>
    cases c with
    | relationship =>
      obtain ⟨key, hchange⟩ := hdeletes.change
      exact h.get_of_relationship (hdeletes.other_class nofun) hchange id
    | node =>
      obtain ⟨unique, hmem, rfl, hchange, hspares⟩ := h.spares_of_deletes hshallow hdeletes
      refine h.get_of_spares (fun hrules => h.slashless hrules unique hmem) hchange hspares ?_
      rintro rfl
      exact hother rfl

/-- Nodes are isolated: after every run below an empty root in which owners leave the key of file
    names alone, a call that succeeds with a bag within the nesting limit leaves what is read of
    every node that it is not about. -/
theorem get_of_other_after (hbare : tree.Bare g.root base) (huniform : g.Uniform)
    {steps : List Step} {step : Step} (hallows : g.Allows Number.Whole (steps ++ [step]))
    (hsucceeds : ∃ reply,
      ((g.answer step.stamp step.call).exec (g.after tree steps)).1 = .ok reply)
    (hbag : ∀ bag, step.bag? = some bag → (Json.object bag).nesting ≤ Node.maxNesting) {id : Id}
    (hother : g.subject step ≠ some id) :
    ((g.get .node id).exec (g.after tree (steps ++ [step]))).1
      = ((g.get .node id).exec (g.after tree steps)).1 := by
  rw [after_append]
  exact (sound_after hbare Number.stable_whole huniform hallows.before).get_of_other huniform
    (shallow_after hbare Number.stable_whole huniform hallows.before .node)
    (hallows.accepted step (by simp))
    (fun unique hgiven => hallows.fresh hgiven)
    (fun unique hgiven => hallows.slashless_last hgiven) hsucceeds hbag hother

/-- A memo besides the note. -/
def memo : Step := ⟨⟨"m", 1⟩, .create .node (.node "Memo" [("content", .string "u")])⟩

theorem allows_memo (p : Number → Prop) :
    (Engine.sample [noteRule]).Allows p (noteRun ++ [memo]) where
  distinct := by decide
  slashless _ := by decide
  accepted step hstep := by
    rcases List.mem_append.1 hstep with hnote | hsecond
    · exact allows_noteRun.accepted step hnote
    · obtain rfl := List.mem_singleton.1 hsecond
      exact ⟨by decide, ⟨⟨by decide, trivial, trivial⟩, trivial⟩, fun _ _ => rfl⟩

/-- A memo that is created does not change what is read of the note. -/
theorem get_of_note_after_memo :
    FileTree.sample.Bare "/g" ["g"] ∧ (Engine.sample [noteRule]).Uniform
      ∧ (Engine.sample [noteRule]).Allows Number.Whole (noteRun ++ [memo])
      ∧ (∃ reply, (((Engine.sample [noteRule]).answer memo.stamp memo.call).exec
          ((Engine.sample [noteRule]).after .sample noteRun)).1 = .ok reply)
      ∧ (∀ bag, memo.bag? = some bag → (Json.object bag).nesting ≤ Node.maxNesting)
      ∧ (Engine.sample [noteRule]).subject memo ≠ some (.ofString "n")
      ∧ (((Engine.sample [noteRule]).get .node (.ofString "n")).exec
          ((Engine.sample [noteRule]).after .sample (noteRun ++ [memo]))).1
        = (((Engine.sample [noteRule]).get .node (.ofString "n")).exec
          ((Engine.sample [noteRule]).after .sample noteRun)).1 := by
  have huniform : (Engine.sample [noteRule]).Uniform := uniform_of_length (by decide)
  have hsucceeds : ∃ reply,
      (((Engine.sample [noteRule]).answer memo.stamp memo.call).exec
        ((Engine.sample [noteRule]).after .sample noteRun)).1 = .ok reply :=
    exists_of_isOk (by decide +kernel)
  have hbag : ∀ bag, memo.bag? = some bag →
      (Json.object bag).nesting ≤ Node.maxNesting := by
    rintro _ ⟨⟩
    decide
  have hother : (Engine.sample [noteRule]).subject memo ≠ some (.ofString "n") := by
    intro h
    have hkey : "m" = "n" := Catalog.ofString_inj (Option.some.inj h)
    exact absurd hkey (by decide)
  exact ⟨FileTree.bare_sample, huniform, allows_memo _, hsucceeds, hbag, hother,
    get_of_other_after FileTree.bare_sample huniform (allows_memo _) hsucceeds hbag hother⟩

/-- A memo whose bag names the raw text of the note. -/
def foreignMemo : Step :=
  ⟨⟨"m", 1⟩, .create .node (.node "Memo" [(RawText.fileKey, .string "n.txt")])⟩

/-- Removing a node whose bag names the raw text of another node succeeds, and the other node has
    lost its text. -/
theorem text_lost_with_foreignMemo :
    (((Engine.sample [noteRule]).remove .node (.ofString "m")).exec
        ((Engine.sample [noteRule]).after .sample (noteRun ++ [foreignMemo]))).1.isOk = true
      ∧ textOf (((Engine.sample [noteRule]).get .node (.ofString "n")).exec
          ((Engine.sample [noteRule]).after .sample (noteRun ++ [foreignMemo]))).1 = some "t"
      ∧ textOf (((Engine.sample [noteRule]).get .node (.ofString "n")).exec
          (((Engine.sample [noteRule]).remove .node (.ofString "m")).exec
            ((Engine.sample [noteRule]).after .sample (noteRun ++ [foreignMemo]))).2).1
        = some "" := by
  decide +kernel

end PropertyGraph.Engine
