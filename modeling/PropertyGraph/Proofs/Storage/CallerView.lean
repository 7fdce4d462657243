/-
  PropertyGraph.Proofs.Storage.CallerView

  Owners never see the stored form of a node.  With one raw-text rule, what creating or editing
  a node has returned is what is read of it next, key by key in the same order, wherever the
  rule has put the text.  A bag that names a file itself is taken for a stored form, and
  then what is read differs from what was returned.
-/
import PropertyGraph.Proofs.Storage.Lookup

namespace PropertyGraph

variable {g : Engine} {tree : FileTree} {base : Place}

/-- The node that a call has created or edited. -/
def Call.node? : (call : Call) → call.Reply → Option Node
  | .create .node _, node => some node
  | .edit .node _ _, node => some node
  | _, _ => none

namespace Engine

/-- After every run below an empty root in which owners leave the key of file names alone, a node
    that was created or edited last is read as it was returned. -/
theorem get_of_returned (hbare : tree.Bare g.root base) (hlength : g.rules.length ≤ 1)
    {steps : List Step} {step : Step} (hallows : g.Allows Number.Whole (steps ++ [step]))
    {reply : step.call.Reply}
    (hreply : ((g.answer step.stamp step.call).exec (g.after tree steps)).1 = .ok reply)
    {v : Node} (hv : step.call.node? reply = some v)
    (hlimit : (Json.object v.properties).nesting ≤ Node.maxNesting) :
    ((g.get .node v.id).exec (g.after tree (steps ++ [step]))).1 = .ok (some v) := by
  have huniform := uniform_of_length hlength
  have hsound := sound_after hbare Number.stable_whole huniform hallows.before
  have hshallow := shallow_after hbare Number.stable_whole huniform hallows.before .node
  have hfresh : ∀ unique ∈ step.given, unique ∉ given steps := fun _ => hallows.fresh
  have hanswers := hsound.answers huniform (hallows.accepted step (by simp))
  rw [hreply, ← after_append] at hanswers
  generalize g.after tree (steps ++ [step]) = tree' at hanswers ⊢
  obtain ⟨stamp, call⟩ := step
  -- only a call that returns a node is meant, and a relationship has none
  cases hanswers with
  | got c id => cases hv
  | searched c s => cases hv
  | listed c => cases hv
  | removed hdeletes => cases hv
  | @created c body _ _ hcreates =>
    cases c with
    | relationship => cases hv
    | node =>
      obtain rfl : reply = v := Option.some.inj hv
      obtain ⟨hid, hsettles⟩ := hsound.settles_of_creates hshallow
        (hfresh _ (List.mem_singleton.2 rfl)) hcreates hlimit
      rw [hid, hsettles.exec_get hlength]
  | @edited c id patch _ _ hedits =>
    cases c with
    | relationship => cases hv
    | node =>
      obtain rfl : reply = v := Option.some.inj hv
      obtain ⟨unique, -, rfl, hid, hsettles⟩ := hsound.settles_of_edits hshallow hedits hlimit
      rw [hid, hsettles.exec_get hlength]

/-- Another text, and a type without raw texts. -/
def freePatch : Patch .node :=
  ⟨some "Free", some [("a", .null), ("content", .string "u"), ("b", .null)], ()⟩

/-- The edit of the note that takes it out of the types with raw texts. -/
def freeNote : Step := ⟨⟨"x", 1⟩, .edit .node (.ofString "n") freePatch⟩

theorem allows_freeNote (p : Number → Prop) :
    (Engine.sample [noteRule]).Allows p (noteRun ++ [freeNote]) where
  distinct := by decide
  slashless _ := by decide
  accepted step hstep := by
    rcases List.mem_append.1 hstep with hnote | hedit
    · exact allows_noteRun.accepted step hnote
    · obtain rfl := List.mem_singleton.1 hedit
      refine ⟨by decide, ⟨?_, trivial⟩, ?_⟩
      · rintro _ ⟨⟩
        exact ⟨by decide, trivial, trivial, trivial, trivial⟩
      · rintro _ ⟨⟩ _ _
        rfl

/-- The note is read as the edit has returned it. -/
theorem get_of_returned_freeNote :
    FileTree.sample.Bare "/g" ["g"] ∧ (Engine.sample [noteRule]).rules.length ≤ 1
      ∧ (Engine.sample [noteRule]).Allows Number.Whole (noteRun ++ [freeNote])
      ∧ ∃ reply : Node,
        (((Engine.sample [noteRule]).answer freeNote.stamp freeNote.call).exec
          ((Engine.sample [noteRule]).after .sample noteRun)).1 = .ok reply
        ∧ freeNote.call.node? reply = some reply
        ∧ (Json.object reply.properties).nesting ≤ Node.maxNesting
        ∧ (((Engine.sample [noteRule]).get .node reply.id).exec
          ((Engine.sample [noteRule]).after .sample (noteRun ++ [freeNote]))).1
          = .ok (some reply) := by
  have hlength : (Engine.sample [noteRule]).rules.length ≤ 1 := by decide
  have hrun : ((((Engine.sample [noteRule]).edit freeNote.stamp (.ofString "n") freePatch).exec
      ((Engine.sample [noteRule]).after .sample noteRun)).1.toOption.any
      fun reply => (Json.object reply.properties).nesting ≤ Node.maxNesting) = true := by
    decide +kernel
  obtain ⟨reply, hreply, hshallow⟩ := exists_of_any hrun
  have hlimit := of_decide_eq_true hshallow
  exact ⟨FileTree.bare_sample, hlength, allows_freeNote _, reply, hreply, rfl, hlimit,
    get_of_returned FileTree.bare_sample hlength (allows_freeNote _) hreply rfl hlimit⟩

/-- A note whose bag names a file. -/
def namingNote : Step :=
  ⟨⟨"n", 0⟩, .create .node (.node "Note" [(RawText.fileKey, .string "x")])⟩

/-- The file that a bag names. -/
def fileOf : Outcome (Option Node) → Option String
  | .ok (some node) => (Entries.get? RawText.fileKey node.properties).bind Json.string?
  | _ => none

/-- A note that names a file is returned with that name, and read without it. -/
theorem name_lost_with_namingNote :
    fileOf ((((Engine.sample [noteRule]).answer namingNote.stamp namingNote.call).exec .sample).1.map
        namingNote.call.node?) = some "x"
      ∧ (((Engine.sample [noteRule]).get .node (.ofString "n")).exec
          ((Engine.sample [noteRule]).advance .sample namingNote)).1.isOk = true
      ∧ fileOf (((Engine.sample [noteRule]).get .node (.ofString "n")).exec
          ((Engine.sample [noteRule]).advance .sample namingNote)).1 = none := by
  decide +kernel

end Engine

end PropertyGraph
