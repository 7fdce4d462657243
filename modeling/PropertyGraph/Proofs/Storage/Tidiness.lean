/-
  PropertyGraph.Proofs.Storage.Tidiness

  The directory of raw texts after every run.  What stands there is told by what owners see: the
  file of every node of a covered type that is seen with a text under the property of the rule,
  with that text, and nothing else.  A run is about all that can be asked of a graph; duplicating a
  node is a lookup and a creation, and so it keeps what both keep.
-/
import PropertyGraph.Proofs.Storage.RawFiles

namespace PropertyGraph

open RawText (fileKey)
open Naming (rawName)

variable {c : EntityClass} {g : Engine} {p : Number → Prop} {key : String} {base : Place}
  {tree tree' : FileTree} {used : List String} {rule : RawText} {stamp : Stamp}

namespace Engine

/-! ## What owners see -/

/-- A node that names its file is seen with the text in it. -/
theorem exec_view_of_filed (hrules : g.rules = [rule]) {s : Node} (hfiled : rule.Filed key s)
    (hkeeps : g.KeepsNode tree base key s)
    (hfile : RawText.textAt fileKey s = some (rawName key)) :
    rule.covers s.type = true ∧ ∃ text node, tree.HasRaw g.root base key text
      ∧ (g.view s).exec tree = (.ok node, tree) ∧ node.type = s.type
      ∧ Entries.get? rule.property node.properties = some (.string text) := by
  cases hfiled with
  | inline _ hnone =>
    rw [hnone] at hfile
    cases hfile
  | apart hcovers hproperty _ =>
    cases hkeeps with
    | unruled hnil => rw [hrules] at hnil; cases hnil
    | inline hnone =>
      rw [RawText.textAt_of_none hnone] at hfile
      cases hfile
    | apart text hdistinct _ hnamed hraw =>
      have hview : (g.view s).exec tree
          = (.ok (RawText.merged (g.rulesFor s.type) s text), tree) :=
        RawText.exec_mergeAll (fun rule hrule => hdistinct rule (mem_rules hrule)) hnamed hraw.read
      refine ⟨hcovers, text, _, hraw, hview, ?_, ?_⟩
      · rw [rulesFor_of_rule hrules, if_pos hcovers]
        rfl
      · rw [rulesFor_of_rule hrules, if_pos hcovers]
        refine RawText.get?_renameEntry_target hnamed fun e he hkey => ?_
        exact absurd (List.mem_map.2 ⟨e, he, hkey⟩) (Entries.get?_eq_none_iff.1 hproperty)

/-- A lookup that finds a node has seen an entry of the table. -/
theorem exec_get_eq_some {id : Id} {node : Node}
    (h : (g.get .node id).exec tree = (.ok (some node), tree)) :
    ∃ key s, id = .ofString key ∧ g.table tree .node key = some s
      ∧ (g.view s).exec tree = (.ok node, tree) := by
  rw [get] at h
  obtain ⟨found, tree₁, hget, h⟩ := FileTask.exec_bind_eq_ok h
  rw [Catalog.exec_get] at hget
  obtain ⟨hfound, rfl⟩ := Prod.mk.inj hget
  cases found with
  | none => cases h
  | some s =>
    obtain ⟨seen, tree₁, hview, h⟩ := FileTask.exec_bind_eq_ok h
    obtain ⟨hseen, rfl⟩ := Prod.mk.inj h
    obtain rfl := Option.some.inj (Except.ok.inj hseen)
    obtain ⟨key, type, index, entities, hlocated⟩ := Shelf.located_of_get hfound
    obtain rfl := hlocated.id_eq
    exact ⟨key, s, rfl, by rw [table, Shelf.lookup, hfound]; rfl, hview⟩

theorem exec_get_of_view {s node : Node} (hs : g.table tree .node key = some s)
    (hview : (g.view s).exec tree = (.ok node, tree)) :
    (g.get .node (.ofString key)).exec tree = (.ok (some node), tree) := by
  have hget : (Catalog.get g.root .node (.ofString key)).exec tree = (.ok (some s), tree) := by
    rw [Catalog.exec_get, Shelf.get_of_lookup hs]
  rw [get, FileTask.exec_bind_of_ok hget]
  exact FileTask.exec_bind_of_ok hview

/-- What stands in a tidy directory: for every node of a type that the rule covers and that its
    owner sees with a text, the file of its identity with that text, and nothing else. -/
theorem Tidy.occupant_iff (ht : g.Tidy rule tree base) (h : g.Consistent p used tree base)
    (hrules : g.rules = [rule]) (hflat : '/' ∉ (g.idPrefix.getD "").toList) {names : List String}
    (hne : names ≠ []) (entry : FileEntry) :
    tree.occupant (base ++ "raw" :: names) = some entry ↔ ∃ key text node,
      names = [key ++ ".txt"] ∧ entry = .file text
      ∧ ((g.get .node (.ofString key)).exec tree).1 = .ok (some node)
      ∧ rule.covers node.type = true
      ∧ Entries.get? rule.property node.properties = some (.string text) := by
  -- the node of an entry is kept under an identity without slashes
  have hkept : ∀ key s, g.table tree .node key = some s →
      g.KeepsNode tree base key s ∧ '/' ∉ key.toList := by
    intro key s hs
    obtain ⟨type, entities, hload, hmem, hid⟩ := h.table_eq_some_iff.1 hs
    obtain ⟨unique, hunique, hkept⟩ := (h.sound.good .node).all type entities hload s hmem
    obtain rfl : key = g.keyOf unique := Catalog.ofString_inj (hid.symm.trans hkept.id)
    exact ⟨keeps_node.1 hkept.keeps, slashless_keyOf (fun _ => hflat)
      (fun hsome => h.sound.slashless hsome unique hunique) (by simp [hrules])⟩
  constructor
  · intro hentry
    obtain ⟨key, s, rfl, hs, hfile⟩ := ht.owned names entry hne hentry
    obtain ⟨hkeeps, hslash⟩ := hkept key s hs
    obtain ⟨hcovers, text, node, hraw, hview, htype, htext⟩ :=
      exec_view_of_filed hrules (ht.filed key s hs) hkeeps hfile
    have hthere := hraw.occupant h.sound.hosts.rooted hslash
    exact ⟨key, text, node, rfl, Option.some.inj (hentry.symm.trans hthere),
      congrArg Prod.fst (exec_get_of_view hs hview), htype ▸ hcovers, htext⟩
  · rintro ⟨key, text, node, rfl, rfl, hget, hcovers, htext⟩
    obtain ⟨key', s, hkey, hs, hview⟩ :=
      exec_get_eq_some (Prod.ext hget (exec_get_unchanged _ _ _ _))
    obtain rfl : key = key' := Catalog.ofString_inj hkey
    obtain ⟨hkeeps, hslash⟩ := hkept key s hs
    cases ht.filed key s hs with
    | apart _ _ hfile =>
      obtain ⟨-, text', node', hraw, hview', -, htext'⟩ :=
        exec_view_of_filed hrules (ht.filed key s hs) hkeeps hfile
      obtain rfl := Except.ok.inj (Prod.mk.inj (hview.symm.trans hview')).1
      obtain rfl := Json.string.inj (Option.some.inj (htext.symm.trans htext'))
      exact hraw.occupant h.sound.hosts.rooted hslash
    | inline hnone hunnamed =>
      -- such a node is seen as it is stored
      have hsame : (g.view s).exec tree = (.ok s, tree) := by
        cases hkeeps with
        | unruled hnil => rw [hrules] at hnil; cases hnil
        | inline hfile => exact RawText.exec_mergeAll_none _ hfile tree
        | apart _ _ _ hfile _ =>
          rw [RawText.textAt_eq_some_iff.2 hfile] at hunnamed
          cases hunnamed
      obtain rfl := Except.ok.inj (Prod.mk.inj (hview.symm.trans hsame)).1
      rw [RawText.textOf, if_pos hcovers, RawText.textAt_eq_some_iff.2 htext] at hnone
      cases hnone

/-! ## Actions -/

/-- A node that is found has values in range, and a bag as owners give it. -/
theorem Consistent.proper_of_get (h : g.Consistent p used tree base) {id : Id} {node : Node}
    (hget : (g.get .node id).exec tree = (.ok (some node), tree)) :
    node.Proper p ∧ g.PlainBag .node node.properties := by
  obtain ⟨key, s, rfl, hs, hview⟩ := exec_get_eq_some hget
  obtain ⟨type, entities, hload, hmem, -⟩ := h.table_eq_some_iff.1 hs
  obtain ⟨unique, -, hkept⟩ := (h.sound.good .node).all type entities hload s hmem
  obtain ⟨seen, hview', hrebagged, hplain⟩ := exec_view (p := p) hkept.keeps
  obtain rfl := Except.ok.inj (Prod.mk.inj (hview.symm.trans hview')).1
  exact ⟨hrebagged.proper hkept.proper, hplain⟩

end Engine

/-- An action that a graph accepts. -/
def Action.Suits (a : Action) (g : Engine) (p : Number → Prop) : Prop :=
  match a.operation with
  | .call request => g.Accepts p ⟨a.stamp, request⟩
  | .duplicate _ => TimeFits a.stamp.time

/-- An action fails because a file was refused or its text is malformed. -/
def Action.FailsOfFiles (a : Action) (state : Suite × FileTree) : Prop :=
  ∃ f, (a.perform state).1 = .error f ∧ f.OfFiles

/-- Whether an action succeeds or fails for another reason, and leaves only files within the
    nesting limit. -/
def Action.unhindered (a : Action) (state : Suite × FileTree) : Bool :=
  (match (a.perform state).1 with
    | .error .io | .error .malformed => false
    | _ => true) && (a.perform state).2.2.withinLimit

theorem Action.not_failsOfFiles {a : Action} {state : Suite × FileTree}
    (h : a.unhindered state = true) : ¬ a.FailsOfFiles state := by
  rintro ⟨f, hf, hfiles⟩
  rw [unhindered, hf] at h
  cases f <;> first | exact hfiles | cases h

namespace Engine

/-- An action leaves index and documents in agreement, and the directory of raw texts tidy. -/
def KeepsTidy (g : Engine) (rule : RawText) (p : Number → Prop) (used : List String)
    (tree : FileTree) (base : Place) (a : Action) : Prop :=
  ∃ outcome tree', a.perform (.engine g, tree) = (outcome, .engine g, tree')
    ∧ g.Consistent p used tree' base ∧ g.Tidy rule tree' base

section Step

variable (h : g.Consistent p used tree base) (ht : g.Tidy rule tree base) (hp : Number.Stable p)
  (hrules : g.rules = [rule]) (hproperty : rule.property ≠ fileKey)
  (hflat : '/' ∉ (g.idPrefix.getD "").toList)

include h ht hp hrules hproperty hflat

/-- A call keeps the agreement and the order. -/
theorem tidy_advance (step : Step) (haccepts : g.Accepts p step)
    (hfresh : ∀ unique ∈ step.given, unique ∉ used)
    (hslash : ∀ unique ∈ step.given, '/' ∉ unique.toList) (hfiles : ¬ g.FailsOfFiles tree step)
    (hlimit : ∀ c, ((g.advance tree step).shelf g.root c).WithinLimit) :
    g.Consistent p (used ++ step.given) (g.advance tree step) base
      ∧ g.Tidy rule (g.advance tree step) base :=
  ⟨h.after_call hp (uniform_of_length (by rw [hrules]; rfl)) haccepts hfresh
      (fun unique hgiven _ => hslash unique hgiven) hfiles hlimit,
    ht.after_call h hp hrules hproperty hflat haccepts hfresh hslash hfiles hlimit⟩

/-- A node is duplicated by a lookup, which changes nothing, and a creation with what was found. -/
theorem keepsTidy_duplicate {id : Id} (htime : TimeFits stamp.time) (hfresh : stamp.unique ∉ used)
    (hslash : '/' ∉ stamp.unique.toList)
    (hfiles : ¬ Action.FailsOfFiles ⟨stamp, .duplicate id⟩ (.engine g, tree))
    (hlimit : ∀ c, ((Action.perform ⟨stamp, .duplicate id⟩ (.engine g, tree)).2.2.shelf
      g.root c).WithinLimit) :
    g.KeepsTidy rule p (used ++ [stamp.unique]) tree base ⟨stamp, .duplicate id⟩ := by
  have huniform : g.Uniform := uniform_of_length (by rw [hrules]; rfl)
  obtain ⟨found, tree₁, hexec, hanswers⟩ :=
    h.sound.exec_answer huniform (show g.Accepts p ⟨stamp, .get .node id⟩ from trivial)
  obtain rfl : tree = tree₁ := by cases hanswers; rfl
  have hrun := SuiteTask.run_duplicate stamp id (.engine g) tree
  rw [run_of_exec hexec] at hrun
  have hstill : g.Consistent p (used ++ [stamp.unique]) tree base := by
    refine h.mono_of_slashless (fun _ => List.mem_append_left _) fun hne unique hmem => ?_
    rcases List.mem_append.1 hmem with hmem | hmem
    · exact h.sound.slashless hne unique hmem
    · exact List.mem_singleton.1 hmem ▸ hslash
  cases found with
  | error failure => exact ⟨_, _, Action.perform_of_run hrun, hstill, ht⟩
  | ok found =>
    cases hfound : (show Option Node from found) with
    | none =>
      obtain rfl : found = none := hfound
      exact ⟨_, _, Action.perform_of_run hrun, hstill, ht⟩
    | some source =>
      obtain rfl : found = some source := hfound
      obtain ⟨hproper, hplain⟩ := h.proper_of_get hexec
      -- from here on the duplicate is a creation
      let creation : Step := ⟨stamp, .create .node (Body.node source.type source.properties)⟩
      have hexec' : (g.answer stamp creation.call).exec tree
          = (((g.answer stamp creation.call).exec tree).1, g.advance tree creation) := rfl
      have hcreation : Action.perform ⟨stamp, .duplicate id⟩ (.engine g, tree)
          = (((g.answer stamp creation.call).exec tree).1, .engine g, g.advance tree creation) :=
        Action.perform_of_run (hrun.trans (run_of_exec hexec'))
      rw [Action.FailsOfFiles, hcreation] at hfiles
      rw [hcreation] at hlimit
      exact ⟨_, _, hcreation, tidy_advance h ht hp hrules hproperty hflat creation
        ⟨htime, ⟨hproper.properties, trivial⟩, hplain⟩
        (fun unique hgiven => List.mem_singleton.1 hgiven ▸ hfresh)
        (fun unique hgiven => List.mem_singleton.1 hgiven ▸ hslash) hfiles hlimit⟩

theorem keepsTidy {a : Action} (hsuits : a.Suits g p) (hfresh : ∀ unique ∈ a.given, unique ∉ used)
    (hslash : ∀ unique ∈ a.given, '/' ∉ unique.toList)
    (hfiles : ¬ a.FailsOfFiles (.engine g, tree))
    (hlimit : ∀ c, ((a.perform (.engine g, tree)).2.2.shelf g.root c).WithinLimit) :
    g.KeepsTidy rule p (used ++ a.given) tree base a := by
  obtain ⟨stamp, operation⟩ := a
  cases operation with
  | duplicate id =>
    exact keepsTidy_duplicate h ht hp hrules hproperty hflat hsuits
      (hfresh _ (List.mem_singleton.2 rfl)) (hslash _ (List.mem_singleton.2 rfl)) hfiles hlimit
  | call request =>
    have hcall : Action.perform ⟨stamp, .call request⟩ (.engine g, tree)
        = (((g.answer stamp request).exec tree).1, .engine g, g.advance tree ⟨stamp, request⟩) :=
      perform_of_exec rfl
    have hgiven : Action.given ⟨stamp, .call request⟩ = Step.given ⟨stamp, request⟩ := by
      cases request <;> rfl
    rw [hgiven] at hfresh hslash ⊢
    rw [Action.FailsOfFiles, hcall] at hfiles
    rw [hcall] at hlimit
    exact ⟨_, _, hcall, tidy_advance h ht hp hrules hproperty hflat ⟨stamp, request⟩
      hsuits hfresh hslash hfiles hlimit⟩

end Step

/-! ## Runs -/

/-- A run of actions that a graph accepts, with distinct texts for identities, in which nothing
    fails for the sake of files and all documents stay within the nesting limit. -/
structure Untroubled (g : Engine) (p : Number → Prop) (tree : FileTree) (actions : List Action) :
    Prop where
  distinct : (actions.flatMap Action.given).Nodup
  slashless : ∀ unique ∈ actions.flatMap Action.given, '/' ∉ unique.toList
  suits : ∀ a ∈ actions, a.Suits g p
  answers : ∀ before a rest, actions = before ++ a :: rest →
    ¬ a.FailsOfFiles (Action.after (.engine g, tree) before)
  limits : ∀ before a rest, actions = before ++ a :: rest → ∀ c,
    ((Action.after (.engine g, tree) (before ++ [a])).2.shelf g.root c).WithinLimit

namespace Untroubled

variable {actions rest : List Action} {a : Action}

/-- A part of such a run from its beginning is one. -/
theorem of_append (h : g.Untroubled p tree (actions ++ rest)) : g.Untroubled p tree actions where
  distinct := by
    have hdistinct := h.distinct
    rw [List.flatMap_append] at hdistinct
    exact hdistinct.of_append_left
  slashless unique hmem :=
    h.slashless unique (by rw [List.flatMap_append]; exact List.mem_append_left _ hmem)
  suits a ha := h.suits a (List.mem_append_left _ ha)
  answers before a more heq := h.answers before a (more ++ rest) (by rw [heq]; simp)
  limits before a more heq := h.limits before a (more ++ rest) (by rw [heq]; simp)

theorem fresh (h : g.Untroubled p tree (actions ++ [a])) :
    ∀ unique ∈ a.given, unique ∉ actions.flatMap Action.given := by
  intro unique hgiven hmem
  have hdistinct := h.distinct
  rw [List.flatMap_append, List.flatMap_singleton, List.nodup_append] at hdistinct
  exact hdistinct.2.2 unique hmem unique hgiven rfl

theorem nil : g.Untroubled p tree [] where
  distinct := List.nodup_nil
  slashless _ hmem := absurd hmem List.not_mem_nil
  suits _ ha := absurd ha List.not_mem_nil
  answers before _ _ heq := absurd heq.symm (by simp)
  limits before _ _ heq := absurd heq.symm (by simp)

/-- A run goes on untroubled when its last action suits the graph and is not hindered. -/
theorem append (h : g.Untroubled p tree actions) (hsuits : a.Suits g p)
    (hfresh : ((actions ++ [a]).flatMap Action.given).Nodup)
    (hslash : ∀ unique ∈ a.given, '/' ∉ unique.toList)
    (hlast : a.unhindered (Action.after (.engine g, tree) actions) = true) :
    g.Untroubled p tree (actions ++ [a]) where
  distinct := hfresh
  slashless unique hmem := by
    rw [List.flatMap_append, List.flatMap_singleton] at hmem
    exact (List.mem_append.1 hmem).elim (h.slashless unique) (hslash unique)
  suits other hother := by
    rcases List.mem_append.1 hother with hother | hother
    · exact h.suits other hother
    · exact List.mem_singleton.1 hother ▸ hsuits
  answers before other rest heq := by
    rcases List.eq_nil_or_concat rest with rfl | ⟨rest, final, rfl⟩
    · obtain ⟨rfl, hsame⟩ := List.append_inj' heq rfl
      exact (List.cons.inj hsame).1 ▸ Action.not_failsOfFiles hlast
    · rw [List.concat_eq_append, ← List.cons_append, ← List.append_assoc] at heq
      exact h.answers before other rest (List.append_inj' heq rfl).1
  limits before other rest heq := by
    rcases List.eq_nil_or_concat rest with rfl | ⟨rest, final, rfl⟩
    · rw [← heq, Action.after_append]
      exact FileTree.withinLimit_shelf (Bool.and_eq_true _ _ ▸ hlast).2
    · rw [List.concat_eq_append, ← List.cons_append, ← List.append_assoc] at heq
      exact h.limits before other rest (List.append_inj' heq rfl).1

end Untroubled

/-- Nothing stands below the root, at any depth. -/
structure Empty (g : Engine) (tree : FileTree) (base : Place) : Prop where
  rooted : tree.Rooted g.root base
  free : ∀ names, names ≠ [] → tree.occupant (base ++ names) = none

theorem Empty.bare (h : g.Empty tree base) : tree.Bare g.root base where
  rooted := h.rooted
  empty name := h.free [name] (List.cons_ne_nil _ _)

theorem Empty.tidy (h : g.Empty tree base) : g.Tidy rule tree base where
  filed key s hs := by
    rw [table_of_bare h.bare] at hs
    cases hs
  owned names entry _ hentry := by
    rw [h.free _ (List.cons_ne_nil _ _)] at hentry
    cases hentry

variable {actions : List Action}

/-- After every untroubled run below an empty root the directory of raw texts is tidy. -/
theorem tidy_after (hempty : g.Empty tree base) (hp : Number.Stable p) (hrules : g.rules = [rule])
    (hproperty : rule.property ≠ fileKey) (hflat : '/' ∉ (g.idPrefix.getD "").toList)
    (h : g.Untroubled p tree actions) :
    ∃ tree', Action.after (.engine g, tree) actions = (.engine g, tree')
      ∧ g.Consistent p (actions.flatMap Action.given) tree' base ∧ g.Tidy rule tree' base := by
  induction actions using List.reverseRecOn with
  | nil => exact ⟨tree, rfl, consistent_of_bare hempty.bare, hempty.tidy⟩
  | append_singleton actions a ih =>
    obtain ⟨tree₁, hafter, hconsistent, htidy⟩ := ih h.of_append
    have hfiles := h.answers actions a [] rfl
    have hlimit := h.limits actions a [] rfl
    rw [Action.after_append, hafter] at hlimit
    rw [hafter] at hfiles
    obtain ⟨outcome, tree', hperform, hkept⟩ := keepsTidy hconsistent htidy hp hrules hproperty
      hflat (h.suits a (by simp)) h.fresh
      (fun unique hgiven => h.slashless unique (by simp [hgiven])) hfiles hlimit
    refine ⟨tree', ?_, ?_⟩
    · rw [Action.after_append, hafter, hperform]
    · rw [List.flatMap_append, List.flatMap_singleton]
      exact hkept

/-- The directory of raw texts holds exactly what the nodes need: after every step of an untroubled
    run below an empty root, what stands in it is the file of every node of a type that the rule
    covers and that its owner sees with a text under the property of the rule, with that text. -/
theorem raw_occupant_iff (hempty : g.Empty tree base) (hrules : g.rules = [rule])
    (hproperty : rule.property ≠ fileKey) (hflat : '/' ∉ (g.idPrefix.getD "").toList)
    (h : g.Untroubled Number.InRange tree actions) {before rest : List Action}
    (hactions : actions = before ++ rest) {names : List String} (hne : names ≠ [])
    (entry : FileEntry) :
    (Action.after (.engine g, tree) before).2.occupant (base ++ "raw" :: names) = some entry ↔
      ∃ id text node, names = [id ++ ".txt"] ∧ entry = .file text
        ∧ ((g.get .node (.ofString id)).exec (Action.after (.engine g, tree) before).2).1
          = .ok (some node)
        ∧ rule.covers node.type = true
        ∧ Entries.get? rule.property node.properties = some (.string text) := by
  rw [hactions] at h
  obtain ⟨tree', hafter, hconsistent, htidy⟩ :=
    tidy_after hempty Number.stable_inRange hrules hproperty hflat h.of_append
  rw [hafter]
  exact htidy.occupant_iff hconsistent hrules hflat hne entry

def noteCreation : Action :=
  ⟨⟨"n", 0⟩, .call (.create .node (.node "Note" [("content", .string "t")]))⟩

theorem untroubled_note :
    (Engine.sample [noteRule]).Untroubled Number.InRange .sample [noteCreation] :=
  Untroubled.append .nil
    (show noteCreation.Suits _ _ from
      ⟨by decide, ⟨⟨by decide, trivial, trivial⟩, trivial⟩, fun _ _ => rfl⟩)
    (by decide) (by decide) (by decide +kernel)

theorem empty_sample : (Engine.sample [noteRule]).Empty .sample ["g"] where
  rooted := FileTree.bare_sample.rooted
  free names hne := by
    show FileTree.lookup ("g" :: names) [(["g"], .directory)] = none
    simp [FileTree.lookup, hne]

/-- Once a note is created, the file of its text stands in the directory. -/
theorem raw_occupant_note :
    (Engine.sample [noteRule]).Empty .sample ["g"] ∧ (Engine.sample [noteRule]).rules = [noteRule]
      ∧ noteRule.property ≠ fileKey
      ∧ '/' ∉ ((Engine.sample [noteRule]).idPrefix.getD "").toList
      ∧ (Engine.sample [noteRule]).Untroubled Number.InRange .sample [noteCreation]
      ∧ [noteCreation] = [noteCreation] ++ [] ∧ ["n.txt"] ≠ []
      ∧ ∃ id text node, ["n.txt"] = [id ++ ".txt"] ∧ FileEntry.file "t" = .file text
        ∧ (((Engine.sample [noteRule]).get .node (.ofString id)).exec
            (Action.after (.engine (Engine.sample [noteRule]), .sample) [noteCreation]).2).1
          = .ok (some node)
        ∧ noteRule.covers node.type = true
        ∧ Entries.get? noteRule.property node.properties = some (.string text) := by
  have hflat : '/' ∉ ((Engine.sample [noteRule]).idPrefix.getD "").toList := by decide
  have hproperty : noteRule.property ≠ fileKey := by decide
  exact ⟨empty_sample, rfl, hproperty, hflat, untroubled_note, rfl, by decide,
    (raw_occupant_iff empty_sample rfl hproperty hflat untroubled_note (List.append_nil _).symm
      (by decide) _).1 (by decide +kernel)⟩

end Engine

end PropertyGraph
