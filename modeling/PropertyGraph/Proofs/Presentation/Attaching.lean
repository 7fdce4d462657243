/-
  PropertyGraph.Proofs.Presentation.Attaching

  Metadata that is attached is found again.  A graph in memory presents a list of marks, one for
  each node that was attached, in order: one node stands for each type that a mark is for, and the
  links are those of the marks, from the node that stands for the type to the node of the mark.
  Attaching adds a mark, a call that touches none of the types concerned keeps them all, and a
  lookup comes to the first mark of the type and of the kind.
-/
import PropertyGraph.Proofs.Presentation.Holdings
import Mathlib.Data.List.Forall2

namespace PropertyGraph

open Engine (Step)
open SuiteTask (AttachStamps typeNodeType linkType summaryType detailsType)

variable {α β : Type} {suite suite' : Suite} {tree : FileTree} {stamp : Stamp}
  {used types : List String} {type metaType : String}

/-! ## Tasks that change a suite -/

namespace SuiteTask

/-- A task has an outcome, and leaves a suite and the files in another state. -/
def Leads (task : SuiteTask α) (state : Suite × FileTree) (outcome : Outcome α)
    (state' : Suite × FileTree) : Prop :=
  (task.runOn state.1).run state.2 = ((outcome, state'.1), state'.2)

/-- A task goes on with what another one results in, in the state that it leaves. -/
theorem Leads.bind {task : SuiteTask α} {next : α → SuiteTask β}
    {state between state' : Suite × FileTree} {a : α} {outcome : Outcome β}
    (h : task.Leads state (.ok a) between) (hnext : (next a).Leads between outcome state') :
    (task >>= next).Leads state outcome state' := by
  rw [Leads, run_bind, h]
  exact hnext

/-- Creates a node of metadata and links it to the node that stands for a type. -/
def addMeta (stamps : AttachStamps) (metaType : String) (properties : Bag) (typeNode : Node) :
    SuiteTask Node := do
  let metaNode : Node ← ask stamps.metaNode (.create .node (Body.node metaType properties))
  let _ : Relationship ← ask stamps.link
    (.create .relationship (Body.relationship linkType [] typeNode.id metaNode.id))
  return metaNode

section Attach

variable {stamps : AttachStamps} {properties : Bag} {state first second state' : Suite × FileTree}
  {node : Node} {outcome : Outcome Node}

/-- Metadata is attached to the first node that stands for the type. -/
theorem Leads.attach_found {more : List Node}
    (hfound : (typeNodes stamps.typeNode type).Leads state (.ok (node :: more)) first)
    (hadd : (addMeta stamps metaType properties node).Leads first outcome state') :
    (attach stamps type metaType properties).Leads state outcome state' := by
  have hpure : (pure node : SuiteTask Node).Leads first (.ok node) first := rfl
  exact hfound.bind (hpure.bind hadd)

/-- Where no node stands for the type, one is created first. -/
theorem Leads.attach_created (hfound : (typeNodes stamps.typeNode type).Leads state (.ok []) first)
    (hcreate : (ask stamps.typeNode (.create .node
      (Body.node typeNodeType [("name", .string type)]))).Leads first (.ok node) second)
    (hadd : (addMeta stamps metaType properties node).Leads second outcome state') :
    (attach stamps type metaType properties).Leads state outcome state' :=
  hfound.bind (hcreate.bind hadd)

end Attach

end SuiteTask

/-! ## Marks -/

/-- The types of nodes that hold metadata. -/
def MetaType (type : String) : Prop := type = summaryType ∨ type = detailsType

/-- The types that metadata is kept under. -/
def Reserved : EntityClass → String → Prop
  | .node, type => type = typeNodeType ∨ MetaType type
  | .relationship, type => type = linkType

theorem MetaType.ne_typeNodeType (h : MetaType metaType) : metaType ≠ typeNodeType := by
  rcases h with rfl | rfl <;> decide

/-- Metadata as it was attached: the type that it is for, its own type, and the node. -/
structure Mark where
  type : String
  metaType : String
  node : Node

/-- A node stands for a type. -/
structure StandsFor (type : String) (node : Node) : Prop where
  typed : node.type = typeNodeType
  named : node.properties = [("name", .string type)]

/-- Whether a node has a type for its name. -/
def names (type : String) (node : Node) : Bool :=
  (Entries.get? "name" node.properties).bind Json.string? == some type

/-- A node that stands for a type has this type for its name, and no other one. -/
theorem StandsFor.names_eq {node : Node} (h : StandsFor type node) (other : String) :
    names other node = (type == other) := by
  rw [names, h.named]
  rfl

theorem selects_typeNodes (type : String) :
    (Searcher.all [.typeEq typeNodeType, .propertyEq "$.name" (.string type)]).Selects typeNodeType
      (names type) :=
  .of_typed (GraphState.checkPaths_typeNodes type) rfl
    (fun kept _ => GraphState.test_name kept.evaluators.node type) fun _ _ => rfl

theorem selects_links {node : Node} {p : Number → Prop} (hnode : node.id.value.Proper p) :
    (Searcher.all [.typeEq linkType, .adjacency node.id .start]).Selects linkType
      fun link : Relationship => link.source.same node.id :=
  .of_typed rfl rfl (fun _ hadjacency => GraphState.test_source hadjacency hnode) fun _ _ => rfl

namespace Suite

/-- A link is the one by which metadata was attached. -/
structure Joins (suite : Suite) (m : Mark) (link : Relationship) : Prop where
  target : link.target = m.node.id
  source : ∃ node ∈ suite.under .node typeNodeType, StandsFor m.type node ∧ link.source = node.id

theorem Joins.mono {m : Mark} {link : Relationship} (h : suite.Joins m link)
    (hnodes : ∀ node ∈ suite.under .node typeNodeType, node ∈ suite'.under .node typeNodeType) :
    suite'.Joins m link where
  target := h.target
  source := h.source.imp fun node => And.imp_left (hnodes node)

/-- A suite presents some marks, and one node for each of some types. -/
structure Presents (suite : Suite) (used types : List String) (marks : List Mark) : Prop where
  inOrder : suite.InOrder used
  takes : ∀ c type, Reserved c type → suite.Takes c type
  distinct : types.Nodup
  standing : List.Forall₂ StandsFor types (suite.under .node typeNodeType)
  joined : List.Forall₂ suite.Joins marks (suite.under .relationship linkType)
  kept : ∀ m ∈ marks, MetaType m.metaType ∧ m.node ∈ suite.under .node m.metaType

namespace Presents

variable {marks : List Mark} (h : suite.Presents used types marks)

include h

/-! ### Looking up -/

/-- Of the nodes that stand for types those are named by a type that stand for it. -/
theorem standing_filter (type : String) : List.Forall₂ StandsFor (types.filter (· == type))
    ((suite.under .node typeNodeType).filter (names type)) := by
  refine List.rel_filter (fun other node hstands => ?_) h.standing
  show (other == type) = true ↔ names type node = true
  rw [hstands.names_eq]

/-- One node stands for a type that is among the types. -/
theorem exists_standing (htype : type ∈ types) :
    ∃ node, (suite.under .node typeNodeType).filter (names type) = [node]
      ∧ StandsFor type node := by
  have hone : types.filter (· == type) = [type] := by
    rw [List.filter_beq, List.count_eq_one_of_mem h.distinct htype]
    rfl
  have hfilter := h.standing_filter type
  rw [hone] at hfilter
  generalize (suite.under .node typeNodeType).filter (names type) = nodes at hfilter
  cases hfilter with
  | cons hstands hrest =>
    cases hrest
    exact ⟨_, rfl, hstands⟩

theorem filter_of_not_mem (htype : type ∉ types) :
    (suite.under .node typeNodeType).filter (names type) = [] := by
  have hnone : types.filter (· == type) = [] :=
    List.filter_eq_nil_iff.2 fun other hother heq => htype (beq_iff_eq.1 heq ▸ hother)
  have hfilter := h.standing_filter type
  rw [hnone] at hfilter
  exact List.forall₂_nil_left_iff.1 hfilter

/-- A mark is for one of the types. -/
theorem type_of_mark : ∀ m ∈ marks, m.type ∈ types := by
  refine ((List.forall₂_and_left _ _).1 (h.joined.imp fun m link hjoins => ⟨?_, hjoins⟩)).1
  obtain ⟨node, hmem, hstands, -⟩ := hjoins.source
  by_contra htype
  have hnode : node ∈ (suite.under .node typeNodeType).filter (names m.type) :=
    List.mem_filter.2 ⟨hmem, by rw [hstands.names_eq, beq_self_eq_true]⟩
  rw [h.filter_of_not_mem htype] at hnode
  cases hnode

/-- A link comes from the node that stands for a type exactly if its mark is for that type. -/
theorem source_same {node : Node}
    (hnode : (suite.under .node typeNodeType).filter (names type) = [node])
    {m : Mark} {link : Relationship} (hjoins : suite.Joins m link) :
    link.source.same node.id = (m.type == type) := by
  obtain ⟨source, hmem, hstands, hsource⟩ := hjoins.source
  have hsame : source ∈ (suite.under .node typeNodeType).filter (names type) ↔ source = node := by
    rw [hnode, List.mem_singleton]
  have hnode' : node ∈ suite.under .node typeNodeType :=
    (List.mem_filter.1 (hnode ▸ List.mem_singleton_self node)).1
  rw [List.mem_filter, hstands.names_eq] at hsame
  rw [Bool.eq_iff_iff, hsource, h.inOrder.same_iff hmem hnode', ← hsame]
  exact ⟨And.right, fun htype => ⟨hmem, htype⟩⟩

/-- Following the links of some marks comes to the first mark of a kind. -/
theorem finds_followLinks (stamp : Stamp) (tree : FileTree) (metaType : String) {some : List Mark}
    {links : List Relationship} (hjoined : List.Forall₂ suite.Joins some links)
    (hkept : ∀ m ∈ some, m.node ∈ suite.under .node m.metaType) :
    (SuiteTask.followLinks stamp metaType links).Finds (suite, tree)
      (.ok ((some.find? fun m => m.metaType == metaType).map Mark.node)) := by
  induction hjoined with
  | nil => rfl
  | @cons m link rest links hjoins _ ih =>
    obtain ⟨hm, hrest⟩ := List.forall_mem_cons.1 hkept
    have hget := h.inOrder.finds_get hm stamp tree
    rw [← hjoins.target] at hget
    refine hget.bind ?_
    show SuiteTask.Finds (if m.node.type = metaType then _ else _) _ _
    rw [type_of_mem_under hm, List.find?_cons]
    split
    · next htype =>
      rw [beq_iff_eq.2 htype]
      exact SuiteTask.finds_pure _
    · next htype =>
      rw [beq_eq_false_iff_ne.2 htype]
      exact ih hrest

/-- A lookup comes to the first mark of a type and of a kind. -/
theorem finds_metadataNode (stamp : Stamp) (tree : FileTree) (type metaType : String) :
    (SuiteTask.metadataNode stamp type metaType).Finds (suite, tree)
      (.ok ((marks.find? fun m => m.type == type && m.metaType == metaType).map Mark.node)) := by
  refine (h.inOrder.finds_search (selects_typeNodes type) stamp tree).bind ?_
  by_cases htype : type ∈ types
  · obtain ⟨node, hnode, -⟩ := h.exists_standing htype
    have hmem : node ∈ suite.under .node typeNodeType :=
      (List.mem_filter.1 (hnode ▸ List.mem_singleton_self node)).1
    have hlinks := selects_links (h.inOrder.proper_id hmem Number.Bounded)
    rw [hnode]
    refine (h.inOrder.finds_search hlinks stamp tree).bind ?_
    -- the links of the node are those of the marks for the type
    have hjoined : List.Forall₂ suite.Joins (marks.filter fun m => m.type == type)
        ((suite.under .relationship linkType).filter fun link => link.source.same node.id) := by
      refine List.rel_filter (fun m link hjoins => ?_) h.joined
      show (m.type == type) = true ↔ link.source.same node.id = true
      rw [h.source_same hnode hjoins]
    have hfollow := h.finds_followLinks stamp tree metaType hjoined fun m hm =>
      (h.kept m (List.mem_filter.1 hm).1).2
    simp only [List.find?_filter, Bool.decide_and, Bool.decide_eq_true] at hfollow
    refine hfollow.bind ?_
    cases (marks.find? fun m => m.type == type && m.metaType == metaType) <;>
      exact SuiteTask.finds_pure _
  · have hnone : (marks.find? fun m => m.type == type && m.metaType == metaType) = none := by
      refine List.find?_eq_none.2 fun m hm hfound => htype ?_
      obtain ⟨hsame, -⟩ := (Bool.and_eq_true ..).mp hfound
      exact beq_iff_eq.1 hsame ▸ h.type_of_mark m hm
    rw [h.filter_of_not_mem htype, hnone]
    rfl

/-! ### Attaching -/

theorem takes_after {step : Step} (hgoes : GoesOn used suite tree step suite') :
    ∀ c type, Reserved c type → suite'.Takes c type :=
  fun c type hreserved => hgoes.takes c type (h.takes c type hreserved)

/-- The links stay those of the marks as long as the nodes that stand for types stay. -/
theorem joined_mono
    (hnodes : ∀ node ∈ suite.under .node typeNodeType, node ∈ suite'.under .node typeNodeType) :
    List.Forall₂ suite'.Joins marks (suite.under .relationship linkType) :=
  h.joined.imp fun _ _ hjoins => hjoins.mono hnodes

/-- A call that touches no type of metadata leaves all that is presented. -/
theorem aside {step : Step} (hgoes : GoesOn used suite tree step suite')
    (haside : ∀ c type, Reserved c type →
      ¬ step.call.Touches (lookup step.stamp (suite, tree)) c type) :
    suite'.Presents (used ++ step.given) types marks := by
  have hsame (c : EntityClass) {type : String} (hreserved : Reserved c type) :
      suite'.under c type = suite.under c type :=
    hgoes.spares c type (haside c type hreserved)
  have hnodes := hsame .node (.inl rfl)
  exact {
    inOrder := hgoes.inOrder
    takes := h.takes_after hgoes
    distinct := h.distinct
    standing := hnodes ▸ h.standing
    joined := by
      rw [hsame .relationship rfl]
      exact h.joined_mono fun _ hnode => hnodes ▸ hnode
    kept := fun m hm => by
      obtain ⟨hmeta, hnode⟩ := h.kept m hm
      exact ⟨hmeta, (hsame .node (.inr hmeta)).symm ▸ hnode⟩ }

/-- A node that stands for a type can be created where none does. -/
theorem exists_typeNode (htype : type ∉ types) (hfresh : stamp.unique ∉ used) (tree : FileTree) :
    ∃ node suite', (SuiteTask.ask stamp (.create .node
        (Body.node typeNodeType [("name", .string type)]))).Leads (suite, tree) (.ok node)
          (suite', tree)
      ∧ suite'.Presents (used ++ [stamp.unique]) (types ++ [type]) marks
      ∧ node ∈ suite'.under .node typeNodeType ∧ StandsFor type node := by
  obtain ⟨id, suite', hrun, hgoes, hnodes⟩ := h.inOrder.create hfresh
    (Body.node typeNodeType [("name", .string type)]) (h.takes .node typeNodeType (.inl rfl)) tree
  have hlinks : suite'.under .relationship linkType = suite.under .relationship linkType :=
    hgoes.under_of_create nofun
  refine ⟨_, suite', hrun, ?_, hnodes ▸ List.mem_append_right _ (List.mem_singleton_self _),
    ⟨rfl, rfl⟩⟩
  exact {
    inOrder := hgoes.inOrder
    takes := h.takes_after hgoes
    distinct := List.nodup_append_comm.1 (List.nodup_cons.2 ⟨htype, h.distinct⟩)
    standing := hnodes ▸ List.rel_append h.standing (.cons ⟨rfl, rfl⟩ .nil)
    joined := by
      rw [hlinks]
      exact h.joined_mono fun _ hnode => hnodes ▸ List.mem_append_left _ hnode
    kept := fun m hm => by
      obtain ⟨hmeta, hnode⟩ := h.kept m hm
      have hsame : suite'.under .node m.metaType = suite.under .node m.metaType :=
        hgoes.under_of_create fun _ => hmeta.ne_typeNodeType.symm
      exact ⟨hmeta, hsame ▸ hnode⟩ }

/-- A node of metadata can be created, which goes with the other ones. -/
theorem exists_metaNode (hmeta : MetaType metaType) (hfresh : stamp.unique ∉ used)
    (properties : Bag) (tree : FileTree) :
    ∃ node suite', (SuiteTask.ask stamp (.create .node (Body.node metaType properties))).Leads
        (suite, tree) (.ok node) (suite', tree)
      ∧ suite'.Presents (used ++ [stamp.unique]) types marks
      ∧ node ∈ suite'.under .node metaType
      ∧ suite'.under .node typeNodeType = suite.under .node typeNodeType := by
  obtain ⟨id, suite', hrun, hgoes, hunder⟩ := h.inOrder.create hfresh
    (Body.node metaType properties) (h.takes .node metaType (.inr hmeta)) tree
  have hnodes : suite'.under .node typeNodeType = suite.under .node typeNodeType :=
    hgoes.under_of_create fun _ => hmeta.ne_typeNodeType
  have hlinks : suite'.under .relationship linkType = suite.under .relationship linkType :=
    hgoes.under_of_create nofun
  -- What was kept under some type is kept, also where that type is the one of the new node.
  have hkept {other : String} {node : Node} (hnode : node ∈ suite.under .node other) :
      node ∈ suite'.under .node other := by
    by_cases heq : metaType = other
    · subst heq
      exact hunder ▸ List.mem_append_left _ hnode
    · rwa [hgoes.under_of_create fun _ => heq]
  refine ⟨_, suite', hrun, ?_, hunder ▸ List.mem_append_right _ (List.mem_singleton_self _), hnodes⟩
  exact {
    inOrder := hgoes.inOrder
    takes := h.takes_after hgoes
    distinct := h.distinct
    standing := hnodes ▸ h.standing
    joined := by
      rw [hlinks]
      exact h.joined_mono fun _ hnode => hnodes ▸ hnode
    kept := fun m hm => (h.kept m hm).imp_right hkept }

/-- A node of metadata that is linked to the node that stands for a type makes a mark. -/
theorem exists_link (hmeta : MetaType metaType) (hfresh : stamp.unique ∉ used)
    {typeNode node : Node} (htypeNode : typeNode ∈ suite.under .node typeNodeType)
    (hstands : StandsFor type typeNode) (hnode : node ∈ suite.under .node metaType)
    (tree : FileTree) :
    ∃ (link : Relationship) (suite' : Suite), (SuiteTask.ask stamp (.create .relationship
        (Body.relationship linkType [] typeNode.id node.id))).Leads (suite, tree) (.ok link)
          (suite', tree)
      ∧ suite'.Presents (used ++ [stamp.unique]) types (marks ++ [⟨type, metaType, node⟩]) := by
  obtain ⟨id, suite', hrun, hgoes, hlinks⟩ := h.inOrder.create hfresh
    (Body.relationship linkType [] typeNode.id node.id) (h.takes .relationship linkType rfl) tree
  have hsame (other : String) : suite'.under .node other = suite.under .node other :=
    hgoes.under_of_create nofun
  refine ⟨_, suite', hrun, ?_⟩
  exact {
    inOrder := hgoes.inOrder
    takes := h.takes_after hgoes
    distinct := h.distinct
    standing := hsame typeNodeType ▸ h.standing
    joined := by
      refine hlinks ▸ List.rel_append (h.joined_mono fun _ hnode => hsame _ ▸ hnode) (.cons ?_ .nil)
      exact ⟨rfl, typeNode, hsame _ ▸ htypeNode, hstands, rfl⟩
    kept := fun m hm => by
      rcases List.mem_append.1 hm with hold | hnew
      · exact (h.kept m hold).imp_right fun hnode => hsame _ ▸ hnode
      · obtain rfl := List.mem_singleton.1 hnew
        exact ⟨hmeta, hsame metaType ▸ hnode⟩ }

theorem mono {used' : List String} (hsub : used ⊆ used') : suite.Presents used' types marks :=
  { h with inOrder := h.inOrder.mono hsub }

/-- A node is created and linked to one that stands for a type. -/
theorem exists_added {stamps : AttachStamps} (hmeta : MetaType metaType)
    (hdistinct : [stamps.metaNode.unique, stamps.link.unique].Nodup)
    (hfresh : ∀ unique ∈ [stamps.metaNode.unique, stamps.link.unique], unique ∉ used)
    (properties : Bag) {typeNode : Node} (htypeNode : typeNode ∈ suite.under .node typeNodeType)
    (hstands : StandsFor type typeNode) (tree : FileTree) :
    ∃ node suite', (SuiteTask.addMeta stamps metaType properties typeNode).Leads (suite, tree)
        (.ok node) (suite', tree)
      ∧ suite'.Presents (used ++ [stamps.metaNode.unique, stamps.link.unique]) types
        (marks ++ [⟨type, metaType, node⟩]) := by
  obtain ⟨node, between, hcreate, hbetween, hnode, hnodes⟩ :=
    h.exists_metaNode hmeta (hfresh stamps.metaNode.unique (by simp)) properties tree
  have hlinkFresh : stamps.link.unique ∉ used ++ [stamps.metaNode.unique] := by
    have hne : stamps.metaNode.unique ≠ stamps.link.unique := by simpa using hdistinct
    simpa [hne.symm] using hfresh stamps.link.unique (by simp)
  obtain ⟨link, suite', hlink, hpresents⟩ :=
    hbetween.exists_link hmeta hlinkFresh (hnodes ▸ htypeNode) hstands hnode tree
  rw [List.append_assoc] at hpresents
  exact ⟨node, suite', hcreate.bind (hlink.bind rfl), hpresents⟩

/-- Metadata can always be attached, and makes a mark. -/
theorem exists_attached {stamps : AttachStamps} (hmeta : MetaType metaType)
    (hdistinct :
      [stamps.typeNode.unique, stamps.metaNode.unique, stamps.link.unique].Nodup)
    (hfresh : ∀ unique ∈ [stamps.typeNode.unique, stamps.metaNode.unique, stamps.link.unique],
      unique ∉ used) (type : String) (properties : Bag) (tree : FileTree) :
    ∃ node suite' types', (SuiteTask.attach stamps type metaType properties).Leads (suite, tree)
        (.ok node) (suite', tree)
      ∧ suite'.Presents
        (used ++ [stamps.typeNode.unique, stamps.metaNode.unique, stamps.link.unique]) types'
        (marks ++ [⟨type, metaType, node⟩])
      ∧ ∀ other, other ∈ types' ↔ other ∈ types ∨ other = type := by
  obtain ⟨hfirst, hrest⟩ := List.nodup_cons.1 hdistinct
  obtain ⟨hfreshFirst, hfreshRest⟩ := List.forall_mem_cons.1 hfresh
  have hfound := h.inOrder.finds_search (selects_typeNodes type) stamps.typeNode tree
  -- the type may be known already, and then its node is the one that stands for it
  by_cases htype : type ∈ types
  · obtain ⟨typeNode, hnode, hstands⟩ := h.exists_standing htype
    have hmem := (List.mem_filter.1 (hnode ▸ List.mem_singleton_self typeNode)).1
    obtain ⟨node, suite', hadd, hpresents⟩ :=
      h.exists_added hmeta hrest hfreshRest properties hmem hstands tree
    rw [hnode] at hfound
    refine ⟨node, suite', types, .attach_found hfound hadd, hpresents.mono ?_, fun other => ?_⟩
    · intro unique hunique
      simp only [List.mem_append, List.mem_cons] at hunique ⊢
      tauto
    · exact ⟨.inl, fun hother => hother.elim id fun heq => heq ▸ htype⟩
  · obtain ⟨typeNode, between, hcreate, hbetween, hmem, hstands⟩ :=
      h.exists_typeNode htype hfreshFirst tree
    have hfreshBetween : ∀ unique ∈ [stamps.metaNode.unique, stamps.link.unique],
        unique ∉ used ++ [stamps.typeNode.unique] := by
      intro unique hunique hused
      rcases List.mem_append.1 hused with hold | hnew
      · exact hfreshRest unique hunique hold
      · exact hfirst (List.mem_singleton.1 hnew ▸ hunique)
    obtain ⟨node, suite', hadd, hpresents⟩ :=
      hbetween.exists_added hmeta hrest hfreshBetween properties hmem hstands tree
    rw [h.filter_of_not_mem htype] at hfound
    rw [List.append_assoc] at hpresents
    exact ⟨node, suite', types ++ [type], .attach_created hfound hcreate hadd, hpresents,
      fun other => by simp⟩

end Presents

/-! ## Runs -/

/-- What happens to a suite: metadata is attached, or a call is made. -/
inductive Turn where
  | attach (stamps : AttachStamps) (type metaType : String) (properties : Bag)
  | call (step : Step)

namespace Turn

/-- The unique texts that a turn may make identities from. -/
def given : Turn → List String
  | .attach stamps _ _ _ => [stamps.typeNode.unique, stamps.metaNode.unique, stamps.link.unique]
  | .call step => step.given

/-- What a turn leaves. -/
def after (state : Suite × FileTree) : Turn → Suite × FileTree
  | .attach stamps type metaType properties =>
    let ((_, suite), tree) :=
      ((SuiteTask.attach stamps type metaType properties).runOn state.1).run state.2
    (suite, tree)
  | .call step => backend.advance state step

/-- What is attached is one of the two kinds of metadata, and a call is about entities that are and
    stay of types that metadata is not kept under. -/
def Fits (state : Suite × FileTree) : Turn → Prop
  | .attach _ _ metaType _ => MetaType metaType
  | .call step =>
    ∀ c type, Reserved c type → ¬ step.call.Touches (lookup step.stamp state) c type

/-- All turns fit, each in the state that those before it leave. -/
def AllFit (state : Suite × FileTree) : List Turn → Prop
  | [] => True
  | turn :: rest => turn.Fits state ∧ AllFit (turn.after state) rest

/-- What is attached, turn by turn: for which type, under which type, and with what outcome. -/
def attachments (state : Suite × FileTree) : List Turn → List (String × String × Outcome Node)
  | [] => []
  | .attach stamps type metaType properties :: rest =>
    (type, metaType,
        (((SuiteTask.attach stamps type metaType properties).runOn state.1).run state.2).1.1)
      :: attachments (after state (.attach stamps type metaType properties)) rest
  | .call step :: rest => attachments (after state (.call step)) rest

end Turn

/-- A run of turns adds a mark for each time that metadata is attached. -/
theorem Presents.run {turns : List Turn} {marks : List Mark}
    (h : suite.Presents used types marks) (hmarked : ∀ type ∈ types, ∃ m ∈ marks, m.type = type)
    (hdistinct : (used ++ turns.flatMap Turn.given).Nodup)
    (hfits : Turn.AllFit (suite, tree) turns) :
    ∃ suite' used' types' more, turns.foldl Turn.after (suite, tree) = (suite', tree)
      ∧ Turn.attachments (suite, tree) turns = more.map (fun m => (m.type, m.metaType, .ok m.node))
      ∧ suite'.Presents used' types' (marks ++ more)
      ∧ ∀ type ∈ types', ∃ m ∈ marks ++ more, m.type = type := by
  induction turns generalizing suite used types marks with
  | nil =>
    rw [← List.append_nil marks] at h hmarked
    exact ⟨suite, used, types, [], rfl, rfl, h, hmarked⟩
  | cons turn rest ih =>
    obtain ⟨hturn, hrest⟩ := hfits
    rw [List.flatMap_cons, ← List.append_assoc] at hdistinct
    have hfresh : ∀ unique ∈ turn.given, unique ∉ used := fun unique hgiven hused =>
      List.disjoint_of_nodup_append hdistinct.of_append_left hused hgiven
    -- an attachment adds one mark at the end, any other call leaves the marks as they are
    cases turn with
    | attach stamps type metaType properties =>
      have hgiven := hdistinct.of_append_left.of_append_right
      obtain ⟨node, between, types', hattach, hbetween, htypes⟩ :=
        h.exists_attached hturn hgiven hfresh type properties tree
      have hafter : Turn.after (suite, tree) (.attach stamps type metaType properties)
          = (between, tree) := by
        rw [Turn.after, hattach]
      have hmarked' : ∀ other ∈ types',
          ∃ m ∈ marks ++ [⟨type, metaType, node⟩], m.type = other := by
        intro other hother
        rcases (htypes other).1 hother with hold | rfl
        · obtain ⟨m, hm, hsame⟩ := hmarked other hold
          exact ⟨m, List.mem_append_left _ hm, hsame⟩
        · exact ⟨_, List.mem_append_right _ (List.mem_singleton_self _), rfl⟩
      rw [hafter] at hrest
      obtain ⟨suite', used', types'', more, hrun, hattachments, hpresents, hmarks⟩ :=
        ih hbetween hmarked' hdistinct hrest
      rw [List.append_assoc] at hpresents hmarks
      refine ⟨suite', used', types'', _, ?_, ?_, hpresents, hmarks⟩
      · rw [List.foldl_cons, hafter, hrun]
      · rw [Turn.attachments, hafter, hattachments, hattach]
        rfl
    | call step =>
      obtain ⟨outcome, between, hanswer, hgoes⟩ := h.inOrder.advance hfresh tree
      have hafter : Turn.after (suite, tree) (.call step) = (between, tree) := by
        rw [Turn.after, Backend.advance, backend]
        simp only [hanswer]
      rw [hafter] at hrest
      obtain ⟨suite', used', types', more, hrun, hattachments, hpresents, hmarks⟩ :=
        ih (h.aside hgoes hturn) hmarked hdistinct hrest
      refine ⟨suite', used', types', more, ?_, ?_, hpresents, hmarks⟩
      · rw [List.foldl_cons, hafter, hrun]
      · rw [Turn.attachments, hafter, hattachments]

/-- An empty suite that takes the types of metadata presents nothing. -/
theorem Untouched.presents (h : suite.Untouched)
    (htakes : ∀ c type, Reserved c type → suite.Takes c type) : suite.Presents [] [] [] := by
  obtain ⟨hinOrder, hempty⟩ := h.inOrder
  exact {
    inOrder := hinOrder
    takes := htakes
    distinct := List.nodup_nil
    standing := by
      rw [hempty]
      exact .nil
    joined := by
      rw [hempty]
      exact .nil
    kept := List.forall_mem_nil _ }

/-- Metadata that is attached is found.  However often and for whatever types metadata is attached
    to a suite that was empty, and whatever calls come between that are about other types: each
    time a node is attached, one node stands for each type that one was attached for, and a lookup
    finds the node that was attached first for the type and of the kind, if one was. -/
theorem attached_found {start : Suite} (hstart : start.Untouched)
    (htakes : ∀ c type, Reserved c type → start.Takes c type) (tree : FileTree) {turns : List Turn}
    (hdistinct : (turns.flatMap Turn.given).Nodup) (hfits : Turn.AllFit (start, tree) turns) :
    ∃ (suite : Suite) (marks : List Mark), turns.foldl Turn.after (start, tree) = (suite, tree)
      ∧ Turn.attachments (start, tree) turns
        = marks.map (fun m => (m.type, m.metaType, .ok m.node))
      ∧ (∃ (types : List String) (nodes : List Node), types.Nodup
        ∧ (∀ type, type ∈ types ↔ ∃ m ∈ marks, m.type = type)
        ∧ List.Forall₂ StandsFor types nodes
        ∧ ∀ stamp, (SuiteTask.ask stamp (.search .node (.typeEq typeNodeType))).Finds (suite, tree)
          (.ok nodes))
      ∧ ∀ stamp type metaType, (SuiteTask.metadataNode stamp type metaType).Finds (suite, tree)
        (.ok ((marks.find? fun m => m.type == type && m.metaType == metaType).map Mark.node)) := by
  obtain ⟨suite, used, types, marks, hrun, hattachments, hpresents, hmarked⟩ :=
    (hstart.presents htakes).run (List.forall_mem_nil _) hdistinct hfits
  rw [List.nil_append] at hpresents hmarked
  refine ⟨suite, marks, hrun, hattachments, ⟨types, _, hpresents.distinct, fun type => ?_,
    hpresents.standing, fun stamp => ?_⟩, fun stamp => hpresents.finds_metadataNode stamp tree⟩
  · exact ⟨hmarked type, fun ⟨m, hm, hsame⟩ => hsame ▸ hpresents.type_of_mark m hm⟩
  · have hall := hpresents.inOrder.finds_search (Searcher.selects_typeEq (c := .node) typeNodeType)
      stamp tree
    rwa [List.filter_eq_self.2 fun _ _ => rfl] at hall

/-! ## A sample -/

/-- A store for people and for the nodes that stand for types, and one for metadata and links. -/
def metaRegistrations : List Registration :=
  [⟨"data", .store .blank, ["Person", typeNodeType], ["Knows"]⟩,
    ⟨"meta", .store .blank, [summaryType, detailsType], [linkType]⟩]

def metaOwners : Owners where
  nodes := [("Person", "data"), (typeNodeType, "data"), (summaryType, "meta"),
    (detailsType, "meta")]
  relationships := [("Knows", "data"), (linkType, "meta")]

/-- Metadata for people, twice of one kind, and for teams of the other kind; in between a person is
    created and renamed. -/
def metaTurns : List Turn :=
  [.call ⟨⟨"1", 10⟩, .create .node (Body.node "Person" [("name", .string "a")])⟩,
    .call ⟨⟨"2", 11⟩, .edit .node (CompositeId.mk "data" (.ofString "1")).toId
      ⟨none, some [("name", .string "b")], ()⟩⟩,
    .attach ⟨⟨"3", 12⟩, ⟨"4", 12⟩, ⟨"5", 12⟩⟩ "Person" summaryType [("title", .string "$.name")],
    .call ⟨⟨"6", 13⟩, .create .node (Body.node "Person" [])⟩,
    .attach ⟨⟨"7", 14⟩, ⟨"8", 14⟩, ⟨"9", 14⟩⟩ "Person" summaryType [],
    .attach ⟨⟨"10", 15⟩, ⟨"11", 15⟩, ⟨"12", 15⟩⟩ "Team" detailsType []]

theorem build_metaRegistrations : (Assembly.ofList metaRegistrations).dispatcher
    = .ok (.dispatcher (Registration.members metaRegistrations) metaOwners) := by
  rfl

theorem allFit_metaTurns : Turn.AllFit
    (.dispatcher (Registration.members metaRegistrations) metaOwners, .sample) metaTurns := by
  have hperson (c : EntityClass) (type : String) (hreserved : Reserved c type) :
      ¬ (EntityClass.node = c ∧ "Person" = type) := by
    rintro ⟨rfl, rfl⟩
    rcases hreserved with h | h | h <;> exact absurd h (by decide)
  refine ⟨hperson, fun c type hreserved => ?_, .inl rfl, hperson, .inl rfl, .inr rfl, trivial⟩
  rintro ⟨hclass, e, he, htype⟩
  have htype' : "Person" = type := by
    obtain rfl : Suite.compose "data" (⟨.ofString "1", "Person", [("name", .string "a")], (),
        some 10⟩ : Node) = e := Option.some.inj (Except.ok.inj he)
    exact htype.elim id nofun
  exact hperson c type hreserved ⟨hclass, htype'⟩

/-- People are shown by the first summary that is attached for them, though another one is attached
    later, and have no details, which only teams have. -/
theorem attached_found_sample : ∃ start : Suite, start.Untouched
    ∧ (∀ c type, Reserved c type → start.Takes c type)
    ∧ (metaTurns.flatMap Turn.given).Nodup
    ∧ Turn.AllFit (start, .sample) metaTurns
    ∧ ∃ suite first second third, metaTurns.foldl Turn.after (start, .sample) = (suite, .sample)
      ∧ Turn.attachments (start, .sample) metaTurns = [("Person", summaryType, .ok first),
        ("Person", summaryType, .ok second), ("Team", detailsType, .ok third)]
      ∧ ∀ stamp, (SuiteTask.metadataNode stamp "Person" summaryType).Finds (suite, .sample)
          (.ok (some first))
        ∧ (SuiteTask.metadataNode stamp "Person" detailsType).Finds (suite, .sample) (.ok none)
        ∧ (SuiteTask.metadataNode stamp "Team" detailsType).Finds (suite, .sample)
          (.ok (some third)) := by
  have huntouched : (dispatcher (Registration.members metaRegistrations) metaOwners).Untouched := by
    refine .dispatcher (fun r hr => ?_) build_metaRegistrations
    refine ⟨.blank, ?_, fun _ _ => rfl, rfl⟩
    simp only [metaRegistrations, List.mem_cons, List.not_mem_nil, or_false] at hr
    rcases hr with rfl | rfl <;> rfl
  have htakes : ∀ c type, Reserved c type →
      (dispatcher (Registration.members metaRegistrations) metaOwners).Takes c type := by
    intro c type hreserved
    cases c with
    | node => rcases hreserved with rfl | rfl | rfl <;> exact ⟨_, rfl⟩
    | relationship =>
      obtain rfl : type = linkType := hreserved
      exact ⟨_, rfl⟩
  have hdistinct : (metaTurns.flatMap Turn.given).Nodup := by decide
  obtain ⟨suite, marks, hrun, hattachments, -, hfinds⟩ :=
    attached_found huntouched htakes .sample hdistinct allFit_metaTurns
  refine ⟨_, huntouched, htakes, hdistinct, allFit_metaTurns, suite, ?_⟩
  -- one mark for each of the three times, and nothing more is known of them
  have hlength := congrArg List.length hattachments
  rw [List.length_map] at hlength
  match marks, hlength with
  | [⟨_, _, first⟩, ⟨_, _, second⟩, ⟨_, _, third⟩], _ =>
    have hparts := hattachments
    simp only [metaTurns, Turn.attachments, List.map, List.cons.injEq, Prod.mk.injEq] at hparts
    obtain ⟨⟨rfl, rfl, -⟩, ⟨rfl, rfl, -⟩, ⟨rfl, rfl, -⟩, -⟩ := hparts
    exact ⟨first, second, third, hrun, hattachments, fun stamp =>
      ⟨hfinds stamp "Person" summaryType, hfinds stamp "Person" detailsType,
        hfinds stamp "Team" detailsType⟩⟩

end Suite

end PropertyGraph
