/-
  PropertyGraph.Proofs.Memory.Persistence

  A store whose state is kept in a snapshot file beside one whose state is kept as a value.  Under
  every errand that a caller can send a graph on, both give the same outcome, and an errand that
  fails leaves both as they were.  What carries a run is `Twins`: the snapshot file is loaded as the
  state of the other store.  An errand changes a state by its last call at most, so everything
  before that is a matter of looking.
-/
import PropertyGraph.Presentation.Lookup
import PropertyGraph.Proofs.Routing.Members

namespace PropertyGraph

open Json (Tree printedTree maxDepth)

variable {c : EntityClass} {s : GraphState} {tree tree' : FileTree} {path : String}

/-! ## States that a snapshot gives back -/

namespace GraphState

/-- A state without doubles whose text nests no deeper than a reader takes. -/
structure Legible (s : GraphState) : Prop where
  whole : ∀ c, ∀ e ∈ s.entities c, e.2.Proper Number.Whole
  shallow : s.toJson.nesting ≤ maxDepth

/-- Two brackets stand around the text of an entity in that of a state. -/
theorem nesting_entity_le (s : GraphState) {e : String × Entity c} (he : e ∈ s.entities c) :
    2 + e.2.toJson.nesting ≤ s.toJson.nesting := by
  have hclass : e.2.toJson.nesting + 1 ≤ (s.entriesJson c).nesting := by
    have hmem : (e.1, e.2.toJson) ∈ (s.entities c).map fun e => (e.1, e.2.toJson) :=
      List.mem_map_of_mem he
    have hle := Json.nestingEntries_le_iff.1 (Nat.le_refl _) _ hmem
    rw [entriesJson, Json.nesting]
    exact Nat.succ_le_succ hle
  have hstate : (s.entriesJson c).nesting + 1 ≤ s.toJson.nesting := by
    rw [toJson_eq, Json.nesting, Json.nestingEntries, Json.nestingEntries, Json.nestingEntries]
    cases c <;> omega
  omega

theorem legible_empty : Legible empty where
  whole c e he := by cases c <;> exact absurd he List.not_mem_nil
  shallow := by decide

theorem Legible.withinLimit (h : s.Legible) : s.WithinLimit := by
  intro c e he
  have hnesting := s.nesting_entity_le he
  have hlimit := h.shallow
  exact (Tree.withinLimit_printedTree_iff (by decide) _).2 (by omega)

/-- The text of a legible state with entities under their own keys is read as that state. -/
theorem Legible.decode_pretty (h : s.Legible) (hkeyed : s.Keyed) :
    decode (Tree.ofText s.toJson.pretty) = .ok s := by
  have hproper : s.Proper Number.Whole (Entries.keys s.nodes ++ Entries.keys s.relationships) := by
    refine ⟨hkeyed.distinct, fun c key hkey => ?_, h.whole⟩
    cases c with
    | node => exact List.mem_append_left _ hkey
    | relationship => exact List.mem_append_right _ hkey
  exact GraphState.decode_pretty hproper h.withinLimit

end GraphState

/-! ## Loading and saving -/

namespace Keeper

theorem exec_replace_error {path text : String} {f : Failure}
    (h : (FileTask.replace path text).exec tree = (.error f, tree')) : f = .io := by
  rw [FileTask.replace, FileTask.exec_bind, FileTask.exec_write] at h
  cases hwrite : tree.write? (FilePath.withExtension path "json.tmp") text with
  | none =>
    rw [hwrite] at h
    exact (Except.error.inj (congrArg Prod.fst h)).symm
  | some tree₁ =>
    simp only [hwrite, FileTask.exec_rename] at h
    cases hrename : tree₁.rename? (FilePath.withExtension path "json.tmp") path with
    | none =>
      rw [hrename] at h
      exact (Except.error.inj (congrArg Prod.fst h)).symm
    | some tree₂ =>
      rw [hrename] at h
      cases congrArg Prod.fst h

/-- Saving fails only for the sake of files. -/
theorem exec_save_error {f : Failure} (h : (save path s).exec tree = (.error f, tree')) :
    f = .io := by
  rw [save] at h
  cases habove : FilePath.parent? path with
  | none =>
    simp only [habove] at h
    exact exec_replace_error h
  | some above =>
    simp only [habove] at h
    rw [FileTask.exec_bind, FileTask.exec_makeDirectories] at h
    rcases hmade : tree.makeDirectories above with ⟨_ | _, tree₁⟩
    · rw [hmade] at h
      exact (Except.error.inj (congrArg Prod.fst h)).symm
    · rw [hmade] at h
      exact exec_replace_error h

/-- What is saved is loaded again. -/
theorem exec_load_of_save (hkeyed : s.Keyed) (hlegible : s.Legible)
    (hsave : (save path s).exec tree = (.ok (), tree')) :
    (load path).exec tree' = (.ok s, tree') := by
  have hread := (gains_save path s tree).2
  rw [hsave] at hread
  rw [exec_load_of_read (hread rfl), hlegible.decode_pretty hkeyed]
  rfl

end Keeper

/-! ## Calls -/

namespace Store

variable {store : Store} {stamp : Stamp} {call : Call}

/-- The store with its state in a snapshot file. -/
def onFile (store : Store) (path : String) : Store := { store with keeper := .snapshot path }

theorem withState_injective {s s' : GraphState} (h : store.withState s = store.withState s') :
    s = s' := Keeper.shared.inj (Store.mk.inj h).2.2

/-- Unless files have failed, an outcome is that of an answer from a state, the snapshot holds the
    state after that answer, and nothing has been written if it is a failure. -/
def Reflects {α : Type} (path : String) (tree tree' : FileTree) (outcome : Outcome α)
    (answer : Outcome α × GraphState) : Prop :=
  outcome ≠ .error .io → outcome = answer.1
    ∧ (Keeper.load path).exec tree' = (.ok answer.2, tree')
    ∧ ∀ f, outcome = .error f → tree' = tree

/-- A look at a snapshot is one at the state in it. -/
theorem run_look_onFile {α : Type} (hload : (Keeper.load path).exec tree = (.ok s, tree))
    (f : GraphState → Outcome α) :
    ((store.onFile path).look f).run tree = ((f s, store.onFile path), tree) := by
  have hkeeper : (store.onFile path).keeper = .snapshot path := rfl
  rw [run_look hkeeper, hload]
  rfl

/-- A change of a snapshot does what it does to the state in it. -/
theorem run_change_onFile {α : Type} (hload : (Keeper.load path).exec tree = (.ok s, tree))
    {f : GraphState → Outcome α × GraphState} (hkeyed : (f s).2.Keyed)
    (hlegible : (f s).2.Legible) (hfails : ∀ e, (f s).1 = .error e → (f s).2 = s) :
    ∃ outcome tree',
      ((store.onFile path).change f).run tree = ((outcome, store.onFile path), tree')
      ∧ Reflects path tree tree' outcome (f s) := by
  rw [change, onFile, Keeper.update]
  simp only [FileProgram.run_bind, FileProgram.run_pure, Keeper.run_outcome]
  rw [FileTask.exec_bind_of_ok hload]
  rcases hresult : f s with ⟨outcome, s'⟩
  rw [hresult] at hkeyed hlegible hfails
  cases outcome with
  | error e =>
    simp only [FileTask.exec_bind_of_error (FileTask.exec_ofOutcome _ _)]
    refine ⟨_, _, rfl, fun _ => ⟨rfl, ?_, fun _ _ => rfl⟩⟩
    obtain rfl : s' = s := hfails e rfl
    exact hload
  | ok a =>
    simp only [FileTask.exec_bind_of_ok (FileTask.exec_ofOutcome _ _)]
    -- a new state that cannot be saved is reported as a failure of files
    rcases hsave : (Keeper.save path s').exec tree with ⟨saved, tree'⟩
    cases saved with
    | error e =>
      rw [FileTask.exec_bind_of_error hsave]
      refine ⟨_, _, rfl, fun hfiles => absurd ?_ hfiles⟩
      rw [Keeper.exec_save_error hsave]
    | ok _ =>
      rw [FileTask.exec_bind_of_ok hsave]
      refine ⟨_, _, rfl, fun _ => ⟨rfl, Keeper.exec_load_of_save hkeyed hlegible hsave, ?_⟩⟩
      intro e he
      cases he

/-- A call that looks is answered from the state in the snapshot. -/
theorem run_answer_onFile_of_looks (hload : (Keeper.load path).exec tree = (.ok s, tree))
    (hlooks : call.Looks) :
    ((store.onFile path).answer stamp call).run tree
      = (((store.respond stamp s call).1, store.onFile path), tree) := by
  cases call with
  | get c id =>
    rw [answer, withKey, respond]
    cases id.requireText with
    | ok key => exact run_look_onFile hload _
    | error failure => rfl
  | search c searcher =>
    have hevaluators : (store.onFile path).evaluators = store.evaluators := rfl
    rw [answer, respond, Searcher.filter, hevaluators]
    cases searcher.compile (store.evaluators.forClass c) with
    | ok m => exact run_look_onFile hload _
    | error failure => rfl
  | types c => exact run_look_onFile hload _
  | _ => exact hlooks.elim

/-- Every call is answered from the state in the snapshot, which holds the state after the call
    then. -/
theorem run_answer_onFile (hload : (Keeper.load path).exec tree = (.ok s, tree))
    (hkeyed : s.Keyed) (hlegible : (store.respond stamp s call).2.Legible) :
    ∃ outcome tree',
      ((store.onFile path).answer stamp call).run tree = ((outcome, store.onFile path), tree')
      ∧ Reflects path tree tree' outcome (store.respond stamp s call) := by
  have hkeyed' := store.keyed_respond hkeyed stamp call
  have hfails : ∀ f, (store.respond stamp s call).1 = .error f →
      (store.respond stamp s call).2 = s :=
    fun f hf => Suite.respond_unchanged (.inr ⟨f, hf⟩)
  have hlook : call.Looks → Reflects path tree tree (store.respond stamp s call).1
      (store.respond stamp s call) := by
    intro hlooks _
    rw [Suite.respond_unchanged (.inl hlooks)]
    exact ⟨rfl, hload, fun _ _ => rfl⟩
  cases call with
  | get c id => exact ⟨_, _, run_answer_onFile_of_looks hload trivial, hlook trivial⟩
  | search c searcher => exact ⟨_, _, run_answer_onFile_of_looks hload trivial, hlook trivial⟩
  | types c => exact ⟨_, _, run_answer_onFile_of_looks hload trivial, hlook trivial⟩
  | create c body => exact run_change_onFile hload hkeyed' hlegible hfails
  -- an identity that is no text is refused before the file is opened
  | edit c id patch =>
    rw [answer, withKey]
    rw [respond] at hkeyed' hlegible hfails ⊢
    cases hkey : id.requireText with
    | ok key =>
      simp only [hkey] at hkeyed' hlegible hfails
      exact run_change_onFile hload hkeyed' hlegible hfails
    | error failure => exact ⟨_, _, rfl, fun _ => ⟨rfl, hload, fun _ _ => rfl⟩⟩
  | remove c id =>
    rw [answer, withKey]
    rw [respond] at hkeyed' hlegible hfails ⊢
    cases hkey : id.requireText with
    | ok key =>
      simp only [hkey] at hkeyed' hlegible hfails
      exact run_change_onFile hload hkeyed' hlegible hfails
    | error failure => exact ⟨_, _, rfl, fun _ => ⟨rfl, hload, fun _ _ => rfl⟩⟩

end Store

/-! ## Tasks that look -/

namespace SuiteTask

variable {α β : Type} {stamp : Stamp} {first second : Suite × FileTree}

/-- A task goes on with the result of another one, or ends with its failure. -/
theorem run_bind (task : SuiteTask α) (next : α → SuiteTask β) (suite : Suite) (tree : FileTree) :
    ((task >>= next).runOn suite).run tree
      = match (task.runOn suite).run tree with
        | ((.ok a, suite), tree) => ((next a).runOn suite).run tree
        | ((.error failure, suite), tree) => ((.error failure, suite), tree) := by
  show FileProgram.run (task.runOn suite >>= _) tree = _
  rw [FileProgram.run_bind]
  rcases (task.runOn suite).run tree with ⟨⟨outcome, suite'⟩, tree'⟩
  cases outcome <;> rfl

/-- Two suites have the same outcome of a task, which leaves both as they are. -/
def LooksAlike (first second : Suite × FileTree) (task : SuiteTask α) : Prop :=
  ∃ outcome, (task.runOn first.1).run first.2 = ((outcome, first.1), first.2)
    ∧ (task.runOn second.1).run second.2 = ((outcome, second.1), second.2)

theorem looksAlike_pure (a : α) : LooksAlike first second (pure a) := ⟨.ok a, rfl, rfl⟩

theorem looksAlike_ofDecoded (d : Json.Decoded α) : LooksAlike first second (ofDecoded d) := by
  cases d with
  | ok a => exact looksAlike_pure a
  | error problem => exact ⟨.error .malformed, rfl, rfl⟩

theorem LooksAlike.bind {task : SuiteTask α} {next : α → SuiteTask β}
    (h : LooksAlike first second task) (hnext : ∀ a, LooksAlike first second (next a)) :
    LooksAlike first second (task >>= next) := by
  obtain ⟨outcome, hfirst, hsecond⟩ := h
  rw [LooksAlike, run_bind, run_bind, hfirst, hsecond]
  cases outcome with
  | ok a => exact hnext a
  | error failure => exact ⟨.error failure, rfl, rfl⟩

section Metadata

variable (hlooks : ∀ call : Call, call.Looks → LooksAlike first second (ask stamp call))
include hlooks

theorem looksAlike_followLinks (metaType : String) (links : List Relationship) :
    LooksAlike first second (followLinks stamp metaType links) := by
  induction links with
  | nil => exact looksAlike_pure none
  | cons link rest ih =>
    refine (hlooks (.get .node _) trivial).bind fun found => ?_
    cases (show Option Node from found) with
    | none => exact ih
    | some node =>
      show LooksAlike first second (if node.type = metaType then _ else _)
      split
      · exact looksAlike_pure (some node)
      · exact ih

theorem looksAlike_followTypes (metaType : String) (nodes : List Node) :
    LooksAlike first second (followTypes stamp metaType nodes) := by
  induction nodes with
  | nil => exact looksAlike_pure none
  | cons node rest ih =>
    refine (hlooks (.search .relationship _) trivial).bind fun links => ?_
    refine (looksAlike_followLinks hlooks metaType links).bind fun found => ?_
    cases found with
    | none => exact ih
    | some node => exact looksAlike_pure (some node)

theorem looksAlike_metadataNode (type metaType : String) :
    LooksAlike first second (metadataNode stamp type metaType) :=
  (hlooks (.search .node _) trivial).bind fun nodes => looksAlike_followTypes hlooks metaType nodes

/-- Metadata of any kind is looked up alike. -/
theorem looksAlike_summaryOf (type : String) : LooksAlike first second (summaryOf stamp type) := by
  refine (looksAlike_metadataNode hlooks type summaryType).bind fun found => ?_
  cases found with
  | none => exact looksAlike_pure _
  | some node => exact looksAlike_ofDecoded _

theorem looksAlike_detailsOf (type : String) : LooksAlike first second (detailsOf stamp type) := by
  refine (looksAlike_metadataNode hlooks type detailsType).bind fun found => ?_
  cases found with
  | none => exact looksAlike_pure _
  | some node => exact looksAlike_ofDecoded _

end Metadata

end SuiteTask

/-! ## Side by side -/

namespace Store

variable {store : Store} {stamp : Stamp} {other : FileTree}

/-- What a task does side by side: the outcome from a state as a value, and what the snapshot of
    that state makes of it. -/
def Parallel {α : Type} (store : Store) (path : String) (s : GraphState) (other tree : FileTree)
    (task : SuiteTask α) : Prop :=
  ∃ answer outcome tree',
    (task.runOn (.store (store.withState s))).run other
        = ((answer.1, .store (store.withState answer.2)), other)
    ∧ (task.runOn (.store (store.onFile path))).run tree
        = ((outcome, .store (store.onFile path)), tree')
    ∧ answer.2.Keyed ∧ (∀ f, answer.1 = .error f → answer.2 = s)
    ∧ Reflects path tree tree' outcome answer

/-- A task leaves no state but legible ones. -/
def LeavesLegible {α : Type} (store : Store) (s : GraphState) (other : FileTree)
    (task : SuiteTask α) : Prop :=
  ∀ outcome s', (task.runOn (.store (store.withState s))).run other
    = ((outcome, .store (store.withState s')), other) → s'.Legible

theorem run_sharing (store : Store) (s : GraphState) (stamp : Stamp) (call : Call)
    (other : FileTree) :
    ((SuiteTask.ask stamp call).runOn (.store (store.withState s))).run other
      = (((store.respond stamp s call).1,
          .store (store.withState (store.respond stamp s call).2)), other) := by
  show (Suite.answer stamp (.store (store.withState s)) call).run other = _
  rw [Suite.run_store, run_answer_withState]

section Saved

variable (hload : (Keeper.load path).exec tree = (.ok s, tree))
include hload

theorem looksAlike_ask (stamp : Stamp) {call : Call} (hlooks : call.Looks) :
    SuiteTask.LooksAlike (.store (store.withState s), other) (.store (store.onFile path), tree)
      (SuiteTask.ask stamp call) := by
  refine ⟨(store.respond stamp s call).1, ?_, ?_⟩
  · have hrun := run_sharing store s stamp call other
    rwa [Suite.respond_unchanged (.inl hlooks)] at hrun
  · show (Suite.answer stamp (.store (store.onFile path)) call).run tree = _
    rw [Suite.run_store, run_answer_onFile_of_looks hload hlooks]

variable (hkeyed : s.Keyed)
include hkeyed

theorem parallel_of_looksAlike {α : Type} {task : SuiteTask α}
    (h : SuiteTask.LooksAlike (.store (store.withState s), other)
      (.store (store.onFile path), tree) task) : store.Parallel path s other tree task := by
  obtain ⟨outcome, hfirst, hsecond⟩ := h
  exact ⟨(outcome, s), outcome, tree, hfirst, hsecond, hkeyed, fun _ _ => rfl,
    fun _ => ⟨rfl, hload, fun _ _ => rfl⟩⟩

theorem parallel_ask (stamp : Stamp) {call : Call}
    (hlegible : store.LeavesLegible s other (SuiteTask.ask stamp call)) :
    store.Parallel path s other tree (SuiteTask.ask stamp call) := by
  have hrun := run_sharing store s stamp call other
  obtain ⟨outcome, tree', hsaving, hreflects⟩ :=
    run_answer_onFile hload hkeyed (hlegible _ _ hrun)
  refine ⟨store.respond stamp s call, outcome, tree', hrun, ?_,
    store.keyed_respond hkeyed stamp call, fun f hf => Suite.respond_unchanged (.inr ⟨f, hf⟩),
    hreflects⟩
  show (Suite.answer stamp (.store (store.onFile path)) call).run tree = _
  rw [Suite.run_store, hsaving]

/-- After a task that looks the next one goes on side by side. -/
theorem parallel_bind {α β : Type} {task : SuiteTask α} {next : α → SuiteTask β}
    (h : SuiteTask.LooksAlike (.store (store.withState s), other)
      (.store (store.onFile path), tree) task)
    (hlegible : store.LeavesLegible s other (task >>= next))
    (hnext : ∀ a, store.LeavesLegible s other (next a) →
      store.Parallel path s other tree (next a)) :
    store.Parallel path s other tree (task >>= next) := by
  obtain ⟨outcome, hfirst, hsecond⟩ := h
  rw [LeavesLegible, SuiteTask.run_bind, hfirst] at hlegible
  rw [Parallel, SuiteTask.run_bind, SuiteTask.run_bind, hfirst, hsecond]
  cases outcome with
  | ok a => exact hnext a hlegible
  | error failure =>
    exact ⟨(.error failure, s), .error failure, tree, rfl, rfl, hkeyed, fun _ _ => rfl,
      fun _ => ⟨rfl, hload, fun _ _ => rfl⟩⟩

/-- The node to be copied is looked up alike, and the copy is created like any other node. -/
theorem parallel_duplicate (stamp : Stamp) {id : Id}
    (hlegible : store.LeavesLegible s other (SuiteTask.duplicate stamp id)) :
    store.Parallel path s other tree (SuiteTask.duplicate stamp id) := by
  have hlookup : Call.Looks (.get .node id) := trivial
  refine parallel_bind hload hkeyed (looksAlike_ask hload stamp hlookup) hlegible
    fun (found : Option Node) h => ?_
  cases found with
  | none => exact parallel_of_looksAlike hload hkeyed ⟨.error (.notFound .node id), rfl, rfl⟩
  | some source => exact parallel_ask hload hkeyed stamp h

end Saved

end Store

/-! ## Errands -/

/-- What a caller sends a graph on: a call, or one of the tasks that every graph offers. -/
inductive Errand where
  | call (call : Call)
  | duplicate (id : Id)
  | createEmpty
  | summaryOf (type : String)
  | detailsOf (type : String)

namespace Errand

/-- What an errand results in. -/
def Reply : Errand → Type
  | .call request => request.Reply
  | .duplicate _ => Node
  | .createEmpty => Node
  | .summaryOf _ => Summary
  | .detailsOf _ => Details

/-- An errand as a task. -/
def task (stamp : Stamp) : (errand : Errand) → SuiteTask errand.Reply
  | .call request => SuiteTask.ask stamp request
  | .duplicate id => SuiteTask.duplicate stamp id
  | .createEmpty => SuiteTask.createEmpty stamp
  | .summaryOf type => SuiteTask.summaryOf stamp type
  | .detailsOf type => SuiteTask.detailsOf stamp type

/-- The outcome of an errand, and the suite and the files after it. -/
def perform (errand : Errand) (stamp : Stamp) (state : Suite × FileTree) :
    Outcome errand.Reply × Suite × FileTree :=
  let ((outcome, suite), tree) := ((errand.task stamp).runOn state.1).run state.2
  (outcome, suite, tree)

theorem perform_of_run {errand : Errand} {stamp : Stamp} {suite suite' : Suite}
    {outcome : Outcome errand.Reply}
    (h : ((errand.task stamp).runOn suite).run tree = ((outcome, suite'), tree')) :
    errand.perform stamp (suite, tree) = (outcome, suite', tree') := by
  rw [perform, h]

/-- Every errand is answered from the state in the snapshot. -/
theorem parallel {store : Store} {other : FileTree} {stamp : Stamp} (errand : Errand)
    (hload : (Keeper.load path).exec tree = (.ok s, tree)) (hkeyed : s.Keyed)
    (hlegible : store.LeavesLegible s other (errand.task stamp)) :
    store.Parallel path s other tree (errand.task stamp) := by
  cases errand with
  | call request => exact Store.parallel_ask hload hkeyed stamp hlegible
  | duplicate id => exact Store.parallel_duplicate hload hkeyed stamp hlegible
  | createEmpty => exact Store.parallel_ask hload hkeyed stamp hlegible
  | summaryOf type =>
    exact Store.parallel_of_looksAlike hload hkeyed
      (SuiteTask.looksAlike_summaryOf (fun _ => Store.looksAlike_ask hload stamp) type)
  | detailsOf type =>
    exact Store.parallel_of_looksAlike hload hkeyed
      (SuiteTask.looksAlike_detailsOf (fun _ => Store.looksAlike_ask hload stamp) type)

end Errand

/-! ## Runs -/

/-- What happens to a graph: an errand with what it takes from its surroundings, or the graph is
    opened anew where its state is kept. -/
inductive Happening where
  | send (stamp : Stamp) (errand : Errand)
  | reopen

namespace Happening

/-- The suite and the files after a happening; `reopen` gives the suite that is opened anew. -/
def next (reopen : Suite → Suite) (state : Suite × FileTree) : Happening → Suite × FileTree
  | .send stamp errand => (errand.perform stamp state).2
  | .reopen => (reopen state.1, state.2)

/-- Whether a happening does not fail for the sake of files. -/
def unhindered (state : Suite × FileTree) : Happening → Bool
  | .send stamp errand =>
    match (errand.perform stamp state).1 with
    | .error .io => false
    | _ => true
  | .reopen => true

/-- The suite and the files after a run. -/
def after (reopen : Suite → Suite) (state : Suite × FileTree) (run : List Happening) :
    Suite × FileTree := run.foldl (next reopen) state

theorem after_append (reopen : Suite → Suite) (state : Suite × FileTree) (run : List Happening)
    (last : Happening) :
    after reopen state (run ++ [last]) = next reopen (after reopen state run) last := by
  simp [after]

end Happening

namespace Store

open Happening (after)

variable {store : Store} {other : FileTree}

/-- An empty store with its state as a value after a run; what is kept as a value cannot be opened
    anew. -/
def sharedAfter (store : Store) (other : FileTree) (run : List Happening) : Suite × FileTree :=
  after id (.store (store.withState .empty), other) run

/-- A store with its state in a snapshot file after a run; to open it anew is to make a new store
    over the same file. -/
def savedAfter (store : Store) (path : String) (tree : FileTree) (run : List Happening) :
    Suite × FileTree :=
  after (fun _ => .store (store.onFile path)) (.store (store.onFile path), tree) run

/-- A run in which all states are legible and files do not fail, from a snapshot that is loaded as
    the empty state. -/
structure Undisturbed (store : Store) (path : String) (other tree : FileTree)
    (run : List Happening) : Prop where
  blank : (Keeper.load path).exec tree = (.ok .empty, tree)
  legible : ∀ before rest, run = before ++ rest → ∀ s,
    store.sharedAfter other before = (.store (store.withState s), other) → s.Legible
  files : ∀ before stamp errand rest, run = before ++ .send stamp errand :: rest →
    (errand.perform stamp (store.savedAfter path tree before)).1 ≠ .error .io

theorem Undisturbed.before {run rest : List Happening}
    (h : store.Undisturbed path other tree (run ++ rest)) :
    store.Undisturbed path other tree run where
  blank := h.blank
  legible before rest' hrun := h.legible before (rest' ++ rest) (by simp [hrun])
  files before stamp errand rest' hrun :=
    h.files before stamp errand (rest' ++ rest) (by simp [hrun])

theorem undisturbed_nil (hblank : (Keeper.load path).exec tree = (.ok .empty, tree)) :
    store.Undisturbed path other tree [] where
  blank := hblank
  legible before rest hrun s hs := by
    obtain rfl : before = [] := (List.append_eq_nil_iff.1 hrun.symm).1
    obtain rfl := withState_injective (Suite.store.inj (congrArg Prod.fst hs))
    exact GraphState.legible_empty
  files before stamp errand rest hrun := by simp at hrun

variable {run before rest : List Happening} {stamp : Stamp} {errand : Errand}

/-- A run goes on undisturbed when its last happening leaves a legible state and does not fail for
    the sake of files. -/
theorem Undisturbed.append {last : Happening} (h : store.Undisturbed path other tree run)
    (hafter : store.sharedAfter other (run ++ [last]) = (.store (store.withState s), other))
    (hlegible : s.Legible)
    (hfiles : last.unhindered (store.savedAfter path tree run) = true) :
    store.Undisturbed path other tree (run ++ [last]) where
  blank := h.blank
  legible before rest hrun s' hs' := by
    rcases List.eq_nil_or_concat rest with rfl | ⟨rest, final, rfl⟩
    · rw [List.append_nil] at hrun
      rw [← hrun, hafter] at hs'
      rwa [← withState_injective (Suite.store.inj (congrArg Prod.fst hs'))]
    · rw [List.concat_eq_append, ← List.append_assoc] at hrun
      exact h.legible before rest (List.append_inj' hrun rfl).1 s' hs'
  files before stamp errand rest hrun := by
    rcases List.eq_nil_or_concat rest with rfl | ⟨rest, final, rfl⟩
    · obtain ⟨rfl, hlast⟩ := List.append_inj' hrun rfl
      rw [(List.cons.inj hlast).1, Happening.unhindered] at hfiles
      intro hio
      rw [hio] at hfiles
      cases hfiles
    · rw [List.concat_eq_append, ← List.cons_append, ← List.append_assoc] at hrun
      exact h.files before stamp errand rest (List.append_inj' hrun rfl).1

/-- An errand after which the run is undisturbed has one outcome, and leaves the state as a value
    and in the snapshot. -/
theorem Undisturbed.perform_twins
    (h : store.Undisturbed path other tree (before ++ [.send stamp errand]))
    (hshared : store.sharedAfter other before = (.store (store.withState s), other))
    (hsaved : store.savedAfter path tree before = (.store (store.onFile path), tree'))
    (hkeyed : s.Keyed) (hload : (Keeper.load path).exec tree' = (.ok s, tree')) :
    ∃ (answer : Outcome errand.Reply × GraphState) (tree'' : FileTree),
      errand.perform stamp (.store (store.withState s), other)
        = (answer.1, .store (store.withState answer.2), other)
      ∧ errand.perform stamp (.store (store.onFile path), tree')
        = (answer.1, .store (store.onFile path), tree'')
      ∧ answer.2.Keyed ∧ (Keeper.load path).exec tree'' = (.ok answer.2, tree'')
      ∧ ∀ f, answer.1 = .error f → answer.2 = s ∧ tree'' = tree' := by
  have hlegible : store.LeavesLegible s other (errand.task stamp) := by
    intro outcome s' hrun
    refine h.legible _ [] (List.append_nil _).symm s' ?_
    rw [sharedAfter, Happening.after_append, ← sharedAfter, hshared, Happening.next,
      Errand.perform_of_run hrun]
  obtain ⟨answer, outcome, tree'', hfirst, hsecond, hkeyed', hfails, hreflects⟩ :=
    errand.parallel hload hkeyed hlegible
  have hfiles := h.files before stamp errand [] rfl
  rw [hsaved, Errand.perform_of_run hsecond] at hfiles
  obtain ⟨rfl, hload', hwrites⟩ := hreflects hfiles
  exact ⟨answer, tree'', Errand.perform_of_run hfirst, Errand.perform_of_run hsecond, hkeyed',
    hload', fun f hf => ⟨hfails f hf, hwrites f hf⟩⟩

/-- After every run the snapshot is loaded as the state that is kept as a value. -/
theorem twins_after (h : store.Undisturbed path other tree run) :
    ∃ s tree', store.sharedAfter other run = (.store (store.withState s), other)
      ∧ store.savedAfter path tree run = (.store (store.onFile path), tree')
      ∧ s.Keyed ∧ (Keeper.load path).exec tree' = (.ok s, tree') := by
  induction run using List.reverseRecOn with
  | nil => exact ⟨.empty, tree, rfl, rfl, GraphState.keyed_empty, h.blank⟩
  | append_singleton run last ih =>
    obtain ⟨s, tree', hshared, hsaved, hkeyed, hload⟩ := ih h.before
    have hshared' : store.sharedAfter other (run ++ [last]) = last.next id _ :=
      Happening.after_append ..
    have hsaved' : store.savedAfter path tree (run ++ [last]) = last.next _ _ :=
      Happening.after_append ..
    rw [← sharedAfter, hshared] at hshared'
    rw [← savedAfter, hsaved] at hsaved'
    cases last with
    | reopen => exact ⟨s, tree', hshared', hsaved', hkeyed, hload⟩
    | send stamp errand =>
      obtain ⟨answer, tree'', hfirst, hsecond, hkeyed', hload', -⟩ :=
        h.perform_twins hshared hsaved hkeyed hload
      refine ⟨answer.2, tree'', ?_, ?_, hkeyed', hload'⟩
      · rw [hshared', Happening.next, hfirst]
      · rw [hsaved', Happening.next, hsecond]

/-- Side by side, a store with its state as a value and one with its state in a snapshot file give
    the same outcome of every errand of every run, however often the snapshot is opened anew; and
    an errand that fails leaves both, and all files, as they were. -/
theorem snapshot_agrees (h : store.Undisturbed path other tree run)
    (hrun : run = before ++ .send stamp errand :: rest) :
    (errand.perform stamp (store.savedAfter path tree before)).1
        = (errand.perform stamp (store.sharedAfter other before)).1
      ∧ ∀ f, (errand.perform stamp (store.sharedAfter other before)).1 = .error f →
        (errand.perform stamp (store.sharedAfter other before)).2 = store.sharedAfter other before
        ∧ (errand.perform stamp (store.savedAfter path tree before)).2
          = store.savedAfter path tree before := by
  have hupto : store.Undisturbed path other tree (before ++ [.send stamp errand]) := by
    rw [hrun, List.append_cons] at h
    exact h.before
  obtain ⟨s, tree', hshared, hsaved, hkeyed, hload⟩ := twins_after hupto.before
  obtain ⟨answer, tree'', hfirst, hsecond, -, -, hfails⟩ :=
    hupto.perform_twins hshared hsaved hkeyed hload
  rw [hshared, hsaved, hfirst, hsecond]
  refine ⟨rfl, fun f hf => ?_⟩
  obtain ⟨hs, rfl⟩ := hfails f hf
  exact ⟨by rw [hs], rfl⟩

def person : Body .node := Body.node "Person" [("name", .string "a")]

def personCreation : Happening := .send ⟨"1", 10⟩ (.call (.create .node person))

def absentChange : Errand :=
  .call (.edit .relationship (.ofString "1") ⟨some "Knows", none, ⟨none, none⟩⟩)

theorem undisturbed_absentChange : blank.Undisturbed "/g/state.json" .sample .sample
    [personCreation, .reopen, .send ⟨"2", 11⟩ absentChange] := by
  have hperson : person.Proper Number.Whole :=
    ⟨show (Json.object person.properties).Proper _ from ⟨by decide, trivial, trivial⟩, trivial⟩
  have hlegible :
      (GraphState.empty.insert "1" (person.create (.ofString "1") (some 10))).Legible := by
    refine ⟨fun c e he => ?_, by decide⟩
    cases c with
    | node =>
      obtain rfl := List.mem_singleton.1 he
      exact hperson.create "1" (show TimeFits 10 by decide)
    | relationship => exact absurd he List.not_mem_nil
  have hmissing : FileTree.sample.read "/g/state.json" = .error .missing := by decide +kernel
  have hnil : blank.Undisturbed "/g/state.json" .sample .sample [] :=
    undisturbed_nil (Keeper.exec_load_of_error hmissing)
  have hcreation : blank.Undisturbed "/g/state.json" .sample .sample [personCreation] :=
    hnil.append rfl hlegible (by decide +kernel)
  have hreopen : blank.Undisturbed "/g/state.json" .sample .sample [personCreation, .reopen] :=
    hcreation.append rfl hlegible rfl
  exact hreopen.append rfl hlegible (by decide +kernel)

/-- A person is made and the snapshot is opened anew; then a change of a link that does not exist
    fails in both stores and leaves both as they were. -/
theorem snapshot_agrees_absentChange :
    blank.Undisturbed "/g/state.json" .sample .sample
        [personCreation, .reopen, .send ⟨"2", 11⟩ absentChange]
      ∧ (absentChange.perform ⟨"2", 11⟩
          (blank.sharedAfter .sample [personCreation, .reopen])).1
        = .error (.notFound .relationship (.ofString "1"))
      ∧ (absentChange.perform ⟨"2", 11⟩
          (blank.savedAfter "/g/state.json" .sample [personCreation, .reopen])).1
        = .error (.notFound .relationship (.ofString "1"))
      ∧ (absentChange.perform ⟨"2", 11⟩
          (blank.savedAfter "/g/state.json" .sample [personCreation, .reopen])).2
        = blank.savedAfter "/g/state.json" .sample [personCreation, .reopen] := by
  have hfails : (absentChange.perform ⟨"2", 11⟩
      (blank.sharedAfter .sample [personCreation, .reopen])).1
        = .error (.notFound .relationship (.ofString "1")) := rfl
  have hsplit : [personCreation, .reopen, .send ⟨"2", 11⟩ absentChange]
    = [personCreation, .reopen] ++ .send ⟨"2", 11⟩ absentChange :: [] := rfl
  obtain ⟨hsame, hunchanged⟩ := snapshot_agrees undisturbed_absentChange hsplit
  exact ⟨undisturbed_absentChange, hfails, hsame.trans hfails, (hunchanged _ hfails).2⟩

end Store

end PropertyGraph
