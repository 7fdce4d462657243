/-
  PropertyGraph.Proofs.Searcher.PlanPrecise

  Which types a plan names.  A searcher asks for a type where a leaf for that type can be reached
  through conjunctions alone.  A plan narrows exactly when the searcher asks for some type; it
  names that type if it is the only one that is asked for, and no type if there are several.

  The induction follows the nesting of conjunctions and carries `Plan.NamesAsked`, which says of a
  narrowing plan that it names a type exactly when the searcher asks for no other.  A conjunction
  gets this from its parts because it asks for what they ask for and names what they all name.
-/
import PropertyGraph.Proofs.Searcher.PlanSound

namespace PropertyGraph

namespace Searcher

/-- A searcher asks for a type: a leaf for the type is reached through conjunctions alone. -/
inductive AsksFor : Searcher → String → Prop where
  | leaf (type : String) : AsksFor (.typeEq type) type
  | part {searchers : List Searcher} {s : Searcher} {type : String} (hmem : s ∈ searchers)
      (h : AsksFor s type) : AsksFor (.all searchers) type

theorem asksFor_typeEq_iff {type asked : String} : AsksFor (.typeEq type) asked ↔ asked = type := by
  constructor
  · rintro ⟨⟩
    rfl
  · rintro rfl
    exact .leaf asked

theorem asksFor_all_iff {searchers : List Searcher} {asked : String} :
    AsksFor (.all searchers) asked ↔ ∃ s ∈ searchers, s.AsksFor asked := by
  constructor
  · rintro ⟨⟩
    next s hmem h => exact ⟨s, hmem, h⟩
  · rintro ⟨s, hmem, h⟩
    exact .part hmem h

end Searcher

namespace Plan

open Searcher (AsksFor)

/-- A plan of `s` leaves all types open if `s` asks for none, and else names a type exactly when
    `s` asks for no other. -/
def NamesAsked (s : Searcher) : Plan → Prop
  | .everyType _ => ∀ type, ¬ s.AsksFor type
  | .byType residuals =>
    (∃ type, s.AsksFor type)
      ∧ ∀ type, type ∈ residuals.keys ↔ ∀ asked, s.AsksFor asked → asked = type

/-! ## Conjunctions -/

/-- A conjunction that stays as it is has no narrowing part. -/
theorem not_mem_of_ofAll_everyType {s whole : Searcher} {plans : List Plan}
    (h : ofAll s plans = .ok (.everyType whole)) (residuals : Entries Searcher) :
    .byType residuals ∉ plans := by
  rw [ofAll] at h
  split at h
  · next hopen =>
    intro hmem
    have hnone := List.all_eq_true.1 hopen _ hmem
    simp [residuals?] at hnone
  · split at h
    · cases h
    · next first others _ =>
      simp only at h
      cases hconjoin : conjoin plans
          (first.keys.filter fun t => others.all (Entries.contains t)) with
      | error failure => rw [hconjoin] at h; cases h
      | ok found => rw [hconjoin] at h; cases h

/-- A conjunction that narrows has a narrowing part, and names what all its narrowing parts
    name. -/
theorem mem_keys_ofAll {s : Searcher} {plans : List Plan} {residuals : Entries Searcher}
    (h : ofAll s plans = .ok (.byType residuals)) :
    (∃ m, .byType m ∈ plans)
      ∧ ∀ type, type ∈ residuals.keys ↔ ∀ m, .byType m ∈ plans → type ∈ m.keys := by
  obtain ⟨first, others, hnarrow, hkeys⟩ := Searcher.keys_ofAll h
  have hmem : ∀ m, .byType m ∈ plans ↔ m ∈ first :: others := fun m => by
    rw [← mem_filterMap_residuals?, hnarrow]
  refine ⟨⟨first, (hmem first).2 (List.mem_cons_self ..)⟩, fun type => ?_⟩
  rw [hkeys, List.mem_filter, List.all_eq_true]
  simp only [hmem, List.forall_mem_cons, get?_isSome_of_mem_keys]

section Parts

variable {searchers : List Searcher} {plans : List Plan}

/-- Some plan of a part narrows exactly when some part asks for a type. -/
theorem exists_byType_iff (h : List.Forall₂ NamesAsked searchers plans) :
    (∃ m, .byType m ∈ plans) ↔ ∃ s ∈ searchers, ∃ type, s.AsksFor type := by
  induction h with
  | nil => simp
  | @cons s p searchers plans hp _ ih =>
    rw [List.exists_mem_cons_iff, ← ih]
    cases p with
    | everyType whole => simpa using fun type htype => absurd htype (hp type)
    | byType residuals => exact ⟨fun _ => .inl hp.1, fun _ => ⟨residuals, List.mem_cons_self ..⟩⟩

/-- All narrowing plans of parts name a type exactly when no part asks for another. -/
theorem forall_byType_iff (h : List.Forall₂ NamesAsked searchers plans) (type : String) :
    (∀ m, .byType m ∈ plans → type ∈ m.keys)
      ↔ ∀ s ∈ searchers, ∀ asked, s.AsksFor asked → asked = type := by
  induction h with
  | nil => simp
  | @cons s p searchers plans hp _ ih =>
    rw [List.forall_mem_cons, ← ih]
    cases p with
    | everyType whole =>
      rw [and_iff_right fun asked h => absurd h (hp asked)]
      simp
    | byType residuals =>
      rw [← hp.2 type]
      simp [List.mem_cons, or_imp, forall_and]

/-- The plan of a conjunction names what the conjunction asks for, if the plans of its parts do. -/
theorem ofAll_namesAsked (h : List.Forall₂ NamesAsked searchers plans) {p : Plan}
    (hp : ofAll (.all searchers) plans = .ok p) : NamesAsked (.all searchers) p := by
  cases p with
  | everyType whole =>
    intro type hasks
    obtain ⟨s, hmem, hs⟩ := Searcher.asksFor_all_iff.1 hasks
    obtain ⟨m, hm⟩ := (exists_byType_iff h).2 ⟨s, hmem, type, hs⟩
    exact not_mem_of_ofAll_everyType hp m hm
  | byType residuals =>
    obtain ⟨hnarrows, hkeys⟩ := mem_keys_ofAll hp
    obtain ⟨s, hmem, type, hs⟩ := (exists_byType_iff h).1 hnarrows
    refine ⟨⟨type, .part hmem hs⟩, fun type => ?_⟩
    rw [hkeys type, forall_byType_iff h type]
    constructor
    · intro hall asked hasks
      obtain ⟨s, hmem, hs⟩ := Searcher.asksFor_all_iff.1 hasks
      exact hall s hmem asked hs
    · exact fun hall s hmem asked hs => hall asked (.part hmem hs)

end Parts

end Plan

/-! ## Every searcher -/

namespace Searcher

mutual

/-- The plan of a searcher names what the searcher asks for. -/
theorem plan_namesAsked : (s : Searcher) → {p : Plan} → s.plan = .ok p → p.NamesAsked s
  | .typeEq type, p, hp => by
    obtain rfl : p = .byType [(type, .always)] := by simpa [plan] using hp.symm
    refine ⟨⟨type, .leaf type⟩, fun type' => ?_⟩
    simp [Entries.keys, asksFor_typeEq_iff, eq_comm]
  | .all searchers, p, hp => by
    obtain ⟨plans, hplans, hall⟩ := plan_all hp
    exact Plan.ofAll_namesAsked (planEach_namesAsked searchers hplans) hall
  | .always, p, hp => by cases hp; exact nofun
  | .never, p, hp => by cases hp; exact nofun
  | .propertyEq _ _, p, hp => by cases hp; exact nofun
  | .any _, p, hp => by cases hp; exact nofun
  | .not _, p, hp => by cases hp; exact nofun
  | .extension _ _, p, hp => by cases hp; exact nofun

theorem planEach_namesAsked : (searchers : List Searcher) → {plans : List Plan} →
    planEach searchers = .ok plans → List.Forall₂ Plan.NamesAsked searchers plans
  | [], plans, h => by
    obtain rfl : plans = [] := by simpa [planEach] using h.symm
    exact .nil
  | s :: rest, plans, h => by
    obtain ⟨p, more, rfl, hp, hmore⟩ := planEach_cons h
    exact .cons (plan_namesAsked s hp) (planEach_namesAsked rest hmore)

end

/-- Planning never fails, and is precise.  A plan narrows exactly when the searcher asks for a
    type; it then has the one type that is asked for, if there is no other, and is empty if there
    is.  What it leaves to check has the paths of the searcher, so that it compiles if the searcher
    can be checked. -/
theorem plan_precise (s : Searcher) :
    ∃ p, s.plan = .ok p
      ∧ ((∃ residuals, p = .byType residuals) ↔ ∃ type, s.AsksFor type)
      ∧ (∀ whole, p = .everyType whole → whole = s)
      ∧ ∀ residuals, p = .byType residuals →
        (∀ type, (∀ asked, s.AsksFor asked → asked = type) → ∃ r, residuals = [(type, r)])
        ∧ ((¬ ∃ type, ∀ asked, s.AsksFor asked → asked = type) → residuals = [])
        ∧ ∀ entry ∈ residuals, (∀ path, path ∈ entry.2.paths ↔ path ∈ s.paths)
          ∧ (s.checkPaths = .ok () → ∀ (c : EntityClass) (evaluator : Evaluator c),
            ∃ m, entry.2.compile evaluator = .ok m) := by
  obtain ⟨p, hp, hpaths⟩ := plan_keepsPaths s
  have hnames : p.NamesAsked s := plan_namesAsked s hp
  refine ⟨p, hp, ?_, ?_, ?_⟩
  · cases p with
    | everyType whole => simpa using fun type => hnames type
    | byType residuals => exact ⟨fun _ => hnames.1, fun _ => ⟨residuals, rfl⟩⟩
  · rintro whole rfl
    exact hpaths
  · rintro residuals rfl
    -- there is one entry at most, so that what its key gives is the entry
    have hlength : residuals.length ≤ 1 := length_residuals s hp
    refine ⟨fun type honly => ?_, fun hseveral => ?_, fun entry hentry => ?_⟩
    · have hmem : type ∈ residuals.keys := (hnames.2 type).2 honly
      match residuals, hlength, hmem with
      | [(key, r)], _, hmem => exact ⟨r, by rw [List.mem_singleton.1 hmem]⟩
    · match residuals, hnames with
      | [], _ => rfl
      | entry :: _, hnames =>
        exact absurd ⟨entry.1, (hnames.2 entry.1).1 (List.mem_cons_self ..)⟩ hseveral
    · obtain ⟨key, r⟩ := entry
      have hget : residuals.get? key = some r := by
        match residuals, hlength, hentry with
        | [_], _, hentry => rw [← List.mem_singleton.1 hentry, Entries.get?, if_pos rfl]
      have hkeeps : ∀ path, path ∈ r.paths ↔ path ∈ s.paths := hpaths key r hget
      exact ⟨hkeeps, fun hcheck c evaluator =>
        compile_isOk evaluator (checkPaths_residual hcheck hkeeps)⟩

/-- One type that is asked for twice, beside an empty conjunction. -/
def oneType : Searcher :=
  .all [.all [], .typeEq "A", .all [.propertyEq "$.x[0]" .null, .typeEq "A"]]

/-- Two types, of which the second stands deeper. -/
def twoTypes : Searcher := .all [.typeEq "A", .all [.all [.typeEq "B"], .not (.typeEq "C")]]

/-- The plan of the one has a single entry, which compiles; that of the other has none. -/
theorem plan_precise_nested :
    (∃ r, oneType.plan = .ok (.byType [("A", r)])
      ∧ ∃ m, r.compile (.builtin : Evaluator .node) = .ok m)
    ∧ twoTypes.plan = .ok (.byType []) := by
  constructor
  · have honly : ∀ asked, oneType.AsksFor asked → asked = "A" := fun asked hasks => by
      have hleaf : ¬ (Searcher.propertyEq "$.x[0]" .null).AsksFor asked := fun h => by cases h
      simpa [oneType, asksFor_all_iff, asksFor_typeEq_iff, hleaf] using hasks
    obtain ⟨p, hp, hnarrows, -, hplan⟩ := plan_precise oneType
    obtain ⟨residuals, rfl⟩ := hnarrows.2 ⟨"A", .part (by simp) (.leaf "A")⟩
    obtain ⟨hone, -, hresidual⟩ := hplan residuals rfl
    obtain ⟨r, rfl⟩ := hone "A" honly
    exact ⟨r, hp, (hresidual ("A", r) (List.mem_singleton.2 rfl)).2 (by cbv) .node .builtin⟩
  · have hA : twoTypes.AsksFor "A" := .part (by simp) (.leaf "A")
    have hB : twoTypes.AsksFor "B" := by simp [twoTypes, asksFor_all_iff, asksFor_typeEq_iff]
    obtain ⟨p, hp, hnarrows, -, hplan⟩ := plan_precise twoTypes
    obtain ⟨residuals, rfl⟩ := hnarrows.2 ⟨"A", hA⟩
    have hnone : residuals = [] := by
      refine (hplan residuals rfl).2.1 ?_
      rintro ⟨type, honly⟩
      exact absurd ((honly "A" hA).trans (honly "B" hB).symm) (by decide)
    rw [hp, hnone]

end Searcher

end PropertyGraph
