/-
  PropertyGraph.Proofs.Searcher.PlanSound

  Planning loses and adds nothing.  A plan that leaves all types open keeps the searcher as
  it is.  A plan that names types leaves, for each of them, a residual that answers on the
  entities of that type exactly what the searcher answers, failures included; on an entity
  of any other type the searcher never holds.

  The induction follows the nesting of conjunctions.  What it carries is `Plan.SoundFor`,
  a statement about one entity; a conjunction gets it from its parts because `holdsAll` goes
  through the residuals in the order in which it goes through the parts themselves.
-/
import PropertyGraph.Proofs.Searcher.CompiledMeaning
import PropertyGraph.Searcher.Plan
import Mathlib.Data.List.Forall2

namespace PropertyGraph

variable {c : EntityClass}

/-! ## What a plan says of one entity -/

/-- A plan of `s` is right about the entity `e`. -/
def Plan.SoundFor (evaluator : Evaluator c) (e : Entity c) (s : Searcher) : Plan → Prop
  | .everyType whole => whole = s
  | .byType residuals =>
    (∀ r, residuals.get? e.type = some r → r.holds evaluator e = s.holds evaluator e)
      ∧ (residuals.get? e.type = none → s.holds evaluator e ≠ .ok true)

/-- The residuals of a plan of `s` ask for the paths that `s` asks for. -/
def Plan.KeepsPaths (s : Searcher) : Plan → Prop
  | .everyType whole => whole = s
  | .byType residuals =>
    ∀ type r, residuals.get? type = some r → ∀ p, p ∈ r.paths ↔ p ∈ s.paths

/-- A plan of `s` can stand for `s` in a search: with all types open it is `s` itself; a
    residual tests the entities of its type as `s` does, alone and in a scan, and `s` holds
    of no entity whose type has no residual. -/
def Plan.Faithful (evaluator : Evaluator c) (s : Searcher) : Plan → Prop
  | .everyType whole => whole = s
  | .byType residuals =>
    (∀ e : Entity c,
      (∀ r, residuals.get? e.type = some r → r.test evaluator e = s.test evaluator e)
        ∧ (residuals.get? e.type = none → s.test evaluator e ≠ .ok true))
    ∧ ∀ (type : String) (es : List (Entity c)), (∀ e ∈ es, e.type = type) →
      (∀ r, residuals.get? type = some r → r.filter evaluator es = s.filter evaluator es)
        ∧ (residuals.get? type = none → ∀ kept, s.filter evaluator es = .ok kept → kept = [])

namespace Plan

/-- Whether a plan leaves a type open. -/
def opens : Plan → String → Bool
  | .everyType _, _ => true
  | .byType residuals, type => residuals.contains type

/-- What matches is of a type that is left open. -/
theorem opens_of_test {plan : Plan} {evaluator : Evaluator c} {s : Searcher} {e : Entity c}
    (h : plan.Faithful evaluator s) (htest : s.test evaluator e = .ok true) :
    plan.opens e.type = true := by
  cases plan with
  | everyType whole => rfl
  | byType residuals =>
    cases hr : residuals.get? e.type with
    | none => exact absurd htest ((h.1 e).2 hr)
    | some r => rw [opens, Entries.contains, hr]; rfl

/-! ## Entries of a conjunction -/

/-- A type that every narrowing part of a conjunction names has residuals. -/
theorem residualsFor_isOk {type : String} {plans : List Plan}
    (h : ∀ m, Plan.byType m ∈ plans → m.contains type = true) :
    ∃ rs, residualsFor type plans = .ok rs := by
  induction plans with
  | nil => exact ⟨[], rfl⟩
  | cons p rest ih =>
    obtain ⟨more, hmore⟩ := ih fun m hm => h m (List.mem_cons_of_mem _ hm)
    cases p with
    | everyType s => exact ⟨s :: more, by simp [residualsFor, hmore, bind, Except.bind]⟩
    | byType m =>
      have hcontains : m.contains type = true := h m (List.mem_cons_self ..)
      obtain ⟨r, hr⟩ := Option.isSome_iff_exists.1 hcontains
      exact ⟨r :: more, by simp [residualsFor, hr, hmore, bind, Except.bind]⟩

/-- The residuals of a conjunction, part by part: one that does not narrow stays, and of one that
    narrows there is what it leaves for the type. -/
theorem residualsFor_cons {type : String} {p : Plan} {plans : List Plan} {rs : List Searcher}
    (h : residualsFor type (p :: plans) = .ok rs) :
    ∃ r more, rs = r :: more ∧ residualsFor type plans = .ok more
      ∧ (p = .everyType r ∨ ∃ m, p = .byType m ∧ m.get? type = some r) := by
  cases hmore : residualsFor type plans with
  | error failure =>
    -- the rest has no residuals, so the whole has none, whichever way `p` goes
    cases p with
    | everyType whole => simp [residualsFor, hmore, bind, Except.bind] at h
    | byType m => cases hr : m.get? type <;> simp [residualsFor, hr, hmore, bind, Except.bind] at h
  | ok more =>
    cases p with
    | everyType whole =>
      refine ⟨whole, more, ?_, rfl, .inl rfl⟩
      simpa [residualsFor, hmore, bind, Except.bind] using h.symm
    | byType m =>
      cases hr : m.get? type with
      | none => simp [residualsFor, hr] at h
      | some r =>
        refine ⟨r, more, ?_, rfl, .inr ⟨m, rfl, hr⟩⟩
        simpa [residualsFor, hr, hmore, bind, Except.bind] using h.symm

/-- The entries of a conjunction: one for each type that remains, and no other. -/
theorem conjoin_get? {plans : List Plan} {types : List String}
    (h : ∀ type ∈ types, ∀ m, Plan.byType m ∈ plans → m.contains type = true) :
    ∃ entries, conjoin plans types = .ok entries ∧
      ∀ type, if type ∈ types
        then ∃ rs, residualsFor type plans = .ok rs ∧ entries.get? type = some (.all rs)
        else entries.get? type = none := by
  induction types with
  | nil => exact ⟨[], rfl, fun type => by simp [Entries.get?]⟩
  | cons first rest ih =>
    obtain ⟨rs, hrs⟩ := residualsFor_isOk (h first (List.mem_cons_self ..))
    obtain ⟨more, hmore, hget⟩ := ih fun type ht => h type (List.mem_cons_of_mem _ ht)
    refine ⟨(first, .all rs) :: more, ?_, ?_⟩
    · simp [conjoin, hrs, hmore, bind, Except.bind]
    · intro type
      by_cases hfirst : first = type
      · subst hfirst
        simp [Entries.get?, hrs]
      · have := hget type
        simpa [Entries.get?, hfirst, Ne.symm hfirst] using this

/-! ## Residuals of a conjunction -/

section Conjunction

variable {evaluator : Evaluator c} {e : Entity c}
  {searchers : List Searcher} {plans : List Plan}

/-- Going through the residuals for the type of an entity is going through the parts. -/
theorem holdsAll_residualsFor (h : List.Forall₂ (SoundFor evaluator e) searchers plans)
    {rs : List Searcher} (hrs : residualsFor e.type plans = .ok rs) :
    Searcher.holdsAll evaluator e rs = Searcher.holdsAll evaluator e searchers := by
  induction h generalizing rs with
  | nil =>
    have : rs = [] := by simpa [residualsFor] using hrs.symm
    rw [this]
  | @cons s p ss ps hp _ ih =>
    obtain ⟨r, more, rfl, hmore, hr⟩ := residualsFor_cons hrs
    have hhead : r.holds evaluator e = s.holds evaluator e := by
      rcases hr with rfl | ⟨m, rfl, hr⟩
      · rw [show r = s from hp]
      · exact hp.1 r hr
    rw [Searcher.holdsAll, Searcher.holdsAll, ih hmore, hhead]

/-- A part whose plan does not name the type of an entity keeps the conjunction from
    holding, also when an earlier part fails. -/
theorem holdsAll_ne_true (h : List.Forall₂ (SoundFor evaluator e) searchers plans)
    {m : Entries Searcher} (hm : Plan.byType m ∈ plans) (hnone : m.get? e.type = none) :
    Searcher.holdsAll evaluator e searchers ≠ .ok true := by
  induction h with
  | nil => cases hm
  | @cons s p ss ps hp _ ih =>
    rw [Searcher.holdsAll]
    rcases List.mem_cons.1 hm with rfl | hm
    · have hs : s.holds evaluator e ≠ .ok true := hp.2 hnone
      rcases hholds : s.holds evaluator e with failure | (_ | _)
      · simp
      · simp
      · exact absurd hholds hs
    · rcases s.holds evaluator e with failure | (_ | _)
      · simp
      · simp
      · exact ih hm

end Conjunction

/-- The residuals of a conjunction ask for the paths of its parts. -/
theorem pathsAll_residualsFor {searchers : List Searcher} {plans : List Plan} {type : String}
    (h : List.Forall₂ KeepsPaths searchers plans) {rs : List Searcher}
    (hrs : residualsFor type plans = .ok rs) (p : String) :
    p ∈ Searcher.pathsAll rs ↔ p ∈ Searcher.pathsAll searchers := by
  induction h generalizing rs with
  | nil =>
    have : rs = [] := by simpa [residualsFor] using hrs.symm
    rw [this]
  | @cons s plan ss ps hplan _ ih =>
    obtain ⟨r, more, rfl, hmore, hr⟩ := residualsFor_cons hrs
    have hhead : p ∈ r.paths ↔ p ∈ s.paths := by
      rcases hr with rfl | ⟨m, rfl, hr⟩
      · rw [show r = s from hplan]
      · exact hplan type r hr p
    rw [Searcher.pathsAll, Searcher.pathsAll, List.mem_append, List.mem_append, ih hmore, hhead]

/-! ## The plan of a conjunction -/

/-- The narrowing plans among some are those that give residuals. -/
theorem mem_filterMap_residuals? {plans : List Plan} {m : Entries Searcher} :
    m ∈ plans.filterMap residuals? ↔ Plan.byType m ∈ plans := by
  rw [List.mem_filterMap]
  constructor
  · rintro ⟨p, hp, hres⟩
    cases p with
    | everyType s => simp [residuals?] at hres
    | byType m' =>
      have : m' = m := by simpa [residuals?] using hres
      rwa [← this]
  · intro hm
    exact ⟨.byType m, hm, rfl⟩

theorem get?_isSome_of_mem_keys {entries : Entries Searcher} {type : String} :
    type ∈ entries.keys ↔ entries.contains type = true := by
  induction entries with
  | nil => simp [Entries.keys, Entries.contains, Entries.get?]
  | cons entry rest ih =>
    obtain ⟨k, v⟩ := entry
    by_cases hk : k = type
    · simp [Entries.keys, Entries.contains, Entries.get?, hk]
    · have hk' : ¬ type = k := fun h => hk h.symm
      simpa [Entries.keys, Entries.contains, Entries.get?, hk, hk'] using ih

/-- What planning a conjunction comes to, from the plans of its parts: it stays as it is
    when no part narrows; else it has an entry for exactly the types that every narrowing
    part names, made of what the parts leave there. -/
theorem ofAll_eq (whole : Searcher) (plans : List Plan) :
    (ofAll whole plans = .ok (.everyType whole))
      ∨ ∃ entries, ofAll whole plans = .ok (.byType entries) ∧
        ∀ type,
          (∃ rs, residualsFor type plans = .ok rs ∧ entries.get? type = some (.all rs))
            ∨ (entries.get? type = none ∧ ∃ m, Plan.byType m ∈ plans ∧ m.get? type = none) := by
  by_cases hopen : plans.all (fun p => p.residuals?.isNone) = true
  · left
    simp [ofAll, hopen]
  right
  cases hnarrow : plans.filterMap residuals? with
  | nil =>
    -- impossible: some plan is not open, and that one gives residuals
    exfalso
    apply hopen
    rw [List.all_eq_true]
    intro p hp
    cases p with
    | everyType s => rfl
    | byType m =>
      have : m ∈ plans.filterMap residuals? := mem_filterMap_residuals?.2 hp
      rw [hnarrow] at this
      cases this
  | cons first others =>
    have hmem : ∀ m, Plan.byType m ∈ plans ↔ m = first ∨ m ∈ others := by
      intro m
      rw [← mem_filterMap_residuals?, hnarrow, List.mem_cons]
    have hshared : ∀ type,
        type ∈ first.keys.filter (fun t => others.all (Entries.contains t))
          ↔ ∀ m, Plan.byType m ∈ plans → m.contains type = true := by
      intro type
      rw [List.mem_filter, List.all_eq_true, get?_isSome_of_mem_keys]
      constructor
      · rintro ⟨hfirst, hothers⟩ m hm
        rcases (hmem m).1 hm with rfl | hm
        · exact hfirst
        · exact hothers m hm
      · intro hall
        exact ⟨hall first ((hmem first).2 (.inl rfl)),
          fun m hm => hall m ((hmem m).2 (.inr hm))⟩
    obtain ⟨entries, hentries, hget⟩ := conjoin_get? fun type ht => (hshared type).1 ht
    refine ⟨entries, by simp [ofAll, hopen, hnarrow, hentries, bind, Except.bind], ?_⟩
    intro type
    have htype := hget type
    split at htype
    · exact .inl htype
    · next hlost =>
      right
      refine ⟨htype, ?_⟩
      rw [hshared] at hlost
      push Not at hlost
      obtain ⟨m, hm, hnot⟩ := hlost
      exact ⟨m, hm, by simpa [Entries.contains] using hnot⟩

/-- The plan of a conjunction is right about an entity about which the plans of the parts
    are right. -/
theorem ofAll_soundFor {evaluator : Evaluator c} {e : Entity c} {searchers : List Searcher}
    {plans : List Plan} (h : List.Forall₂ (SoundFor evaluator e) searchers plans)
    {p : Plan} (hp : ofAll (.all searchers) plans = .ok p) :
    SoundFor evaluator e (.all searchers) p := by
  rcases ofAll_eq (.all searchers) plans with hopen | ⟨entries, hentries, hcases⟩
  · obtain rfl : p = .everyType (.all searchers) := by simpa [hopen] using hp.symm
    exact rfl
  · obtain rfl : p = .byType entries := by simpa [hentries] using hp.symm
    rcases hcases e.type with ⟨rs, hrs, hget⟩ | ⟨hget, m, hm, hnone⟩
    · refine ⟨fun r hr => ?_, fun hnone => ?_⟩
      · obtain rfl : r = .all rs := by simpa [hget] using hr.symm
        rw [Searcher.holds, Searcher.holds, holdsAll_residualsFor h hrs]
      · rw [hget] at hnone
        cases hnone
    · refine ⟨fun r hr => ?_, fun _ => ?_⟩
      · rw [hget] at hr
        cases hr
      · rw [Searcher.holds]
        exact holdsAll_ne_true h hm hnone

theorem ofAll_keepsPaths {searchers : List Searcher} {plans : List Plan}
    (h : List.Forall₂ KeepsPaths searchers plans) {p : Plan}
    (hp : ofAll (.all searchers) plans = .ok p) : KeepsPaths (.all searchers) p := by
  rcases ofAll_eq (.all searchers) plans with hopen | ⟨entries, hentries, hcases⟩
  · obtain rfl : p = .everyType (.all searchers) := by simpa [hopen] using hp.symm
    exact rfl
  · obtain rfl : p = .byType entries := by simpa [hentries] using hp.symm
    intro type r hr q
    rcases hcases type with ⟨rs, hrs, hget⟩ | ⟨hget, -⟩
    · obtain rfl : r = .all rs := by simpa [hget] using hr.symm
      simpa [Searcher.paths] using pathsAll_residualsFor h hrs q
    · rw [hget] at hr
      cases hr

end Plan

/-! ## Every searcher -/

namespace Searcher

theorem planEach_cons {s : Searcher} {rest : List Searcher} {plans : List Plan}
    (h : planEach (s :: rest) = .ok plans) :
    ∃ p more, plans = p :: more ∧ s.plan = .ok p ∧ planEach rest = .ok more := by
  cases hp : plan s with
  | error failure => simp [planEach, hp, bind, Except.bind] at h
  | ok p =>
    cases hmore : planEach rest with
    | error failure => simp [planEach, hp, hmore, bind, Except.bind] at h
    | ok more =>
      refine ⟨p, more, ?_, rfl, rfl⟩
      simpa [planEach, hp, hmore, bind, Except.bind] using h.symm

theorem plan_all {searchers : List Searcher} {p : Plan} (h : plan (.all searchers) = .ok p) :
    ∃ plans, planEach searchers = .ok plans ∧ Plan.ofAll (.all searchers) plans = .ok p := by
  rw [plan] at h
  cases hplans : planEach searchers with
  | error failure => rw [hplans] at h; cases h
  | ok plans =>
    rw [hplans] at h
    exact ⟨plans, rfl, h⟩

mutual

/-- Planning always ends in a plan, and the plan keeps the paths. -/
theorem plan_keepsPaths : (s : Searcher) → ∃ p, s.plan = .ok p ∧ p.KeepsPaths s
  | .typeEq type => by
    refine ⟨.byType [(type, .always)], rfl, fun type' r hr p => ?_⟩
    by_cases ht : type = type'
    · obtain rfl : r = .always := by simpa [Entries.get?, ht] using hr.symm
      simp [paths]
    · simp [Entries.get?, ht] at hr
  | .all searchers => by
    obtain ⟨plans, hplans, hpaths⟩ := planEach_keepsPaths searchers
    have hplan : plan (.all searchers) = Plan.ofAll (.all searchers) plans := by
      rw [plan, hplans]
      rfl
    rcases Plan.ofAll_eq (.all searchers) plans with hopen | ⟨entries, hentries, -⟩
    · exact ⟨_, by rw [hplan, hopen], Plan.ofAll_keepsPaths hpaths hopen⟩
    · exact ⟨_, by rw [hplan, hentries], Plan.ofAll_keepsPaths hpaths hentries⟩
  | .always => ⟨.everyType .always, rfl, rfl⟩
  | .never => ⟨.everyType .never, rfl, rfl⟩
  | .propertyEq path value => ⟨.everyType (.propertyEq path value), rfl, rfl⟩
  | .any searchers => ⟨.everyType (.any searchers), rfl, rfl⟩
  | .not searcher => ⟨.everyType (.not searcher), rfl, rfl⟩
  | .extension name args => ⟨.everyType (.extension name args), rfl, rfl⟩

theorem planEach_keepsPaths : (ss : List Searcher) →
    ∃ plans, planEach ss = .ok plans ∧ List.Forall₂ Plan.KeepsPaths ss plans
  | [] => ⟨[], rfl, .nil⟩
  | s :: rest => by
    obtain ⟨p, hp, hpaths⟩ := plan_keepsPaths s
    obtain ⟨plans, hplans, hrest⟩ := planEach_keepsPaths rest
    exact ⟨p :: plans, by simp [planEach, hp, hplans, bind, Except.bind], .cons hpaths hrest⟩

end

mutual

/-- The plan of a searcher is right about every entity. -/
theorem plan_soundFor (evaluator : Evaluator c) (e : Entity c) : (s : Searcher) → {p : Plan} →
    s.plan = .ok p → p.SoundFor evaluator e s
  | .typeEq type, p, hp => by
    obtain rfl : p = .byType [(type, .always)] := by simpa [plan] using hp.symm
    refine ⟨fun r hr => ?_, fun hnone => ?_⟩
    · by_cases ht : type = e.type
      · obtain rfl : r = .always := by simpa [Entries.get?, ht] using hr.symm
        simp [holds, ht]
      · simp [Entries.get?, ht] at hr
    · have ht : ¬ e.type = type := by
        intro h
        simp [Entries.get?, h] at hnone
      simp [holds, ht]
  | .all searchers, p, hp => by
    obtain ⟨plans, hplans, hall⟩ := plan_all hp
    exact Plan.ofAll_soundFor (planEach_soundFor evaluator e searchers hplans) hall
  | .always, p, hp => by cases hp; exact rfl
  | .never, p, hp => by cases hp; exact rfl
  | .propertyEq _ _, p, hp => by cases hp; exact rfl
  | .any _, p, hp => by cases hp; exact rfl
  | .not _, p, hp => by cases hp; exact rfl
  | .extension _ _, p, hp => by cases hp; exact rfl

theorem planEach_soundFor (evaluator : Evaluator c) (e : Entity c) : (ss : List Searcher) →
    {plans : List Plan} → planEach ss = .ok plans →
      List.Forall₂ (Plan.SoundFor evaluator e) ss plans
  | [], plans, h => by
    obtain rfl : plans = [] := by simpa [planEach] using h.symm
    exact .nil
  | s :: rest, plans, h => by
    obtain ⟨p, more, rfl, hp, hmore⟩ := planEach_cons h
    exact .cons (plan_soundFor evaluator e s hp) (planEach_soundFor evaluator e rest hmore)

end

/-! ### Types that remain -/

theorem keys_conjoin {plans : List Plan} {types : List String} {residuals : Entries Searcher}
    (h : Plan.conjoin plans types = .ok residuals) : residuals.keys = types := by
  induction types generalizing residuals with
  | nil =>
    obtain rfl : [] = residuals := Except.ok.inj h
    rfl
  | cons type rest ih =>
    rw [Plan.conjoin] at h
    cases hfor : Plan.residualsFor type plans with
    | error failure => rw [hfor] at h; cases h
    | ok found =>
      cases hmore : Plan.conjoin plans rest with
      | error failure => rw [hfor, hmore] at h; cases h
      | ok more =>
        rw [hfor, hmore] at h
        obtain rfl := Except.ok.inj h
        rw [Entries.keys, List.map_cons, ← Entries.keys, ih hmore]

/-- The types that a conjunction keeps are those of its first narrowing part that all narrowing
    parts name. -/
theorem keys_ofAll {s : Searcher} {plans : List Plan} {residuals : Entries Searcher}
    (h : Plan.ofAll s plans = .ok (.byType residuals)) :
    ∃ first others, plans.filterMap Plan.residuals? = first :: others
      ∧ residuals.keys = first.keys.filter fun t => others.all (Entries.contains t) := by
  rw [Plan.ofAll] at h
  split at h
  · cases h
  · split at h
    · cases h
    · next first others hnarrow =>
      simp only at h
      cases hconjoin : Plan.conjoin plans
          (first.keys.filter fun t => others.all (Entries.contains t)) with
      | error failure => rw [hconjoin] at h; cases h
      | ok found =>
        rw [hconjoin] at h
        obtain rfl : found = residuals := Plan.byType.inj (Except.ok.inj h)
        exact ⟨first, others, hnarrow, keys_conjoin hconjoin⟩

/-- A conjunction that names types names no more than one of its parts. -/
theorem length_ofAll {s : Searcher} {plans : List Plan} {residuals : Entries Searcher}
    (h : Plan.ofAll s plans = .ok (.byType residuals)) :
    ∃ first, .byType first ∈ plans ∧ residuals.length ≤ first.length := by
  obtain ⟨first, others, hnarrow, hkeys⟩ := keys_ofAll h
  have hmem : first ∈ plans.filterMap Plan.residuals? := hnarrow ▸ List.mem_cons_self ..
  refine ⟨first, Plan.mem_filterMap_residuals?.1 hmem, ?_⟩
  have hle : residuals.keys.length ≤ first.keys.length := by
    rw [hkeys]
    exact List.length_filter_le _ _
  simpa [Entries.keys] using hle

mutual

/-- A plan names one type at most: a conjunction keeps types that its first narrowing part names,
    and a single type is all that a part ever asks for. -/
theorem length_residuals : (s : Searcher) → {residuals : Entries Searcher} →
    s.plan = .ok (.byType residuals) → residuals.length ≤ 1
  | .typeEq type, residuals, h => by
    obtain rfl : [(type, .always)] = residuals := by simpa [plan] using h
    exact Nat.le_refl 1
  | .all searchers, residuals, h => by
    obtain ⟨plans, hplans, hall⟩ := plan_all h
    obtain ⟨first, hmem, hle⟩ := length_ofAll hall
    exact Nat.le_trans hle (length_residuals_each searchers hplans first hmem)
  | .always, _, h => by simp [plan] at h
  | .never, _, h => by simp [plan] at h
  | .propertyEq _ _, _, h => by simp [plan] at h
  | .any _, _, h => by simp [plan] at h
  | .not _, _, h => by simp [plan] at h
  | .extension _ _, _, h => by simp [plan] at h

theorem length_residuals_each : (ss : List Searcher) → {plans : List Plan} →
    planEach ss = .ok plans → ∀ residuals, .byType residuals ∈ plans → residuals.length ≤ 1
  | [], plans, h => by
    obtain rfl : [] = plans := by simpa [planEach] using h
    exact fun _ hmem => absurd hmem List.not_mem_nil
  | s :: rest, plans, h => by
    obtain ⟨p, more, rfl, hp, hmore⟩ := planEach_cons h
    intro residuals hmem
    rcases List.mem_cons.1 hmem with rfl | hmem
    · exact length_residuals s hp
    · exact length_residuals_each rest hmore residuals hmem

end

/-- A plan that names types leaves residuals whose paths can be read. -/
theorem checkPaths_residual {s r : Searcher} (h : s.checkPaths = .ok ())
    (hpaths : ∀ p, p ∈ r.paths ↔ p ∈ s.paths) : r.checkPaths = .ok () := by
  rw [checkPaths_ok_iff] at h ⊢
  intro p hp
  exact h p ((hpaths p).1 hp)

/-- Searchers that test the entities of a list alike keep the same of them. -/
theorem filter_eq_filter {evaluator : Evaluator c} {s r : Searcher} (hs : s.checkPaths = .ok ())
    (hr : r.checkPaths = .ok ()) {es : List (Entity c)}
    (h : ∀ e ∈ es, r.test evaluator e = s.test evaluator e) :
    r.filter evaluator es = s.filter evaluator es := by
  obtain ⟨m, hm⟩ := compile_isOk evaluator hs
  obtain ⟨n, hn⟩ := compile_isOk evaluator hr
  have hfilter : n.filter es = m.filter es := by
    apply CompiledSearcher.filter_congr
    intro e he
    rw [compile_test hn, compile_test hm, h e he]
  simpa [filter, hm, hn, bind, Except.bind] using hfilter

/-- A searcher that matches no entity of a list keeps none of them. -/
theorem filter_eq_nil {evaluator : Evaluator c} {s : Searcher} {es kept : List (Entity c)}
    (h : ∀ e ∈ es, s.test evaluator e ≠ .ok true) (hkept : s.filter evaluator es = .ok kept) :
    kept = [] := by
  cases hm : s.compile evaluator with
  | error failure => simp [filter, hm, bind, Except.bind] at hkept
  | ok m =>
    have htest : ∀ e ∈ es, m.test e ≠ .ok true := fun e he => by
      rw [compile_test hm]
      exact h e he
    refine CompiledSearcher.filter_eq_nil htest ?_
    simpa [filter, hm, bind, Except.bind] using hkept

/-! ## Planning -/

/-- Every plan of a searcher whose paths can be read keeps the searcher or divides it. -/
theorem plan_faithful {s : Searcher} (hpaths : s.checkPaths = .ok ()) (evaluator : Evaluator c)
    {p : Plan} (hp : s.plan = .ok p) : p.Faithful evaluator s := by
  obtain ⟨p', hp', hkeeps⟩ := plan_keepsPaths s
  obtain rfl : p' = p := Except.ok.inj (hp'.symm.trans hp)
  cases p' with
  | everyType whole => exact hkeeps
  | byType residuals =>
    have hresidual : ∀ type r, residuals.get? type = some r → r.checkPaths = .ok () :=
      fun type r hr => checkPaths_residual hpaths (hkeeps type r hr)
    have htest : ∀ e : Entity c,
        (∀ r, residuals.get? e.type = some r → r.test evaluator e = s.test evaluator e) ∧
        (residuals.get? e.type = none → s.test evaluator e ≠ .ok true) := by
      intro e
      obtain ⟨hnamed, hother⟩ := plan_soundFor evaluator e s hp
      refine ⟨fun r hr => ?_, fun hnone => ?_⟩
      · rw [test_eq_holds evaluator (hresidual e.type r hr), test_eq_holds evaluator hpaths]
        exact hnamed r hr
      · rw [test_eq_holds evaluator hpaths]
        exact hother hnone
    refine ⟨htest, fun type es hes => ⟨fun r hr => ?_, fun hnone kept hkept => ?_⟩⟩
    · apply filter_eq_filter hpaths (hresidual type r hr)
      intro e he
      exact (htest e).1 r (by rw [hes e he]; exact hr)
    · refine filter_eq_nil (fun e he => ?_) hkept
      exact (htest e).2 (by rw [hes e he]; exact hnone)

/-- Planning is sound.  A searcher whose paths can be read has a plan; if the plan leaves all
    types open it keeps the searcher; if it names types, the residual of a named type tests
    every entity of that type as the searcher does, with the same failure if there is one,
    and no entity of another type matches the searcher.  So scanning the entities of a named
    type with its residual keeps what scanning them with the searcher keeps, and of the
    entities of any other type the searcher keeps none. -/
theorem plan_sound (s : Searcher) (hpaths : s.checkPaths = .ok ()) (evaluator : Evaluator c) :
    ∃ p, s.plan = .ok p ∧ p.Faithful evaluator s := by
  obtain ⟨p, hp, -⟩ := plan_keepsPaths s
  exact ⟨p, hp, plan_faithful hpaths evaluator hp⟩

/-- A conjunction inside a conjunction, with a path and an extension between the types. -/
theorem plan_sound_nested :
    checkPaths (.all [.typeEq "A", .all [.propertyEq "$.x['y z'][0]" .null, .typeEq "A"],
      .extension "hasKey" (.string "x")]) = .ok () ∧
    ∃ p, plan (.all [.typeEq "A", .all [.propertyEq "$.x['y z'][0]" .null, .typeEq "A"],
        .extension "hasKey" (.string "x")]) = .ok p ∧
      p.Faithful (Evaluator.hasKey : Evaluator .node)
        (.all [.typeEq "A", .all [.propertyEq "$.x['y z'][0]" .null, .typeEq "A"],
          .extension "hasKey" (.string "x")]) :=
  ⟨by cbv, plan_sound _ (by cbv) Evaluator.hasKey⟩

end Searcher

end PropertyGraph
