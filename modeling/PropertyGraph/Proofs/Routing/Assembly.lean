/-
  PropertyGraph.Proofs.Routing.Assembly

  What a dispatcher that has been put together knows.  Its members are the registered suites,
  each under a name of its own.  The table of a class names each type once, in the order in
  which the types were first claimed, and the owner of a type is the one suite that claims it.
-/
import PropertyGraph.Proofs.Entries
import PropertyGraph.Routing.Assembly
import Mathlib.Data.List.Induction

namespace PropertyGraph

variable {c : EntityClass}

/-! ## Registrations -/

/-- A suite that is to be registered, with its name and the types that it is to own. -/
structure Registration where
  name : String
  suite : Suite
  nodeTypes : List String
  relationshipTypes : List String

namespace Registration

/-- The types of a class that a suite is to own. -/
def types (r : Registration) : EntityClass → List String
  | .node => r.nodeTypes
  | .relationship => r.relationshipTypes

/-- The claims to types of a class, in the order of registration. -/
def routes (c : EntityClass) (regs : List Registration) : Entries String :=
  regs.flatMap fun r => (r.types c).map fun type => (type, r.name)

/-- The suites under their names. -/
def members (regs : List Registration) : List (String × Suite) :=
  regs.map fun r => (r.name, r.suite)

end Registration

namespace Assembly

/-- Registers one suite after the other. -/
def ofList (regs : List Registration) : Assembly :=
  regs.foldl (fun b r => b.register r.name r.suite r.nodeTypes r.relationshipTypes) .empty

theorem ofList_append (regs : List Registration) (r : Registration) :
    ofList (regs ++ [r])
      = (ofList regs).register r.name r.suite r.nodeTypes r.relationshipTypes := by
  rw [ofList, ofList, List.foldl_append]
  rfl

end Assembly

/-! ## Claims -/

namespace Owners

variable {owners owners' : Owners} {name type : String}

@[simp] theorem table_withTable_self (owners : Owners) (c : EntityClass) (es : Entries String) :
    (owners.withTable c es).table c = es := by
  cases c <;> rfl

theorem table_withTable_of_ne (owners : Owners) {c c' : EntityClass} (h : c' ≠ c)
    (es : Entries String) : (owners.withTable c es).table c' = owners.table c' := by
  cases c <;> cases c' <;> first | rfl | exact absurd rfl h

/-- A claim that is granted is written down, and one that was granted before changes nothing. -/
theorem table_of_claim (h : owners.claim c type name = .ok owners') (c' : EntityClass) :
    owners'.table c' = if c' = c then (owners.table c).insert type name else owners.table c' := by
  rw [claim, owner?] at h
  cases hget : (owners.table c).get? type with
  | none =>
    rw [hget] at h
    obtain rfl := Except.ok.inj h
    by_cases hclass : c' = c
    · rw [hclass, if_pos rfl, table_withTable_self]
    · rw [if_neg hclass, table_withTable_of_ne owners hclass]
  | some other =>
    rw [hget] at h
    by_cases hname : other = name
    · simp only [if_pos hname] at h
      obtain rfl : owners = owners' := Except.ok.inj h
      by_cases hclass : c' = c
      · rw [hclass, if_pos rfl, Entries.insert_of_get? (hname ▸ hget)]
      · rw [if_neg hclass]
    · simp only [if_neg hname] at h
      cases h

/-- A type that has an owner keeps it. -/
theorem owner?_of_claim (h : owners.claim c type name = .ok owners') {c' : EntityClass}
    {type' name' : String} (howner : owners.owner? c' type' = some name') :
    owners'.owner? c' type' = some name' := by
  rw [owner?, table_of_claim h c']
  by_cases hclass : c' = c
  · subst hclass
    rw [if_pos rfl]
    by_cases htype : type' = type
    · subst htype
      rw [claim, howner] at h
      by_cases hname : name' = name
      · rw [Entries.get?_insert_self, hname]
      · simp only [if_neg hname] at h
        cases h
    · rw [Entries.get?_insert_of_ne htype]
      exact howner
  · rw [if_neg hclass]
    exact howner

theorem claimAll_cons {rest : List (EntityClass × String)}
    (h : owners.claimAll name ((c, type) :: rest) = .ok owners') :
    ∃ between, owners.claim c type name = .ok between ∧ between.claimAll name rest = .ok owners' := by
  rw [claimAll] at h
  cases hclaim : owners.claim c type name with
  | error failure => rw [hclaim] at h; cases h
  | ok between =>
    rw [hclaim] at h
    exact ⟨between, rfl, h⟩

/-- Claims that are all granted are written down in their order. -/
theorem table_of_claimAll {claims : List (EntityClass × String)}
    (h : owners.claimAll name claims = .ok owners') (c : EntityClass) :
    owners'.table c = (owners.table c).insertAll
      ((claims.filter fun claim => claim.1 = c).map fun claim => (claim.2, name)) := by
  induction claims generalizing owners with
  | nil =>
    obtain rfl := Except.ok.inj h
    rfl
  | cons claim rest ih =>
    obtain ⟨c', type⟩ := claim
    obtain ⟨between, hclaim, hrest⟩ := claimAll_cons h
    rw [ih hrest, table_of_claim hclaim c, List.filter_cons]
    by_cases hclass : c = c'
    · subst hclass
      simp [Entries.insertAll]
    · have hclass' : ¬ c' = c := fun heq => hclass heq.symm
      simp [hclass, hclass']

/-- Claims that are all granted make the suite the owner and take nothing from the others. -/
theorem owner?_of_claimAll {claims : List (EntityClass × String)}
    (h : owners.claimAll name claims = .ok owners') :
    (∀ c type name', owners.owner? c type = some name' → owners'.owner? c type = some name')
      ∧ ∀ claim ∈ claims, owners'.owner? claim.1 claim.2 = some name := by
  induction claims generalizing owners with
  | nil =>
    obtain rfl := Except.ok.inj h
    exact ⟨fun _ _ _ howner => howner, fun _ hmem => absurd hmem List.not_mem_nil⟩
  | cons claim rest ih =>
    obtain ⟨c, type⟩ := claim
    obtain ⟨between, hclaim, hrest⟩ := claimAll_cons h
    obtain ⟨hkept, hgiven⟩ := ih hrest
    refine ⟨fun c' type' name' howner => hkept c' type' name' (owner?_of_claim hclaim howner), ?_⟩
    intro other hmem
    rcases List.mem_cons.1 hmem with rfl | hmem
    · refine hkept c type name ?_
      rw [owner?, table_of_claim hclaim c, if_pos rfl, Entries.get?_insert_self]
    · exact hgiven other hmem

end Owners

/-- The claims of a suite to types of one class. -/
theorem Registration.filter_claims (r : Registration) (c : EntityClass) :
    ((Assembly.claims r.nodeTypes r.relationshipTypes).filter fun claim => claim.1 = c).map
        (fun claim => (claim.2, r.name))
      = (r.types c).map fun type => (type, r.name) := by
  -- the claims of one class stand together
  have hsame : ∀ (c : EntityClass) (types : List String),
      ((types.map fun t => (c, t)).filter fun claim => claim.1 = c) = types.map fun t => (c, t) :=
    fun c types => List.filter_eq_self.2 (by simp)
  have hother : ∀ {c c' : EntityClass} (types : List String), c' ≠ c →
      ((types.map fun t => (c', t)).filter fun claim => claim.1 = c) = [] :=
    fun types hne => List.filter_eq_nil_iff.2 (by simpa using fun _ _ => hne)
  rw [Assembly.claims, List.filter_append]
  cases c with
  | node =>
    rw [hsame, hother _ (by decide), List.append_nil, List.map_map]
    rfl
  | relationship =>
    rw [hsame, hother _ (by decide), List.nil_append, List.map_map]
    rfl

theorem Registration.mem_claims {r : Registration} {type : String} (h : type ∈ r.types c) :
    (c, type) ∈ Assembly.claims r.nodeTypes r.relationshipTypes := by
  cases c with
  | node => exact List.mem_append_left _ (List.mem_map_of_mem h)
  | relationship => exact List.mem_append_right _ (List.mem_map_of_mem h)

/-! ## Dispatchers put together -/

/-- A dispatcher has the members and the owners that were registered. -/
structure Assembled (regs : List Registration) (members : List (String × Suite))
    (owners : Owners) : Prop where
  members : members = Registration.members regs
  names : (regs.map Registration.name).Nodup
  tables : ∀ c, owners.table c = (Registration.routes c regs).collapse
  claimed : ∀ c, ∀ r ∈ regs, ∀ type ∈ r.types c, owners.owner? c type = some r.name

namespace Assembly

theorem assembled_of_failure {regs : List Registration} (h : (ofList regs).failure = none) :
    Assembled regs (ofList regs).members (ofList regs).owners := by
  induction regs using List.reverseRecOn with
  | nil =>
    refine ⟨rfl, List.nodup_nil, fun c => ?_, fun c r hr => absurd hr List.not_mem_nil⟩
    cases c <;> rfl
  | append_singleton regs r ih =>
    rw [ofList_append, register] at h ⊢
    -- an offence that was kept would have ended the work here
    split at h
    · next hsome =>
      rw [h] at hsome
      cases hsome
    next hnone =>
    have hbefore := ih (by simpa using hnone)
    rw [if_neg hnone]
    split at h
    · cases h
    next hname =>
    rw [if_neg hname]
    split at h
    · cases h
    next owners howners =>
    obtain ⟨hkept, hgiven⟩ := Owners.owner?_of_claimAll howners
    have hfresh : r.name ∉ regs.map Registration.name := by
      intro hmem
      apply hname
      have hkey : r.name ∈ Entries.keys (ofList regs).members := by
        rw [hbefore.members, Entries.keys, Registration.members, List.map_map]
        exact hmem
      obtain ⟨suite, hsuite⟩ := Entries.mem_keys_iff.1 hkey
      rw [Entries.contains, hsuite]
      rfl
    refine ⟨?_, ?_, fun c => ?_, fun c other hother type htype => ?_⟩
    · rw [hbefore.members, Registration.members, Registration.members, List.map_append]
      rfl
    · rw [List.map_append, List.nodup_append]
      refine ⟨hbefore.names, by simp, fun name hold name' hnew => ?_⟩
      rintro rfl
      rw [List.mem_singleton.1 hnew] at hold
      exact hfresh hold
    · rw [Owners.table_of_claimAll howners c, hbefore.tables c, r.filter_claims c,
        Registration.routes, Registration.routes, List.flatMap_append, Entries.collapse,
        Entries.collapse, Entries.insertAll_append]
      simp
    · rcases List.mem_append.1 hother with hold | hnew
      · exact hkept c type other.name (hbefore.claimed c other hold type htype)
      · obtain rfl := List.mem_singleton.1 hnew
        exact hgiven (c, type) (Registration.mem_claims htype)

/-- A dispatcher that comes of registrations has what was registered. -/
theorem assembled_of_dispatcher {regs : List Registration} {suite : Suite}
    (h : (ofList regs).dispatcher = .ok suite) :
    ∃ members owners, suite = .dispatcher members owners ∧ Assembled regs members owners := by
  rw [dispatcher] at h
  cases hfailure : (ofList regs).failure with
  | some failure => rw [hfailure] at h; cases h
  | none =>
    rw [hfailure] at h
    exact ⟨_, _, (Except.ok.inj h).symm, assembled_of_failure hfailure⟩

end Assembly

namespace Assembled

variable {regs : List Registration} {members : List (String × Suite)} {owners : Owners}

theorem nodup_types (h : Assembled regs members owners) (c : EntityClass) :
    (Entries.keys (owners.table c)).Nodup := by
  rw [h.tables c]
  exact Entries.nodup_keys_collapse _

/-- The registered graphs are found under their names. -/
theorem get?_eq_some_iff (h : Assembled regs members owners) {name : String} {suite : Suite} :
    Entries.get? name members = some suite ↔ ∃ r ∈ regs, r.name = name ∧ r.suite = suite := by
  have hnodup : (Entries.keys members).Nodup := by
    rw [h.members, Entries.keys, Registration.members, List.map_map]
    exact h.names
  rw [h.members] at hnodup ⊢
  constructor
  · intro hget
    obtain ⟨r, hr, heq⟩ := List.mem_map.1 (Entries.mem_of_get? hget)
    obtain ⟨hname, hsuite⟩ := Prod.mk.inj heq
    exact ⟨r, hr, hname, hsuite⟩
  · rintro ⟨r, hr, rfl, rfl⟩
    exact Entries.get?_of_mem hnodup (List.mem_map_of_mem hr)

/-- A suite owns a type exactly when it was registered with that type. -/
theorem owner?_eq_some_iff (h : Assembled regs members owners) {type name : String} :
    owners.owner? c type = some name ↔ ∃ r ∈ regs, r.name = name ∧ type ∈ r.types c := by
  constructor
  · intro howner
    have hmem : (type, name) ∈ Registration.routes c regs := by
      apply Entries.mem_of_mem_collapse
      rw [← h.tables c]
      exact Entries.mem_of_get? howner
    obtain ⟨r, hr, hroute⟩ := List.mem_flatMap.1 hmem
    obtain ⟨type', htype, heq⟩ := List.mem_map.1 hroute
    obtain ⟨rfl, rfl⟩ := Prod.mk.inj heq
    exact ⟨r, hr, rfl, htype⟩
  · rintro ⟨r, hr, rfl, htype⟩
    exact h.claimed c r hr type htype

/-- Every owner is the name of a member. -/
theorem mem_of_owner? (h : Assembled regs members owners) {type name : String}
    (howner : owners.owner? c type = some name) : name ∈ Entries.keys members := by
  obtain ⟨r, hr, rfl, -⟩ := h.owner?_eq_some_iff.1 howner
  rw [h.members, Entries.keys, Registration.members, List.map_map]
  exact List.mem_map_of_mem hr

end Assembled

end PropertyGraph
