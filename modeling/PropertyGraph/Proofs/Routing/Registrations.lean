/-
  PropertyGraph.Proofs.Routing.Registrations

  Which registrations make a dispatcher.  They fit together if no name is taken twice and no type
  of a class is claimed under two names.  Such registrations make a dispatcher that routes a type
  to the suite that claims it and has every suite that it routes to.  Of others the first offence
  is reported, whatever comes after it: a name that is taken, or the first claim of a suite, node
  types before relationship types, to a type that an earlier suite owns.

  What carries this is one step.  A registration after others that went well fails exactly when it
  is an offence against them, and a failure stays.
-/
import PropertyGraph.Proofs.Routing.PathsFirst
import PropertyGraph.Proofs.Routing.Stores
import PropertyGraph.Proofs.Sorted

namespace PropertyGraph

variable {c : EntityClass}

/-! ## Objections to claims -/

namespace Owners

variable {owners owners' : Owners} {name type : String} {claim : EntityClass × String}
  {failure : Failure}

/-- What stands against the claim of a suite: that another suite owns the type. -/
def objection? (owners : Owners) (name : String) (claim : EntityClass × String) : Option Failure :=
  ((owners.owner? claim.1 claim.2).filter (· ≠ name)).map fun other =>
    .config (.twoOwners claim.1 claim.2 other name)

theorem objection?_eq_some_iff : owners.objection? name claim = some failure ↔
    ∃ other, owners.owner? claim.1 claim.2 = some other ∧ other ≠ name
      ∧ failure = .config (.twoOwners claim.1 claim.2 other name) := by
  simp only [objection?, Option.map_eq_some_iff, Option.filter_eq_some_iff, decide_eq_true_eq,
    and_assoc, @eq_comm _ _ failure]

theorem objection?_eq_none_iff : owners.objection? name claim = none ↔
    ∀ other, owners.owner? claim.1 claim.2 = some other → other = name := by
  simp [objection?, Option.filter_eq_none_iff]

/-- A claim fails for the objection to it, and is granted if there is none. -/
theorem claim_cases (owners : Owners) (name : String) (c : EntityClass) (type : String) :
    (∃ failure, owners.objection? name (c, type) = some failure
        ∧ owners.claim c type name = .error failure)
      ∨ owners.objection? name (c, type) = none
        ∧ ∃ owners', owners.claim c type name = .ok owners' := by
  rw [claim]
  cases howner : owners.owner? c type with
  | none => exact .inr ⟨objection?_eq_none_iff.2 fun other h => by simp [howner] at h, _, rfl⟩
  | some other =>
    by_cases hother : other = name
    · refine .inr ⟨objection?_eq_none_iff.2 fun o h => ?_, owners, if_pos hother⟩
      rw [← hother, ← Option.some.inj (howner.symm.trans h)]
    · exact .inl ⟨_, objection?_eq_some_iff.2 ⟨other, howner, hother, rfl⟩, if_neg hother⟩

/-- A claim that is granted changes no objection to other claims of the suite. -/
theorem objection?_of_claim (h : owners.claim c type name = .ok owners')
    (claim : EntityClass × String) :
    owners'.objection? name claim = owners.objection? name claim := by
  obtain ⟨c', type'⟩ := claim
  cases howner : owners.owner? c' type' with
  | some other => rw [objection?, objection?, howner, owner?_of_claim h howner]
  | none =>
    have hnone : owners.objection? name (c', type') = none :=
      objection?_eq_none_iff.2 fun other hother => by simp [howner] at hother
    rw [hnone, objection?_eq_none_iff]
    intro other hother
    rw [owner?, table_of_claim h c'] at hother
    -- a type that had no owner has one now only if it is the one that was claimed
    split at hother
    · next hclass =>
      subst hclass
      by_cases htype : type' = type
      · rw [htype, Entries.get?_insert_self] at hother
        exact (Option.some.inj hother).symm
      · rw [Entries.get?_insert_of_ne htype] at hother
        cases howner.symm.trans hother
    · cases howner.symm.trans hother

/-- Claims fail for the first objection. -/
theorem claimAll_eq_error_iff {claims : List (EntityClass × String)} :
    owners.claimAll name claims = .error failure
      ↔ claims.findSome? (owners.objection? name) = some failure := by
  induction claims generalizing owners with
  | nil => exact ⟨nofun, nofun⟩
  | cons claim rest ih =>
    obtain ⟨c, type⟩ := claim
    rw [claimAll, List.findSome?_cons]
    obtain ⟨other, hobjection, hclaim⟩ | ⟨hobjection, owners', hclaim⟩ :=
      claim_cases owners name c type
    · rw [hobjection, hclaim]
      simp [bind, Except.bind]
    · rw [hobjection, hclaim, ← funext (objection?_of_claim hclaim)]
      exact ih

end Owners

/-! ## Registrations that fit together -/

namespace Registration

variable {regs before after : List Registration} {r : Registration} {fault : ConfigFault}

/-- What a suite claims, in the order in which its claims are looked at. -/
def claims (r : Registration) : List (EntityClass × String) :=
  Assembly.claims r.nodeTypes r.relationshipTypes

theorem mem_claims_iff {claim : EntityClass × String} :
    claim ∈ r.claims ↔ claim.2 ∈ r.types claim.1 := by
  refine ⟨fun h => ?_, mem_claims⟩
  obtain h | h := List.mem_append.1 h <;>
  · obtain ⟨type, htype, rfl⟩ := List.mem_map.1 h
    exact htype

/-- No name is registered twice, and no type of a class is claimed under two names. -/
structure Consistent (regs : List Registration) : Prop where
  names : (regs.map Registration.name).Nodup
  claims : ∀ c, ∀ r ∈ regs, ∀ other ∈ regs, ∀ type ∈ r.types c, type ∈ other.types c →
    r.name = other.name

/-- What is wrong with a registration after others: its name is taken or, if the name is free, the
    first of its claims is not free that is not. -/
inductive Offence (before : List Registration) (r : Registration) : ConfigFault → Prop
  | name (htaken : r.name ∈ before.map Registration.name) : Offence before r (.suiteTwice r.name)
  | type {granted rest : List (EntityClass × String)} {c : EntityClass} {type : String}
    {owner : Registration} (hfree : r.name ∉ before.map Registration.name)
    (hclaims : r.claims = granted ++ (c, type) :: rest)
    (hgranted : ∀ claim ∈ granted, ∀ other ∈ before, claim.2 ∉ other.types claim.1)
    (howner : owner ∈ before) (htype : type ∈ owner.types c) :
    Offence before r (.twoOwners c type owner.name r.name)

theorem Consistent.of_append (h : Consistent (before ++ after)) : Consistent before where
  names := by
    have hnames := h.names
    rw [List.map_append] at hnames
    exact hnames.of_append_left
  claims c r hr other hother := h.claims c r (List.mem_append_left _ hr) other
    (List.mem_append_left _ hother)

/-- Registrations with an offence among them do not fit together. -/
theorem Offence.not_consistent (h : Offence before r fault) :
    ¬ Consistent (before ++ r :: after) := by
  intro hconsistent
  cases h with
  | name htaken =>
    have hnames := hconsistent.names
    rw [List.map_append, List.map_cons, List.nodup_append] at hnames
    exact hnames.2.2 r.name htaken r.name (List.mem_cons_self ..) rfl
  | @type granted rest c type owner hfree hclaims _ howner htype =>
    have hclaim : (c, type) ∈ r.claims := by simp [hclaims]
    have hsame : owner.name = r.name := hconsistent.claims c owner
      (List.mem_append_left _ howner) r (by simp) type htype (mem_claims_iff.1 hclaim)
    exact hfree (hsame ▸ List.mem_map_of_mem howner)

end Registration

open Registration (Consistent Offence)

namespace Assembled

variable {regs : List Registration} {members : List (String × Suite)} {owners : Owners}

theorem consistent (h : Assembled regs members owners) : Consistent regs where
  names := h.names
  claims c r hr other hother type htype htype' :=
    Option.some.inj ((h.claimed c r hr type htype).symm.trans (h.claimed c other hother type htype'))

theorem mem_names_iff (h : Assembled regs members owners) {name : String} :
    Entries.contains name members = true ↔ name ∈ regs.map Registration.name := by
  rw [Entries.contains, Option.isSome_iff_exists, ← Entries.mem_keys_iff, h.members, Entries.keys,
    Registration.members, List.map_map]
  rfl

/-- The first objection to the claims of a suite with a free name is its offence. -/
theorem objection_iff (h : Assembled regs members owners) {r : Registration}
    (hfree : r.name ∉ regs.map Registration.name) {failure : Failure} :
    r.claims.findSome? (owners.objection? r.name) = some failure
      ↔ ∃ fault, Offence regs r fault ∧ failure = .config fault := by
  have hother : ∀ other ∈ regs, other.name ≠ r.name := fun other hmem hsame =>
    hfree (hsame ▸ List.mem_map_of_mem hmem)
  -- the name is free, so that whoever owns a type is somebody else
  have hnone : ∀ claim, owners.objection? r.name claim = none
      ↔ ∀ other ∈ regs, claim.2 ∉ other.types claim.1 := by
    intro claim
    rw [Owners.objection?_eq_none_iff]
    constructor
    · intro hown other hmem htype
      exact hother other hmem (hown other.name (h.claimed claim.1 other hmem claim.2 htype))
    · intro hfree name howner
      obtain ⟨other, hmem, -, htype⟩ := h.owner?_eq_some_iff.1 howner
      exact absurd htype (hfree other hmem)
  rw [List.findSome?_eq_some_iff]
  constructor
  · rintro ⟨granted, ⟨c, type⟩, rest, hclaims, hobjection, hgranted⟩
    obtain ⟨name, howner, -, rfl⟩ := Owners.objection?_eq_some_iff.1 hobjection
    obtain ⟨owner, hmem, rfl, htype⟩ := h.owner?_eq_some_iff.1 howner
    exact ⟨_, .type hfree hclaims (fun claim hclaim => (hnone claim).1 (hgranted claim hclaim)) hmem
      htype, rfl⟩
  · rintro ⟨fault, hoffence, rfl⟩
    cases hoffence with
    | name htaken => exact absurd htaken hfree
    | @type granted rest c type owner _ hclaims hgranted howner htype =>
      refine ⟨granted, (c, type), rest, hclaims, ?_,
        fun claim hclaim => (hnone claim).2 (hgranted claim hclaim)⟩
      exact Owners.objection?_eq_some_iff.2
        ⟨owner.name, h.claimed c owner howner type htype, hother owner howner, rfl⟩

end Assembled

/-! ## Putting a dispatcher together -/

namespace Assembly

variable {regs before after : List Registration} {r : Registration} {failure : Failure}

/-- A registration after others that went well fails exactly when it is an offence. -/
theorem failure_append_singleton (h : (ofList before).failure = none) :
    (ofList (before ++ [r])).failure = some failure
      ↔ ∃ fault, Offence before r fault ∧ failure = .config fault := by
  have hbefore := assembled_of_failure h
  rw [ofList_append, register, h]
  simp only [Option.isSome_none, Bool.false_eq_true, if_false, hbefore.mem_names_iff]
  by_cases htaken : r.name ∈ before.map Registration.name
  · simp only [if_pos htaken]
    constructor
    · rintro hfailure
      exact ⟨_, .name htaken, (Option.some.inj hfailure).symm⟩
    · rintro ⟨fault, hoffence, rfl⟩
      cases hoffence with
      | name _ => rfl
      | type hfree => exact absurd htaken hfree
  · simp only [if_neg htaken]
    rw [← hbefore.objection_iff htaken, ← Owners.claimAll_eq_error_iff, Registration.claims]
    cases (ofList before).owners.claimAll r.name (claims r.nodeTypes r.relationshipTypes) with
    | error other => simp
    | ok owners => simp

/-- Whatever is registered after a failure, the failure stays. -/
theorem failure_append (h : (ofList before).failure = some failure) (after : List Registration) :
    (ofList (before ++ after)).failure = some failure := by
  induction after using List.reverseRecOn with
  | nil => rwa [List.append_nil]
  | append_singleton after r ih => rw [← List.append_assoc, ofList_append, register, ih]; exact ih

theorem failure_eq_none_iff : (ofList regs).failure = none ↔ Consistent regs := by
  refine ⟨fun h => (assembled_of_failure h).consistent, fun h => ?_⟩
  induction regs using List.reverseRecOn with
  | nil => rfl
  | append_singleton regs r ih =>
    cases hfailure : (ofList (regs ++ [r])).failure with
    | none => rfl
    | some failure =>
      obtain ⟨fault, hoffence, -⟩ := (failure_append_singleton (ih h.of_append)).1 hfailure
      exact absurd h hoffence.not_consistent

/-- The failure is the first offence after registrations that fit together. -/
theorem failure_eq_some_iff : (ofList regs).failure = some failure
    ↔ ∃ before r after fault, regs = before ++ r :: after ∧ Consistent before
      ∧ Offence before r fault ∧ failure = .config fault := by
  constructor
  · intro h
    induction regs using List.reverseRecOn with
    | nil => cases h
    | append_singleton regs last ih =>
      cases hfailure : (ofList regs).failure with
      | none =>
        obtain ⟨fault, hoffence, hfault⟩ := (failure_append_singleton hfailure).1 h
        exact ⟨regs, last, [], fault, rfl, failure_eq_none_iff.1 hfailure, hoffence, hfault⟩
      | some earlier =>
        obtain rfl : earlier = failure :=
          Option.some.inj ((failure_append hfailure [last]).symm.trans h)
        obtain ⟨before, r, after, fault, rfl, hrest⟩ := ih hfailure
        exact ⟨before, r, after ++ [last], fault, by simp, hrest⟩
  · rintro ⟨before, r, after, fault, rfl, hconsistent, hoffence, rfl⟩
    have hfails : (ofList (before ++ [r])).failure = some (.config fault) :=
      (failure_append_singleton (failure_eq_none_iff.2 hconsistent)).2 ⟨fault, hoffence, rfl⟩
    rw [List.append_cons]
    exact failure_append hfails after

theorem dispatcher_isOk_iff : (∃ suite, (ofList regs).dispatcher = .ok suite) ↔ Consistent regs := by
  rw [← failure_eq_none_iff, dispatcher]
  cases (ofList regs).failure with
  | none => exact ⟨fun _ => rfl, fun _ => ⟨_, rfl⟩⟩
  | some failure => simp

theorem dispatcher_eq_error_iff : (ofList regs).dispatcher = .error failure
    ↔ ∃ before r after fault, regs = before ++ r :: after ∧ Consistent before
      ∧ Offence before r fault ∧ failure = .config fault := by
  rw [← failure_eq_some_iff, dispatcher]
  cases (ofList regs).failure <;> simp

end Assembly

/-! ## What the dispatcher does with its owners -/

namespace FileProgram

/-- Each result of several programs is the result of one of them, over some files. -/
theorem exists_of_mem_mapM {α β : Type} {f : α → FileProgram β} {as : List α} {tree : FileTree}
    {b : β} (h : b ∈ ((as.mapM f).run tree).1) : ∃ a ∈ as, ∃ tree', b = ((f a).run tree').1 := by
  have hloop : ∀ (as : List α) (acc : List β) (tree : FileTree),
      b ∈ ((List.mapM.loop f as acc).run tree).1 →
      b ∈ acc ∨ ∃ a ∈ as, ∃ tree', b = ((f a).run tree').1 := by
    intro as
    induction as with
    | nil => exact fun acc tree h => .inl (List.mem_reverse.1 h)
    | cons a rest ih =>
      intro acc tree h
      rw [List.mapM.loop, run_bind] at h
      obtain h | ⟨a', ha', htree⟩ := ih _ _ h
      · obtain rfl | h := List.mem_cons.1 h
        · exact .inr ⟨a, List.mem_cons_self .., tree, rfl⟩
        · exact .inl h
      · exact .inr ⟨a', List.mem_cons_of_mem _ ha', htree⟩
  obtain h | h := hloop as [] tree h
  · exact absurd h List.not_mem_nil
  · exact h

end FileProgram

namespace Suite

open Engine (Step)

variable {members : List (String × Suite)} {owners : Owners} {stamp : Stamp} {tree : FileTree}
  {s : Searcher} {fault : IdentityFault}

/-- After any calls a dispatcher has the same owners, and members of the same names. -/
theorem after_dispatcher (members : List (String × Suite)) (owners : Owners) (tree : FileTree)
    (steps : List Step) : ∃ members',
      (backend.after (.dispatcher members owners, tree) steps).1 = .dispatcher members' owners
        ∧ Entries.keys members' = Entries.keys members := by
  refine after_of_answer (P := fun suite => ∃ members', suite = .dispatcher members' owners
    ∧ Entries.keys members' = Entries.keys members) ?_ ⟨members, rfl, rfl⟩ tree steps
  rintro _ ⟨members', rfl, hnames⟩ stamp call tree
  obtain ⟨next, hbecame, hsucceed⟩ := run_dispatcher members' owners stamp call tree
  exact ⟨next, hbecame, hsucceed.names.trans hnames⟩

theorem error_of_map {α β : Type} {f : α → β} {outcome : Outcome α} {failure : Failure}
    (h : outcome.map f = .error failure) : outcome = .error failure := by
  cases outcome with
  | ok a => cases h
  | error other => exact congrArg Except.error (Except.error.inj h)

/-- A search that a dispatcher refuses for an identity was so refused by a member. -/
theorem identity_of_search (hnodup : (Entries.keys (owners.table c)).Nodup)
    (hknown : ∀ type name, owners.owner? c type = some name → name ∈ Entries.keys members)
    (h : ((answer stamp (.dispatcher members owners) (.search c s)).run tree).1.1
      = .error (.identity fault)) :
    ∃ type name, owners.owner? c type = some name ∧
      ∃ member, Entries.get? name members = some member ∧ ∃ r tree',
        ((answer stamp member (.search c (.all [.typeEq type, r]))).run tree').1.1
          = .error (.identity fault) := by
  rw [answer] at h
  cases hdivide : divide owners c s with
  | error failure =>
    rw [hdivide] at h
    obtain rfl : failure = .identity fault := Except.error.inj h
    obtain ⟨p, pathFault, hpath, -⟩ :=
      Searcher.checkPaths_eq_error_iff.1 (divide_eq_error_iff.1 hdivide)
    cases hpath
  | ok tasks =>
    simp only [hdivide, FileProgram.run_bind] at h
    obtain ⟨pair, hpair, hfails⟩ := List.mem_map.1 (mem_of_gather_eq_error h)
    obtain ⟨⟨name, searcher⟩, htask, tree', rfl⟩ := FileProgram.exists_of_mem_mapM hpair
    obtain ⟨type, r, rfl, howner⟩ := owner?_of_divide hnodup hdivide htask
    obtain ⟨member, hmember⟩ := Entries.mem_keys_iff.1 (hknown type name howner)
    simp only [FileProgram.run_bind, run_answerIn_of_some hmember] at hfails
    exact ⟨type, name, howner, member, hmember, r, tree', error_of_map hfails⟩

/-- A dispatcher that has the suites it routes to sends what is to be created to the owner of the
    type, and refuses a type without an owner. -/
theorem run_create (stamp : Stamp) (tree : FileTree) (body : Body c)
    (hknown : ∀ name, owners.owner? c body.type = some name → name ∈ Entries.keys members) :
    (owners.owner? c body.type = none ∧
      ((answer stamp (.dispatcher members owners) (.create c body)).run tree).1.1
        = .error (.unownedType c body.type))
      ∨ ∃ name member, owners.owner? c body.type = some name
        ∧ Entries.get? name members = some member
        ∧ ((answer stamp (.dispatcher members owners) (.create c body)).run tree).1.1
          = (((answer stamp member (.create c body)).run tree).1.1).map
            fun e : Entity c => compose name e := by
  cases howner : owners.owner? c body.type with
  | none =>
    refine .inl ⟨rfl, ?_⟩
    rw [answer, Owners.owner, howner]
    rfl
  | some name =>
    obtain ⟨member, hmember⟩ := Entries.mem_keys_iff.1 (hknown name howner)
    refine .inr ⟨name, member, rfl, hmember, ?_⟩
    rw [run_of_forwards (.create howner) hmember]
    rfl

/-- A dispatcher routes as registrations say.  Its members have the registered names; a type is
    owned by the suite that lists it, which is one of the members; the types it lists are the
    registered ones in ascending order.  What is to be created goes to the owner of its type and is
    refused for nothing but a type without one; a search is refused for an identity only if a
    member refuses one so. -/
structure RoutesBy (regs : List Registration) (members : List (String × Suite)) (owners : Owners)
    (tree : FileTree) : Prop where
  names : Entries.keys members = regs.map Registration.name
  owner : ∀ c type name, owners.owner? c type = some name
    ↔ ∃ r ∈ regs, r.name = name ∧ type ∈ r.types c
  known : ∀ c type name, owners.owner? c type = some name →
    ∃ member, Entries.get? name members = some member
  types : ∀ c stamp, ∃ types : List String,
    ((answer stamp (.dispatcher members owners) (.types c)).run tree).1.1 = .ok types
      ∧ types.Pairwise (· < ·) ∧ ∀ type, type ∈ types ↔ ∃ r ∈ regs, type ∈ r.types c
  create : ∀ c stamp (body : Body c),
    ((∀ r ∈ regs, body.type ∉ r.types c) ∧
      ((answer stamp (.dispatcher members owners) (.create c body)).run tree).1.1
        = .error (.unownedType c body.type))
    ∨ ∃ r ∈ regs, body.type ∈ r.types c ∧ ∃ member, Entries.get? r.name members = some member
      ∧ ((answer stamp (.dispatcher members owners) (.create c body)).run tree).1.1
        = (((answer stamp member (.create c body)).run tree).1.1).map
          fun e : Entity c => compose r.name e
  search : ∀ c stamp s fault,
    ((answer stamp (.dispatcher members owners) (.search c s)).run tree).1.1
      = .error (.identity fault) →
    ∃ r ∈ regs, ∃ member, Entries.get? r.name members = some member ∧ ∃ s' tree',
      ((answer stamp member (.search c s')).run tree').1.1 = .error (.identity fault)

/-- The owners of registrations route as the registrations say, whatever has become of the members
    since. -/
theorem routesBy_of_assembled {regs : List Registration} (h : Assembled regs members owners)
    {members' : List (String × Suite)} (hnames : Entries.keys members' = Entries.keys members)
    (tree : FileTree) : RoutesBy regs members' owners tree := by
  have hknown : ∀ c type name, owners.owner? c type = some name → name ∈ Entries.keys members' :=
    fun c type name howner => hnames ▸ h.mem_of_owner? howner
  refine ⟨?_, fun c type name => h.owner?_eq_some_iff, fun c type name howner =>
    Entries.mem_keys_iff.1 (hknown c type name howner), ?_, ?_, ?_⟩
  · rw [hnames, h.members, Entries.keys, Registration.members, List.map_map]
    rfl
  · intro c stamp
    refine ⟨owners.types c, by rw [run_types], Text.ascending_sorted _, fun type => ?_⟩
    rw [Owners.types, Text.mem_sorted, Entries.mem_keys_iff]
    constructor
    · rintro ⟨name, howner⟩
      obtain ⟨r, hr, -, htype⟩ := h.owner?_eq_some_iff.1 howner
      exact ⟨r, hr, htype⟩
    · rintro ⟨r, hr, htype⟩
      exact ⟨r.name, h.claimed c r hr type htype⟩
  · intro c stamp body
    obtain ⟨hnone, hrun⟩ | ⟨name, member, howner, hmember, hrun⟩ :=
      run_create stamp tree body (hknown c body.type)
    · refine .inl ⟨fun r hr htype => ?_, hrun⟩
      rw [h.claimed c r hr body.type htype] at hnone
      cases hnone
    · obtain ⟨r, hr, rfl, htype⟩ := h.owner?_eq_some_iff.1 howner
      exact .inr ⟨r, hr, htype, member, hmember, hrun⟩
  · -- a search fails for an identity only where a member does
    intro c stamp s fault hfails
    obtain ⟨type, name, howner, member, hmember, r, tree', hmemberFails⟩ :=
      identity_of_search (h.nodup_types c) (hknown c) hfails
    obtain ⟨registered, hregistered, rfl, -⟩ := h.owner?_eq_some_iff.1 howner
    exact ⟨registered, hregistered, member, hmember, _, tree', hmemberFails⟩

end Suite

namespace Assembly

open Suite (backend RoutesBy)

/-- Exactly the registrations that fit together make a dispatcher.  Of others the first offence is
    reported, whatever is registered after it.  The dispatcher has the registered suites under
    their names, and after any calls it routes as the registrations say. -/
theorem builds_consistent (regs : List Registration) :
    ((∃ suite, (ofList regs).dispatcher = .ok suite) ↔ Consistent regs)
    ∧ (∀ failure, (ofList regs).dispatcher = .error failure
      ↔ ∃ before r after fault, regs = before ++ r :: after ∧ Consistent before
        ∧ Offence before r fault ∧ failure = .config fault)
    ∧ ∀ suite, (ofList regs).dispatcher = .ok suite → ∃ owners,
      suite = .dispatcher (Registration.members regs) owners
      ∧ ∀ tree steps, ∃ members',
        (backend.after (suite, tree) steps).1 = .dispatcher members' owners
          ∧ RoutesBy regs members' owners (backend.after (suite, tree) steps).2 := by
  refine ⟨dispatcher_isOk_iff, fun failure => dispatcher_eq_error_iff, fun suite h => ?_⟩
  obtain ⟨members, owners, rfl, hassembled⟩ := assembled_of_dispatcher h
  refine ⟨owners, by rw [hassembled.members], fun tree steps => ?_⟩
  obtain ⟨members', hafter, hnames⟩ := Suite.after_dispatcher members owners tree steps
  exact ⟨members', hafter, Suite.routesBy_of_assembled hassembled hnames _⟩

/-- A store for some types, of which one is listed twice. -/
def personStore : Registration :=
  ⟨"people", .store Store.blank, ["Person", "Person"], ["Knows", "Person"]⟩

/-- A store for other types of nodes. -/
def docStore : Registration := ⟨"docs", .store Store.blank, ["Doc", "Knows"], []⟩

/-- A store that wants a type that is taken, after one that is not. -/
def greedyStore : Registration := ⟨"archive", .store Store.blank, ["Memo", "Person"], ["Doc"]⟩

/-- Two of the stores fit together, and route to each other after a node has been created; with the
    third the type that is taken is reported, and not the name that is taken later. -/
theorem builds_consistent_stores :
    (∃ suite, (ofList [personStore, docStore]).dispatcher = .ok suite
      ∧ ∃ members' owners tree',
        backend.after (suite, .sample) [⟨⟨"1", 10⟩, .create .node (Body.node "Doc" [])⟩]
          = (.dispatcher members' owners, tree')
        ∧ RoutesBy [personStore, docStore] members' owners tree')
    ∧ (ofList [personStore, docStore, greedyStore, docStore]).dispatcher
      = .error (.config (.twoOwners .node "Person" "people" "archive")) := by
  have hconsistent : Consistent [personStore, docStore] := by
    refine ⟨by decide, fun c => ?_⟩
    cases c <;> simp [personStore, docStore, Registration.types]
  constructor
  · obtain ⟨suite, hsuite⟩ := (builds_consistent [personStore, docStore]).1.2 hconsistent
    obtain ⟨owners, -, hafter⟩ := (builds_consistent [personStore, docStore]).2.2 suite hsuite
    obtain ⟨members', hbecame, hroutes⟩ :=
      hafter .sample [⟨⟨"1", 10⟩, .create .node (Body.node "Doc" [])⟩]
    exact ⟨suite, hsuite, members', owners, _, Prod.ext hbecame rfl, hroutes⟩
  · refine ((builds_consistent _).2.1 _).2
      ⟨[personStore, docStore], greedyStore, [docStore], _, rfl, hconsistent, ?_, rfl⟩
    exact @Offence.type _ _ [(.node, "Memo")] [(.relationship, "Doc")] .node "Person" personStore
      (by decide) rfl (by simp [personStore, docStore, Registration.types]) (by simp) (by decide)

end Assembly

end PropertyGraph
