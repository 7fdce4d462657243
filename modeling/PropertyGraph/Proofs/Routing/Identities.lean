/-
  PropertyGraph.Proofs.Routing.Identities

  The identities that a dispatcher gives out.  A caller knows an entity from the reply that made or
  changed it last, until it is removed.  `Tracks` says that what is known is what the members keep;
  every turn of their tables keeps it so, and the reply that comes with the turn respects what was
  known before.
-/
import PropertyGraph.Proofs.Routing.Ownership

namespace PropertyGraph

open Engine (Step given)

variable {c : EntityClass} {key name : String}

/-! ## What callers know -/

/-- A reply gives out an entity that the call has made or changed. -/
inductive Call.Gives : (call : Call) → Outcome call.Reply → (c : EntityClass) → Entity c → Prop
  | created {c : EntityClass} {body : Body c} {e : Entity c} : Gives (.create c body) (.ok e) c e
  | edited {c : EntityClass} {id : Id} {patch : Patch c} {e : Entity c} :
    Gives (.edit c id patch) (.ok e) c e

/-- A reply says that the entity of an identity has been removed. -/
inductive Call.Removes : (call : Call) → Outcome call.Reply → EntityClass → Id → Prop
  | removed {c : EntityClass} {id id' : Id} :
    CompositeId.ofId id' = CompositeId.ofId id → Removes (.remove c id') (.ok ()) c id

/-- A reply says that the entity of an identity is no longer as it was. -/
inductive Call.Ends : (call : Call) → Outcome call.Reply → EntityClass → Id → Prop
  | edited {c : EntityClass} {id id' : Id} {patch : Patch c} {e : Entity c} :
    CompositeId.ofId id' = CompositeId.ofId id → Ends (.edit c id' patch) (.ok e) c id
  | removed {c : EntityClass} {id id' : Id} :
    CompositeId.ofId id' = CompositeId.ofId id → Ends (.remove c id') (.ok ()) c id

namespace Call

variable {e e' : Entity c} {id id' : Id}

theorem gives_create {body : Body c} : (Call.create c body).Gives (.ok e) c e' ↔ e = e' :=
  ⟨fun h => by cases h; rfl, fun h => h ▸ .created⟩

theorem gives_edit {patch : Patch c} : (Call.edit c id patch).Gives (.ok e) c e' ↔ e = e' :=
  ⟨fun h => by cases h; rfl, fun h => h ▸ .edited⟩

theorem ends_edit {patch : Patch c} : (Call.edit c id patch).Ends (.ok e) c id'
    ↔ CompositeId.ofId id = CompositeId.ofId id' :=
  ⟨fun h => by cases h; assumption, .edited⟩

theorem ends_remove : (Call.remove c id).Ends (.ok ()) c id'
    ↔ CompositeId.ofId id = CompositeId.ofId id' :=
  ⟨fun h => by cases h; assumption, .removed⟩

end Call

/-- Entities, by class. -/
abbrev Knowledge := (c : EntityClass) → Entity c → Prop

/-- What a caller knows after one more reply. -/
def Knowledge.learn (K : Knowledge) (call : Call) (outcome : Outcome call.Reply) : Knowledge :=
  fun c e => call.Gives outcome c e ∨ K c e ∧ ¬ call.Ends outcome c e.id

namespace Backend

variable {σ : Type}

/-- What a caller knows after a run of steps, who knew something before. -/
def knownFrom (b : Backend σ) : σ → Knowledge → List Step → Knowledge
  | _, K, [] => K
  | s, K, step :: rest =>
    b.knownFrom (b.advance s step) (K.learn step.call (b.answer step.stamp step.call s).1) rest

/-- What a caller knows after a run of steps, who knew nothing before. -/
def known (b : Backend σ) (s : σ) (steps : List Step) : Knowledge :=
  b.knownFrom s (fun _ _ => False) steps

theorem known_append (b : Backend σ) (s : σ) (steps : List Step) (step : Step) :
    b.known s (steps ++ [step]) = (b.known s steps).learn step.call
      (b.answer step.stamp step.call (b.after s steps)).1 := by
  rw [known, known]
  generalize (fun _ _ => False : Knowledge) = before
  induction steps generalizing s before with
  | nil => rfl
  | cons first rest ih => exact ih (b.advance s first) (Knowledge.learn before first.call _)

end Backend

namespace Suite

variable {T T' : String → Table} {K K' : Knowledge} {owners : Owners} {time : Int}

/-! ## What is known is what is kept -/

/-- The entities that are known are those in the tables, under their composite identities, up to
    what rewriting the documents has made of them. -/
structure Tracks (T : String → Table) (K : Knowledge) : Prop where
  kept : ∀ {c : EntityClass} {e : Entity c}, K c e → ∃ name key x w, e = compose name x
    ∧ x.id = .ofString key ∧ T name c key = some w ∧ x.Rereads w
  shown : ∀ {name : String} {c : EntityClass} {key : String} {w : Entity c},
    T name c key = some w → ∃ x, K c (compose name x) ∧ x.id = .ofString key ∧ x.Rereads w
  single : ∀ {c : EntityClass} {e e' : Entity c}, K c e → K c e' → e.id = e'.id → e = e'

namespace Tracks

variable (h : Tracks T K)

include h

/-- The identity of what is in the tables is its key. -/
theorem id_of_table {w : Entity c} (hw : T name c key = some w) : w.id = .ofString key := by
  obtain ⟨x, -, hid, hrereads⟩ := h.shown hw
  exact hrereads.id hid

/-- What is known by the identity of a place is what is kept there. -/
theorem at_place {e : Entity c} (he : K c e) (hid : e.id = placeId name key) :
    ∃ x w, e = compose name x ∧ x.id = .ofString key ∧ T name c key = some w ∧ x.Rereads w := by
  obtain ⟨name', key', x, w, rfl, hx, hw, hrereads⟩ := h.kept he
  obtain ⟨rfl, rfl⟩ := placeId_inj ((compose_id_of_text hx).symm.trans hid)
  exact ⟨x, w, rfl, hx, hw, hrereads⟩

/-- What is known follows the change of one entry, if the reply gives out the new entity and ends
    what was known of the old one. -/
theorem change {call : Call} {outcome : Outcome call.Reply} {found : Option (Entity c)}
    (hspares : SparesAll T T' name c key) (hfound : ∀ x, found = some x → x.id = .ofString key)
    (hentry : Option.Rel Entity.Rereads found (T' name c key))
    (hgives : ∀ e, call.Gives outcome c e ↔ found.map (compose name) = some e)
    (hends : ∀ e, K c e → (call.Ends outcome c e.id ↔ e.id = placeId name key))
    (hothers : ∀ c', c' ≠ c → ∀ e, ¬ call.Gives outcome c' e ∧ ¬ call.Ends outcome c' e.id) :
    Tracks T' (K.learn call outcome) where
  kept {c' e} he := by
    obtain hnew | ⟨he, hnot⟩ := he
    · obtain rfl : c' = c := by_contra fun hclass => (hothers c' hclass e).1 hnew
      obtain ⟨x, rfl, rfl⟩ := Option.map_eq_some_iff.1 ((hgives e).1 hnew)
      generalize hplace : T' name c' key = entry at hentry
      cases hentry with
      | some hrereads => exact ⟨name, key, x, _, rfl, hfound x rfl, hplace, hrereads⟩
    · obtain ⟨name', key', x, w, rfl, hid, hw, hrereads⟩ := h.kept he
      have haway : name' = name → c' = c → key' ≠ key := by
        rintro rfl rfl rfl
        exact hnot ((hends _ he).2 (compose_id_of_text hid))
      obtain ⟨w', hw', hrereads'⟩ :=
        Entity.Rereads.exists_of_rel (hw ▸ hspares name' c' key' haway)
      exact ⟨name', key', x, w', rfl, hid, hw', hrereads.trans hrereads'⟩
  shown {name' c' key' w} hw := by
    by_cases hplace : name' = name ∧ c' = c ∧ key' = key
    · obtain ⟨rfl, rfl, rfl⟩ := hplace
      rw [hw] at hentry
      cases hentry with
      | @some x _ hrereads => exact ⟨x, .inl ((hgives _).2 rfl), hfound x rfl, hrereads⟩
    · obtain ⟨old, hold, hrereads'⟩ := Entity.Rereads.exists_of_rel_after
        (hw ▸ hspares name' c' key' fun hname hclass hkey => hplace ⟨hname, hclass, hkey⟩)
      obtain ⟨x, hx, hid, hrereads⟩ := h.shown hold
      refine ⟨x, .inr ⟨hx, fun hended => hplace ?_⟩, hid, hrereads.trans hrereads'⟩
      obtain rfl : c' = c := by_contra fun hclass => (hothers c' hclass _).2 hended
      obtain ⟨hname, hkey⟩ :=
        placeId_inj ((compose_id_of_text hid).symm.trans ((hends _ hx).1 hended))
      exact ⟨hname, rfl, hkey⟩
  single {c' e e'} he he' heq := by
    -- what is given out now has the identity of the place, and what was known there has ended
    have hnew : ∀ {e e' : Entity c'}, call.Gives outcome c' e → K c' e' →
        ¬ call.Ends outcome c' e'.id → e.id ≠ e'.id := by
      intro e e' hnew he' hnot heq
      obtain rfl : c' = c := by_contra fun hclass => (hothers c' hclass e).1 hnew
      obtain ⟨x, hx, rfl⟩ := Option.map_eq_some_iff.1 ((hgives e).1 hnew)
      exact hnot ((hends e' he').2 (heq.symm.trans (compose_id_of_text (hfound x hx))))
    obtain hgiven | ⟨hold, hnot⟩ := he <;> obtain hgiven' | ⟨hold', hnot'⟩ := he'
    · obtain rfl : c' = c := by_contra fun hclass => (hothers c' hclass e).1 hgiven
      exact Option.some.inj (((hgives e).1 hgiven).symm.trans ((hgives e').1 hgiven'))
    · exact absurd heq (hnew hgiven hold' hnot')
    · exact absurd heq.symm (hnew hgiven' hold hnot)
    · exact h.single hold hold' heq

/-- An identity leads to a place exactly if it is the identity of what is known there. -/
theorem ofId_eq_iff {id : Id} (hid : CompositeId.ofId id = .ok ⟨name, .ofString key⟩) {e : Entity c}
    (he : K c e) : CompositeId.ofId id = CompositeId.ofId e.id ↔ e.id = placeId name key := by
  obtain ⟨name', key', x, w, rfl, hx, -⟩ := h.kept he
  rw [hid, compose_id_of_text hx, CompositeId.ofId_toId]
  constructor
  · intro heq
    rw [placeId, ← Except.ok.inj heq]
  · intro heq
    obtain ⟨rfl, rfl⟩ := placeId_inj heq
    rfl

/-- What is known stays after a reply that gives out nothing and ends nothing. -/
theorem still {call : Call} {outcome : Outcome call.Reply}
    (hgives : ∀ c e, ¬ call.Gives outcome c e) (hends : ∀ c id, ¬ call.Ends outcome c id) :
    Tracks T (K.learn call outcome) := by
  have hsame : K.learn call outcome = K := by
    funext c e
    refine propext ⟨?_, fun he => .inr ⟨he, hends c e.id⟩⟩
    rintro (hgiven | ⟨he, -⟩)
    · exact absurd hgiven (hgives c e)
    · exact he
  rw [hsame]
  exact h

/-- What is known follows every turn of the tables. -/
theorem turns {call : Call} {outcome : Outcome call.Reply}
    (hturns : Turns owners T time call outcome T') : Tracks T' (K.learn call outcome) := by
  cases hturns with
  | failed f => exact h.still nofun nofun
  -- looking neither gives an identity nor ends one
  | looked reply hlooks =>
    refine h.still (fun c e hgiven => ?_) fun c id hended => ?_
    · cases hgiven <;> exact hlooks
    · cases hended <;> exact hlooks
  | @created c body name key e e' _ _ he hnone hspares hentry hrereads =>
    have hrel : Option.Rel Entity.Rereads (some e) (T' name c key) := hentry ▸ .some hrereads
    refine h.change hspares (fun x hx => ?_) hrel (fun e₁ => ?_) (fun e₁ he₁ => ?_)
      fun c' hclass e₁ => ?_
    · rw [← Option.some.inj hx, he]
      rfl
    · rw [Call.gives_create, Option.map_some, Option.some.injEq]
    · -- nothing was known where nothing was kept
      refine ⟨nofun, fun heq => ?_⟩
      obtain ⟨x, w, -, -, hw, -⟩ := h.at_place he₁ heq
      rw [hnone] at hw
      cases hw
    · exact ⟨fun hgiven => by cases hgiven; exact hclass rfl, nofun⟩
  | @edited c id patch name key old e e' _ hid he hold hspares hentry hrereads =>
    have hrel : Option.Rel Entity.Rereads (some e) (T' name c key) := hentry ▸ .some hrereads
    have hid' : old.id = .ofString key := h.id_of_table hold
    refine h.change hspares (fun x hx => ?_) hrel (fun e₁ => ?_) (fun e₁ he₁ => ?_)
      fun c' hclass e₁ => ?_
    · rw [← Option.some.inj hx, he]
      exact hid'
    · rw [Call.gives_edit, Option.map_some, Option.some.injEq]
    · rw [Call.ends_edit, h.ofId_eq_iff hid he₁]
    · exact ⟨fun hgiven => by cases hgiven; exact hclass rfl,
        fun hended => by cases hended; exact hclass rfl⟩
  | @removed c id name key old _ hid hold hspares hgone =>
    have hrel : Option.Rel Entity.Rereads none (T' name c key) := by
      rw [hgone]
      exact .none
    refine h.change hspares (fun x hx => ?_) hrel (fun e₁ => ⟨?_, ?_⟩) (fun e₁ he₁ => ?_)
      fun c' hclass e₁ => ?_
    · cases hx
    · intro hgiven
      cases hgiven
    · intro hgiven
      cases hgiven
    · rw [Call.ends_remove, h.ofId_eq_iff hid he₁]
    · exact ⟨nofun, fun hended => by cases hended; exact hclass rfl⟩

/-- A known identity is the composite of a place. -/
theorem id_of_known {e : Entity c} (he : K c e) : ∃ name key, e.id = placeId name key := by
  obtain ⟨name, key, x, -, rfl, hid, -, -⟩ := h.kept he
  exact ⟨name, key, compose_id_of_text hid⟩

/-- Known identities that are read as the same composite are the same. -/
theorem id_eq_of_ofId {e e' : Entity c} (he : K c e) (he' : K c e')
    (heq : CompositeId.ofId e.id = CompositeId.ofId e'.id) : e.id = e'.id := by
  obtain ⟨name, key, hid⟩ := h.id_of_known he'
  rw [hid, CompositeId.ofId_toId] at heq
  rw [hid]
  exact (h.ofId_eq_iff heq he).1 rfl

end Tracks

/-! ## What replies say of identities -/

/-- A reply respects what is known: an entity that is made has an identity that is not known yet,
    and one that is changed or removed is known and keeps its identity. -/
inductive Respects (owners : Owners) (K : Knowledge) (time : Int) :
    (call : Call) → Outcome call.Reply → Prop
  | failed {call : Call} (f : Failure) : Respects owners K time call (.error f)
  | looked {call : Call} (reply : call.Reply) : call.Looks → Respects owners K time call (.ok reply)
  | created {c : EntityClass} {body : Body c} {name key : String} {e : Entity c} :
    owners.owner? c body.type = some name → e = body.create (placeId name key) (some time) →
    (∀ x, K c x → x.id ≠ e.id) → Respects owners K time (.create c body) (.ok e)
  | edited {c : EntityClass} {id : Id} {patch : Patch c} {old seen e : Entity c} :
    K c old → CompositeId.ofId id = CompositeId.ofId old.id → old.Rereads seen →
    e = patch.apply seen time → e.id = old.id → Respects owners K time (.edit c id patch) (.ok e)
  | removed {c : EntityClass} {id : Id} {old : Entity c} : K c old →
    CompositeId.ofId id = CompositeId.ofId old.id → Respects owners K time (.remove c id) (.ok ())

/-- Every turn of the tables respects what is known. -/
theorem Tracks.respects (h : Tracks T K) {call : Call} {outcome : Outcome call.Reply}
    (hturns : Turns owners T time call outcome T') : Respects owners K time call outcome := by
  cases hturns with
  | failed f => exact .failed f
  | looked reply hlooks => exact .looked reply hlooks
  | @created c body name key e e' _ howner he hnone hspares hentry hrereads =>
    subst he
    refine .created howner rfl fun x hx heq => ?_
    -- nothing was known where nothing was kept
    obtain ⟨-, w, -, -, hw, -⟩ := h.at_place hx heq
    rw [hnone] at hw
    cases hw
  | @edited c id patch name key old e e' _ hid he hold hspares hentry hrereads =>
    obtain ⟨x, hx, htext, hrereads'⟩ := h.shown hold
    have hold' : old.id = .ofString key := h.id_of_table hold
    refine .edited hx ((h.ofId_eq_iff hid hx).2 (compose_id_of_text htext))
      (rereads_compose hrereads' htext) (by rw [he]; rfl) ?_
    rw [he, compose_id_of_text htext]
    exact compose_id_of_text hold'
  | @removed c id name key old _ hid hold hspares hgone =>
    obtain ⟨x, hx, htext, -⟩ := h.shown hold
    exact .removed hx ((h.ofId_eq_iff hid hx).2 (compose_id_of_text htext))

/-- A known identity stays known by every reply that does not say that its entity is removed. -/
theorem Tracks.stays_known (h : Tracks T K) {call : Call} {outcome : Outcome call.Reply}
    (hrespects : Respects owners K time call outcome) {e : Entity c} (he : K c e)
    (hkept : ¬ call.Removes outcome c e.id) : ∃ e', K.learn call outcome c e' ∧ e'.id = e.id := by
  by_cases hends : call.Ends outcome c e.id
  · cases hends with
    | edited hid =>
      cases hrespects with
      | looked _ hlooks => exact hlooks.elim
      | edited hold hid' _ _ heq =>
        exact ⟨_, .inl .edited, heq.trans (h.id_eq_of_ofId hold he (hid'.symm.trans hid))⟩
    | removed hid => exact absurd (.removed hid) hkept
  · exact ⟨e, .inr ⟨he, hends⟩, rfl⟩

end Suite

end PropertyGraph
