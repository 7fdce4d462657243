/-
  PropertyGraph.Proofs.Table

  What a graph holds, as a table from class and key to entity, and how the table follows the
  replies to calls.  A table shows neither files nor the order of entities, so that graphs of
  different kinds can be compared by their tables.  A graph that writes a document anew reads the
  other entities in it back later; this changes doubles at most, and no identity and no type.
-/
import PropertyGraph.Call
import PropertyGraph.Proofs.Entity.Reread

namespace PropertyGraph

variable {c : EntityClass}

/-! ## Entities read back any number of times -/

/-- An entity after it has been printed and read some times. -/
inductive Entity.Rereads (e : Entity c) : Entity c → Prop where
  | refl : Rereads e e
  | step {x : Entity c} : Rereads e x → Rereads e x.reread

namespace Entity.Rereads

variable {e x y : Entity c}

theorem trans (h : e.Rereads x) (h' : x.Rereads y) : e.Rereads y := by
  induction h' with
  | refl => exact h
  | step _ ih => exact .step ih

theorem type (h : e.Rereads x) : x.type = e.type := by
  induction h with
  | refl => rfl
  | step _ ih => exact ih

/-- An identity that is a text stays. -/
theorem id (h : e.Rereads x) {key : String} (hid : e.id = .ofString key) : x.id = .ofString key := by
  induction h with
  | refl => exact hid
  | @step x _ ih =>
    show x.id.reread = _
    rw [ih]
    rfl

/-- Where numbers are read back as they were everything stays. -/
theorem eq {p : Number → Prop} (hp : ∀ n, p n → n.reread = n) (h : e.Rereads x)
    (he : e.Proper p) : x = e := by
  induction h with
  | refl => rfl
  | step _ ih => rw [ih, he.reread_of_same hp]

/-- What stands for an entity after it has been read back is there. -/
theorem exists_of_rel {found : Option (Entity c)} (h : Option.Rel Rereads (some e) found) :
    ∃ x, found = some x ∧ e.Rereads x := by
  cases h with
  | some hrereads => exact ⟨_, rfl, hrereads⟩

/-- What was read back was there before. -/
theorem exists_of_rel_after {found : Option (Entity c)} (h : Option.Rel Rereads found (some x)) :
    ∃ e, found = some e ∧ e.Rereads x := by
  cases h with
  | some hrereads => exact ⟨_, rfl, hrereads⟩

end Entity.Rereads

/-! ## Tables -/

/-- What a graph holds: the entity under each key of each class, if there is one. -/
abbrev Table := (c : EntityClass) → String → Option (Entity c)

namespace Table

variable {t t' : Table} {key : String}

/-- An entry stands elsewhere than under a key, or just there. -/
theorem away_or_here (c' c : EntityClass) (key' key : String) :
    (c' = c → key' ≠ key) ∨ (c' = c ∧ key' = key) := by
  by_cases hplace : c' = c ∧ key' = key
  · exact .inr hplace
  · exact .inl fun hclass hkey => hplace ⟨hclass, hkey⟩

/-- After a change under a key of a class the other entries are as before, or have been read
    back. -/
def Spares (t t' : Table) (c : EntityClass) (key : String) : Prop :=
  ∀ c' key', (c' = c → key' ≠ key) → Option.Rel Entity.Rereads (t c' key') (t' c' key')

/-- An entity has been stored under a key: it stands there as it is read back, and the other entries
    are spared. -/
structure Puts (t t' : Table) (c : EntityClass) (key : String) (s : Entity c) : Prop where
  spares : t.Spares t' c key
  here : t' c key = some s.reread

/-- How a table follows a call by what was replied, `time` being the time of the call.  A call that
    fails leaves the table as it is. -/
inductive Follows (t : Table) (time : Int) :
    (call : Call) → Outcome call.Reply → Table → Prop where
  | failed {call : Call} (failure : Failure) : Follows t time call (.error failure) t
  | got (c : EntityClass) (key : String) : Follows t time (.get c (.ofString key)) (.ok (t c key)) t
  | searched {c : EntityClass} (s : Searcher) {found : List (Entity c)} :
    (∀ e ∈ found, ∃ key, e.id = .ofString key ∧ t c key = some e) →
    Follows t time (.search c s) (.ok found) t
  | listed (c : EntityClass) (types : List String) : Follows t time (.types c) (.ok types) t
  | created {c : EntityClass} {body : Body c} {key : String} {e e' : Entity c} {t' : Table} :
    e = body.create (.ofString key) (some time) → t c key = none → t.Spares t' c key →
    t' c key = some e' → e.Rereads e' → Follows t time (.create c body) (.ok e) t'
  | edited {c : EntityClass} {patch : Patch c} {key : String} {old e e' : Entity c} {t' : Table} :
    e = patch.apply old time → t c key = some old → t.Spares t' c key → t' c key = some e' →
    e.Rereads e' → Follows t time (.edit c (.ofString key) patch) (.ok e) t'
  | removed {c : EntityClass} {key : String} {old : Entity c} {t' : Table} :
    t c key = some old → t.Spares t' c key → t' c key = none →
    Follows t time (.remove c (.ofString key)) (.ok ()) t'

end Table

end PropertyGraph
