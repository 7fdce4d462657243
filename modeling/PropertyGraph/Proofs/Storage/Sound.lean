/-
  PropertyGraph.Proofs.Storage.Sound

  The invariant of a graph below a root, kept by every call whether it succeeds or fails.
  Each entity that can be read from the document of a type has that type, an identity that
  was given out, proper values and, if it is a node with a raw text, its text in the file of
  its own identity; no identity stands twice, in one document or in two.  Documents may have
  become unreadable and entries of the index stale: those are traces of calls that failed,
  or of bags that nest too deep.
-/
import PropertyGraph.Proofs.Storage.Changes
import PropertyGraph.Proofs.Storage.Entities

namespace PropertyGraph

open FileTree (Hosts Writable ChangesOnly DocumentName)
open Naming (checkType documentStem indexStem typeListStem jsonPath rawName rawLast)
open Catalog (Named)

variable {c : EntityClass} {g : Engine} {p : Number → Prop} {tree tree' : FileTree}
  {base : Place} {key type : String} {used used' : List String}

/-! ## Shelves of named entities -/

/-- All entities that can be read satisfy `P` of their type, and no identity stands twice. -/
structure Shelf.Good (P : String → Entity c → Prop) (s : Shelf c) : Prop where
  all : ∀ type entities, s.load type = .ok entities → ∀ e ∈ entities, P type e
  named : ∀ type entities, s.load type = .ok entities → Named entities
  apart : ∀ type type' entities entities', s.load type = .ok entities →
    s.load type' = .ok entities' → type ≠ type' →
    ∀ e ∈ entities, ∀ e' ∈ entities', e.id ≠ e'.id

/-- What is read from the document of a type is what was written, each entity as it is read
    back. -/
theorem Shelf.eq_of_load_put {s : Shelf c} {entities read : List (Entity c)}
    (hp : Number.Stable p) (hproper : ∀ e ∈ entities, e.Proper p)
    (hload : (s.put type entities).load type = .ok read) : read = entities.map Entity.reread := by
  rw [s.load_put_self (checkType_of_load hload)] at hload
  exact Document.eq_of_decode_entitiesText hp hproper hload

namespace Shelf.Good

variable {P Q : String → Entity c → Prop} {s : Shelf c} {entities : List (Entity c)}

theorem mono (h : s.Good P)
    (hPQ : ∀ type entities, s.load type = .ok entities → ∀ e ∈ entities, P type e → Q type e) :
    s.Good Q where
  all type entities hload e he := hPQ type entities hload e he (h.all type entities hload e he)
  named := h.named
  apart := h.apart

theorem record (h : s.Good P) (key type : String) : (s.record key type).Good P :=
  ⟨h.all, h.named, h.apart⟩

theorem setIndex (h : s.Good P) (index : Entries String) : (s.setIndex index).Good P :=
  ⟨h.all, h.named, h.apart⟩

/-- A document of other entities: what is read from it is what was written, each entity as it
    is read back. -/
theorem put (h : s.Good P) (hp : Number.Stable p)
    (hrest : ∀ type' entities', type' ≠ type → s.load type' = .ok entities' →
      ∀ e ∈ entities', P type' e → Q type' e)
    (hnew : ∀ e ∈ entities, e.Proper p ∧ Q type e.reread) (hnamed : Named entities)
    (hapart : ∀ type' entities', type' ≠ type → s.load type' = .ok entities' →
      ∀ e ∈ entities, ∀ e' ∈ entities', e.id ≠ e'.id) :
    (s.put type entities).Good Q := by
  have hids : ∀ e ∈ entities, e.reread.id = e.id := by
    intro e he
    obtain ⟨key, hkey⟩ := hnamed.texts e he
    show e.id.reread = e.id
    rw [hkey]
    rfl
  have hread : ∀ entities', (s.put type entities).load type = .ok entities' →
      entities' = entities.map Entity.reread := fun entities' hload =>
    eq_of_load_put hp (fun e he => (hnew e he).1) hload
  refine ⟨fun other entities' hload e he => ?_, fun other entities' hload => ?_,
    fun first second entities₁ entities₂ hload₁ hload₂ hne e₁ he₁ e₂ he₂ => ?_⟩
  -- each entity: one that was written, or one of another document
  · by_cases hother : other = type
    · subst hother
      rw [hread entities' hload] at he
      obtain ⟨written, hwritten, rfl⟩ := List.mem_map.1 he
      exact (hnew written hwritten).2
    · rw [s.load_put_of_ne hother] at hload
      exact hrest other entities' hother hload e he (h.all other entities' hload e he)
  -- each document: the identities of the new one are those that were written
  · by_cases hother : other = type
    · subst hother
      rw [hread entities' hload]
      have hmap : (entities.map Entity.reread).map Entity.id = entities.map Entity.id := by
        rw [List.map_map]
        exact List.map_congr_left hids
      refine ⟨fun e he => ?_, hmap ▸ hnamed.distinct⟩
      obtain ⟨written, hwritten, rfl⟩ := List.mem_map.1 he
      rw [hids written hwritten]
      exact hnamed.texts written hwritten
    · rw [s.load_put_of_ne hother] at hload
      exact h.named other entities' hload
  -- two documents, of which at most one is new
  · by_cases hfirst : first = type
    · subst hfirst
      have hsecond : second ≠ first := fun he => hne he.symm
      rw [s.load_put_of_ne hsecond] at hload₂
      rw [hread entities₁ hload₁] at he₁
      obtain ⟨written, hwritten, rfl⟩ := List.mem_map.1 he₁
      rw [hids written hwritten]
      exact hapart second entities₂ hsecond hload₂ written hwritten e₂ he₂
    · rw [s.load_put_of_ne hfirst] at hload₁
      by_cases hsecond : second = type
      · subst hsecond
        rw [hread entities₂ hload₂] at he₂
        obtain ⟨written, hwritten, rfl⟩ := List.mem_map.1 he₂
        rw [hids written hwritten]
        exact fun hid => hapart first entities₁ hfirst hload₁ written hwritten e₁ he₁ hid.symm
      · rw [s.load_put_of_ne hsecond] at hload₂
        exact h.apart first second entities₁ entities₂ hload₁ hload₂ hne e₁ he₁ e₂ he₂

/-- Adding an entity of a new identity to a document keeps what holds of a shelf. -/
theorem append (h : s.Good P) (hp : Number.Stable p) {e : Entity c}
    (hload : s.load type = .ok entities) (hid : e.id = .ofString key)
    (hfresh : ∀ type' entities', s.load type' = .ok entities' → ∀ x ∈ entities',
      x.id ≠ .ofString key)
    (hrest : ∀ type' entities', s.load type' = .ok entities' → ∀ x ∈ entities', P type' x →
      Q type' x ∧ x.Proper p ∧ Q type' x.reread)
    (hnew : e.Proper p ∧ Q type e.reread) : (s.put type (entities ++ [e])).Good Q := by
  refine h.put hp (fun type' entities' _ hload' x hx hP => (hrest type' entities' hload' x hx hP).1)
    (fun x hx => ?_) ((h.named type entities hload).append hid (hfresh type entities hload))
    (fun type' entities' hne hload' x hx x' hx' => ?_)
  · rcases List.mem_append.1 hx with hold | hlast
    · exact (hrest type entities hload x hold (h.all type entities hload x hold)).2
    · rw [List.mem_singleton.1 hlast]
      exact hnew
  · rcases List.mem_append.1 hx with hold | hlast
    · exact h.apart type type' entities entities' hload hload' hne.symm x hold x' hx'
    · rw [List.mem_singleton.1 hlast, hid]
      exact (hfresh type' entities' hload' x' hx').symm

end Shelf.Good

/-! ## Entities read back -/

theorem get?_rereadEntries (key : String) (entries : List (String × Json)) :
    Entries.get? key (Json.rereadEntries entries) = (Entries.get? key entries).map Json.reread := by
  induction entries with
  | nil => rfl
  | cons e rest ih =>
    obtain ⟨k, v⟩ := e
    by_cases hk : k = key
    · simp [Json.rereadEntries, Entries.get?, hk]
    · simp [Json.rereadEntries, Entries.get?, hk, ih]

theorem rereadBag_eq {bag : Bag} (h : (Entries.keys bag).Nodup) :
    Json.rereadBag bag = Json.rereadEntries bag := by
  rw [Json.rereadBag, Entries.collapse_of_nodup]
  rw [Json.keys_rereadEntries]
  exact h

/-- The bag of an entity that is read back has the same keys, and the values are read back. -/
theorem Entity.get?_reread {e : Entity c} (h : (Entries.keys e.properties).Nodup) (key : String) :
    Entries.get? key e.reread.properties = (Entries.get? key e.properties).map Json.reread := by
  rw [← get?_rereadEntries, ← rereadBag_eq h]
  rfl

namespace Engine

/-- An entity that is read back is kept as it was. -/
theorem Kept.reread {e : Entity c} (hp : Number.Stable p) (h : g.Kept p tree base key type e) :
    g.Kept p tree base key type e.reread where
  type := h.type
  id := by
    show e.id.reread = _
    rw [h.id]
    rfl
  proper := Entity.proper_reread hp.reread h.proper
  keeps := by
    have hkeeps := h.keeps
    have hnodup := h.proper.properties.1
    cases c with
    | relationship => exact keeps_relationship
    | node =>
      have hget := Entity.get?_reread hnodup RawText.fileKey
      rw [keeps_node] at hkeeps ⊢
      cases hkeeps with
      | unruled hrules => exact .unruled hrules
      | inline hfile => exact .inline (by rw [hget, hfile]; rfl)
      | apart text hproperty hrules hfile hraw =>
        exact .apart text hproperty hrules (by rw [hget, hfile]; rfl) hraw

/-! ## The invariant -/

/-- An entity stands in the document of a type under an identity that was given out. -/
def Holds (g : Engine) (p : Number → Prop) (used : List String) (tree : FileTree) (base : Place)
    (type : String) (e : Entity c) : Prop :=
  ∃ unique ∈ used, g.Kept p tree base (g.keyOf unique) type e

/-- The invariant, `used` being the unique texts that identities were made from. -/
structure Sound (g : Engine) (p : Number → Prop) (used : List String) (tree : FileTree)
    (base : Place) : Prop where
  hosts : tree.Hosts g.root base
  ready : ∀ c, (tree.shelf g.root c).Ready g.root
  good : ∀ c, (tree.shelf g.root c).Good (g.Holds p used tree base)
  /-- only raw texts need unique texts without slashes -/
  slashless : g.rules ≠ [] → ∀ unique ∈ used, '/' ∉ unique.toList

theorem keyOf_inj {first second : String} (h : g.keyOf first = g.keyOf second) : first = second := by
  rw [keyOf, keyOf] at h
  exact (String.append_right_inj _).1 h

/-- What a call about one entity leaves of the others of its class: they are kept as before. -/
theorem Kept.of_touched {e : Entity c} {unique other : String}
    (h : g.Kept p tree base (g.keyOf other) type e)
    (hchange : tree.ChangesOnly tree' (Touched c (g.keyOf unique))) (hne : other ≠ unique)
    (hslash : g.rules ≠ [] → '/' ∉ unique.toList ∧ '/' ∉ other.toList) :
    g.Kept p tree' base (g.keyOf other) type e := by
  refine ⟨h.type, h.id, h.proper, ?_⟩
  have hkeeps := h.keeps
  cases c with
  | relationship => exact keeps_relationship
  | node =>
    rw [keeps_node] at hkeeps ⊢
    cases hkeeps with
    | unruled hrules => exact .unruled hrules
    | inline hfile => exact .inline hfile
    | apart text hproperty hrules hfile hraw =>
      have hslashes := hslash fun hnil => hrules (rulesFor_of_rules hnil e.type)
      refine .apart text hproperty hrules hfile (hraw.of_changesOnly hchange ?_)
      -- the call may have touched documents, and the raw text of its own identity
      rintro (hname | ⟨-, hname⟩)
      · have hraw : ¬ RawTouched .node (g.keyOf other) (rawLast (g.keyOf other)) :=
          not_rawTouched_of_documentName hname
        exact hraw ⟨rfl, .inr rfl⟩
      · refine Naming.not_rawTouches_rawLast (fun he => hne ?_) hname
        exact Naming.rawLast_inj hslashes.2 hslashes.1 he

/-- A call about an entity of one class leaves those of the other class as they are kept. -/
theorem Kept.of_other_class {c' : EntityClass} {e : Entity c'} {other : String}
    (h : g.Kept p tree base other type e) (hclass : c' ≠ c)
    (hchange : tree.ChangesOnly tree' (Touched c key)) :
    g.Kept p tree' base other type e := by
  refine h.of_changesOnly hchange fun hnode => ?_
  rintro (hname | ⟨hnode', -⟩)
  · exact not_documentName_rawLast _ hname
  · exact hclass (hnode.trans hnode'.symm)

/-- After a call about one entity the others of its class stand as before. -/
theorem Holds.of_touched {e : Entity c} {unique : String} (h : g.Holds p used tree base type e)
    (hne : e.id ≠ .ofString (g.keyOf unique))
    (hchange : tree.ChangesOnly tree' (Touched c (g.keyOf unique)))
    (hsub : ∀ other ∈ used, other ∈ used') (hmem : unique ∈ used')
    (hslash : g.rules ≠ [] → ∀ other ∈ used', '/' ∉ other.toList) :
    g.Holds p used' tree' base type e := by
  obtain ⟨other, hother, hkept⟩ := h
  refine ⟨other, hsub other hother, hkept.of_touched hchange (fun he => hne ?_) fun hrules => ?_⟩
  · rw [hkept.id, he]
  · exact ⟨hslash hrules unique hmem, hslash hrules other (hsub other hother)⟩

/-- What stands in a document is proper, and stands there as well when it is read back. -/
theorem Holds.reread {e : Entity c} (h : g.Holds p used tree base type e) (hp : Number.Stable p) :
    e.Proper p ∧ g.Holds p used tree base type e.reread := by
  obtain ⟨unique, hmem, hkept⟩ := h
  exact ⟨hkept.proper, unique, hmem, hkept.reread hp⟩

namespace Sound

theorem finds (h : g.Sound p used tree base) (c : EntityClass) : g.FindsKept p tree base c := by
  intro id key type index entities kept hlocated
  obtain ⟨unique, -, hkept⟩ := (h.good c).all type entities hlocated.loaded kept hlocated.mem
  have hsame := hlocated.same
  rw [hlocated.id_eq, hkept.id, Catalog.same_ofString] at hsame
  exact hsame ▸ hkept

/-- All entities that can be read are proper. -/
theorem proper (h : g.Sound p used tree base) {entities : List (Entity c)}
    (hload : (tree.shelf g.root c).load type = .ok entities) : ∀ e ∈ entities, e.Proper p := by
  intro e he
  obtain ⟨unique, -, hkept⟩ := (h.good c).all type entities hload e he
  exact hkept.proper

theorem proper_append (h : g.Sound p used tree base) {entities : List (Entity c)}
    (hload : (tree.shelf g.root c).load type = .ok entities) {s : Entity c} (hs : s.Proper p) :
    ∀ e ∈ entities ++ [s], e.Proper p := by
  intro e he
  rcases List.mem_append.1 he with hold | hlast
  · exact h.proper hload e hold
  · rw [List.mem_singleton.1 hlast]
    exact hs

theorem proper_replaceFirst (h : g.Sound p used tree base) {entities : List (Entity c)}
    (hload : (tree.shelf g.root c).load type = .ok entities) {s : Entity c} (hs : s.Proper p) :
    ∀ e ∈ Catalog.replaceFirst s entities, e.Proper p := by
  intro e he
  rcases Catalog.mem_of_mem_replaceFirst he with hnew | hold
  · exact hnew ▸ hs
  · exact h.proper hload e hold

/-- The key of an entity that was found was made from a unique text that was used. -/
theorem key_of_located (h : g.Sound p used tree base) {id : Id} {index : Entries String}
    {entities : List (Entity c)} {kept : Entity c}
    (hlocated : (tree.shelf g.root c).Located id key type index entities kept) :
    ∃ unique ∈ used, key = g.keyOf unique := by
  obtain ⟨unique, hmem, hkept⟩ := (h.good c).all type entities hlocated.loaded kept hlocated.mem
  have hid := (h.finds c _ _ _ _ _ _ hlocated).id
  exact ⟨unique, hmem, Catalog.ofString_inj (hid.symm.trans hkept.id)⟩

/-- After a call about an entity the invariant holds if it holds of the shelf of its class. -/
theorem becomes (h : g.Sound p used tree base) {s : Shelf c}
    (hbecomes : tree.Becomes tree' g.root base key s)
    (hsub : ∀ unique ∈ used, unique ∈ used')
    (hslash : g.rules ≠ [] → ∀ unique ∈ used', '/' ∉ unique.toList)
    (hready : s.Ready g.root) (hgood : s.Good (g.Holds p used' tree' base)) :
    g.Sound p used' tree' base where
  hosts := hbecomes.hosts
  ready c' := by
    by_cases hclass : c' = c
    · subst hclass
      rw [hbecomes.here]
      exact hready
    · rw [hbecomes.other c' hclass]
      exact h.ready c'
  good c' := by
    by_cases hclass : c' = c
    · subst hclass
      rw [hbecomes.here]
      exact hgood
    · rw [hbecomes.other c' hclass]
      refine (h.good c').mono fun type entities _ e _ hholds => ?_
      obtain ⟨unique, hmem, hkept⟩ := hholds
      exact ⟨unique, hsub unique hmem, hkept.of_other_class hclass hbecomes.change⟩
  slashless := hslash

end Sound

end Engine

end PropertyGraph
