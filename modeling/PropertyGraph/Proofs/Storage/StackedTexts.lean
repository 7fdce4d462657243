/-
  PropertyGraph.Proofs.Storage.StackedTexts

  Several raw-text rules for one type.  All of them move their texts to the one file of the node and
  leave its name under the one key of file names, so the file holds the text that was moved last, and
  the bag as stored has one entry for all of them, at the place of the first.  On reading, the first
  rule takes this entry for its own and leaves nothing for the others.  So a node is read as it was
  created exactly when its bag has no property of a later rule.
-/
import PropertyGraph.Proofs.Storage.Lookup
import PropertyGraph.Proofs.Storage.RawFiles

namespace PropertyGraph

open FileTree (Hosts ChangesOnly DocumentName)
open Naming (rawName rawPath rawLast)

namespace RawText

variable {moved other : String → Bool} {key key' : String} {value value' : Json} {bag : Bag}

/-! ## Entries gathered under one key -/

/-- A bag with one entry for all that stand under some keys, at the place of the first of them. -/
def gather (moved : String → Bool) (key : String) (value : Json) : Bag → Bag
  | [] => []
  | (k, v) :: rest =>
    if moved k then (key, value) :: rest.filter fun e => !moved e.1
    else (k, v) :: gather moved key value rest

/-- Only the keys of the bag matter. -/
theorem gather_congr (h : ∀ e ∈ bag, moved e.1 = other e.1) :
    gather moved key value bag = gather other key value bag := by
  induction bag with
  | nil => rfl
  | cons e rest ih =>
    obtain ⟨k, v⟩ := e
    obtain ⟨hk, hrest⟩ := List.forall_mem_cons.1 h
    rw [gather, gather, hk, ih hrest]
    have hfilter : (rest.filter fun e => !moved e.1) = rest.filter fun e => !other e.1 :=
      List.filter_congr fun e he => by rw [hrest e he]
    rw [hfilter]

/-- A bag without any of the keys is left as it is. -/
theorem gather_of_none (h : ∀ e ∈ bag, moved e.1 = false) : gather moved key value bag = bag := by
  induction bag with
  | nil => rfl
  | cons e rest ih =>
    obtain ⟨k, v⟩ := e
    obtain ⟨hk, hrest⟩ := List.forall_mem_cons.1 h
    rw [gather, hk, ih hrest]
    rfl

/-- What remains when the one entry is taken out. -/
theorem filter_gather (hkey : other key = true) (bag : Bag) :
    (gather moved key value bag).filter (fun e => !other e.1)
      = bag.filter fun e => !(moved e.1 || other e.1) := by
  induction bag with
  | nil => rfl
  | cons e rest ih =>
    obtain ⟨k, v⟩ := e
    rw [gather]
    by_cases hk : moved k = true
    · simp [hk, hkey, List.filter_filter, Bool.and_comm]
    · simp only [Bool.not_eq_true] at hk
      rw [hk]
      simp only [Bool.false_eq_true, if_false, List.filter_cons, ih, hk, Bool.false_or]

/-- Entries that are gathered in two steps are gathered in one. -/
theorem gather_gather (hkey : other key = true) (bag : Bag) :
    gather other key' value' (gather moved key value bag)
      = gather (fun k => moved k || other k) key' value' bag := by
  induction bag with
  | nil => rfl
  | cons e rest ih =>
    obtain ⟨k, v⟩ := e
    rw [gather, gather]
    by_cases hk : moved k = true
    · simp [hk, gather, hkey, List.filter_filter, Bool.and_comm]
    · simp only [Bool.not_eq_true] at hk
      rw [hk]
      simp only [Bool.false_eq_true, if_false, Bool.false_or]
      rw [gather]
      by_cases hother : other k = true
      · rw [if_pos hother, if_pos hother, filter_gather hkey]
      · rw [if_neg hother, if_neg hother, ih]

theorem mem_gather {e : String × Json} (h : e ∈ gather moved key value bag) :
    e = (key, value) ∨ e ∈ bag ∧ moved e.1 = false := by
  induction bag with
  | nil => cases h
  | cons entry rest ih =>
    obtain ⟨k, v⟩ := entry
    rw [gather] at h
    split at h
    · rcases List.mem_cons.1 h with rfl | hrest
      · exact .inl rfl
      · obtain ⟨hmem, hkept⟩ := List.mem_filter.1 hrest
        exact .inr ⟨List.mem_cons_of_mem _ hmem, by simpa using hkept⟩
    · next hk =>
      rcases List.mem_cons.1 h with rfl | hrest
      · exact .inr ⟨List.mem_cons_self .., by simpa using hk⟩
      · exact (ih hrest).imp_right fun ⟨hmem, hkept⟩ => ⟨List.mem_cons_of_mem _ hmem, hkept⟩

/-- The keys stay distinct, if the new one is none of those that stay. -/
theorem nodup_keys_gather (moved : String → Bool) (value : Json)
    (hnodup : (Entries.keys bag).Nodup) (hkey : ∀ e ∈ bag, moved e.1 = false → e.1 ≠ key) :
    (Entries.keys (gather moved key value bag)).Nodup := by
  induction bag with
  | nil => exact List.nodup_nil
  | cons e rest ih =>
    obtain ⟨k, v⟩ := e
    obtain ⟨hfirst, hrest⟩ := List.nodup_cons.1 (show (k :: Entries.keys rest).Nodup from hnodup)
    obtain ⟨hk, hkeys⟩ := List.forall_mem_cons.1 hkey
    rw [gather]
    split
    · refine List.nodup_cons.2 ⟨fun hmem => ?_, ?_⟩
      · obtain ⟨entry, hentry, heq⟩ := List.mem_map.1 hmem
        obtain ⟨hin, hkept⟩ := List.mem_filter.1 hentry
        exact hkeys entry hin (by simpa using hkept) heq
      · exact hrest.sublist ((List.filter_sublist (p := _)).map Prod.fst)
    · next hmoved =>
      refine List.nodup_cons.2 ⟨fun hmem => ?_, ih hrest hkeys⟩
      obtain ⟨entry, hentry, heq⟩ := List.mem_map.1 hmem
      rcases mem_gather hentry with rfl | ⟨hin, -⟩
      · exact hk (by simpa using hmoved) heq.symm
      · exact hfirst (List.mem_map.2 ⟨entry, hin, heq⟩)

/-- What stands under a gathered key is the one entry. -/
theorem get?_gather_key (hnodup : (Entries.keys bag).Nodup)
    (hkey : ∀ e ∈ bag, moved e.1 = false → e.1 ≠ key) (hsome : ∃ e ∈ bag, moved e.1 = true) :
    Entries.get? key (gather moved key value bag) = some value := by
  refine Entries.get?_of_mem (nodup_keys_gather _ _ hnodup hkey) ?_
  obtain ⟨e, he, hmoved⟩ := hsome
  clear hnodup hkey
  induction bag with
  | nil => cases he
  | cons entry rest ih =>
    obtain ⟨k, v⟩ := entry
    rw [gather]
    split
    · exact List.mem_cons_self ..
    · next hk =>
      rcases List.mem_cons.1 he with rfl | hrest
      · exact absurd hmoved hk
      · exact List.mem_cons_of_mem _ (ih hrest)

/-- A key that stays gives what it has given. -/
theorem get?_gather_of_kept {kept : String} (hkept : moved kept = false) (hne : kept ≠ key) :
    Entries.get? kept (gather moved key value bag) = Entries.get? kept bag := by
  -- Behind the first key that moves, gathering is a filter, and it drops only keys that move.
  have hfilter : ∀ rest : Bag, Entries.get? kept (rest.filter fun e => !moved e.1)
      = Entries.get? kept rest := by
    intro rest
    induction rest with
    | nil => rfl
    | cons e rest ih =>
      obtain ⟨k, v⟩ := e
      by_cases hk : k = kept
      · subst hk
        simp [hkept, Entries.get?]
      · by_cases hmoved : moved k = true
        · simpa [List.filter_cons, hmoved, Entries.get?, hk] using ih
        · simpa [List.filter_cons, hmoved, Entries.get?, hk] using ih
  induction bag with
  | nil => rfl
  | cons e rest ih =>
    obtain ⟨k, v⟩ := e
    rw [gather]
    split
    · next hk =>
      have hother : k ≠ kept := by
        rintro rfl
        rw [hk] at hkept
        cases hkept
      rw [Entries.get?, if_neg hne.symm, hfilter, Entries.get?, if_neg hother]
    · rw [Entries.get?, Entries.get?, ih]

/-- An entry that is gathered under its own key and value is where it was. -/
theorem gather_self (hnodup : (Entries.keys bag).Nodup) (hget : Entries.get? key bag = some value) :
    gather (· == key) key value bag = bag := by
  induction bag with
  | nil => rfl
  | cons e rest ih =>
    obtain ⟨k, v⟩ := e
    obtain ⟨hfirst, hrest⟩ := List.nodup_cons.1 (show (k :: Entries.keys rest).Nodup from hnodup)
    rw [gather]
    by_cases hk : k = key
    · subst hk
      obtain rfl : v = value := by simpa [Entries.get?] using hget
      have hall : (rest.filter fun e => !(e.1 == k)) = rest := by
        refine List.filter_eq_self.2 fun e he => ?_
        have hne : e.1 ≠ k := fun heq => hfirst (List.mem_map.2 ⟨e, he, heq⟩)
        simpa using hne
      rw [if_pos (beq_self_eq_true k), hall]
    · have hbeq : ¬ (k == key) = true := by simpa using hk
      rw [if_neg hbeq, ih hrest (by simpa [Entries.get?, hk] using hget)]

/-! ### Renaming as gathering -/

section Renaming

variable {source target : String} {acc : Bag}

theorem insertAll_cons (acc : Bag) (e : String × Json) (rest : Bag) :
    Entries.insertAll acc (e :: rest) = Entries.insertAll (Entries.insert e.1 e.2 acc) rest := rfl

theorem renamed_of_moved {e : String × Json} (h : (e.1 == source || e.1 == target) = true)
    (hvalue : e.1 = target → e.2 = value) : renamed source target value e = (target, value) := by
  by_cases hsource : e.1 = source
  · exact renamed_of_eq hsource
  · have htarget : e.1 = target := by simpa [hsource] using h
    rw [renamed_of_ne hsource]
    exact Prod.ext htarget (hvalue htarget)

/-- Once the new entry is there, renaming adds only what stands under neither key. -/
theorem insertAll_renamed_of_mem (hmem : (target, value) ∈ acc)
    (hnodup : (Entries.keys (acc ++ bag.filter fun e => !(e.1 == source || e.1 == target))).Nodup)
    (hvalue : ∀ e ∈ bag, e.1 = target → e.2 = value) :
    Entries.insertAll acc (bag.map (renamed source target value))
      = acc ++ bag.filter fun e => !(e.1 == source || e.1 == target) := by
  induction bag generalizing acc with
  | nil => simp [Entries.insertAll]
  | cons e rest ih =>
    obtain ⟨k, v⟩ := e
    obtain ⟨hfirst, hrest⟩ := List.forall_mem_cons.1 hvalue
    rw [List.map_cons, insertAll_cons]
    -- An entry under one of the two keys comes to the entry that is there already; any other one
    -- is new, since its key has not occurred.
    by_cases hk : (k == source || k == target) = true
    · have hrenamed : renamed source target value (k, v) = (target, value) :=
        renamed_of_moved hk hfirst
      have hacc : (Entries.keys acc).Nodup := by
        rw [Entries.keys, List.map_append] at hnodup
        exact (List.nodup_append.1 hnodup).1
      rw [hrenamed, Entries.insert_of_get? (Entries.get?_of_mem hacc hmem)]
      have hdropped : ¬ (!(k == source || k == target)) = true := by simp [hk]
      rw [List.filter_cons, if_neg hdropped] at hnodup ⊢
      exact ih hmem hnodup hrest
    · have hsource : k ≠ source := fun heq => hk (by simp [heq])
      rw [renamed_of_ne (e := (k, v)) hsource]
      have hstays : (!(k == source || k == target)) = true := by simpa using hk
      rw [List.filter_cons, if_pos hstays] at hnodup ⊢
      rw [Entries.insert_of_not_mem (Entries.not_mem_keys_of_nodup hnodup),
        ih (List.mem_append_left _ hmem) (by simpa using hnodup) hrest, List.append_assoc,
        List.singleton_append]

/-- The keys stay distinct when the new entry comes for one of those that are renamed. -/
theorem nodup_keys_target {e : String × Json} (hnodup : (Entries.keys (acc ++ e :: bag)).Nodup)
    (hacc : target ∉ Entries.keys acc) :
    (Entries.keys (acc ++ [(target, value)]
      ++ bag.filter fun e => !(e.1 == source || e.1 == target))).Nodup := by
  have hsublist : List.Sublist (acc ++ bag.filter fun e => !(e.1 == source || e.1 == target))
      (acc ++ e :: bag) :=
    (List.Sublist.refl acc).append (List.filter_sublist.cons e)
  have htarget : target ∉ Entries.keys (bag.filter fun e => !(e.1 == source || e.1 == target)) := by
    intro hin
    obtain ⟨entry, hentry, heq⟩ := List.mem_map.1 hin
    simpa [heq] using (List.mem_filter.1 hentry).2
  have hkept := hnodup.sublist (hsublist.map Prod.fst)
  rw [Entries.keys, List.append_assoc, List.singleton_append, List.map_append, List.map_cons,
    List.nodup_middle, ← List.map_append]
  refine List.nodup_cons.2 ⟨fun hin => ?_, hkept⟩
  rw [List.map_append] at hin
  exact (List.mem_append.1 hin).elim hacc htarget

/-- Renaming one by one gathers what stands under either key. -/
theorem insertAll_renamed (hnodup : (Entries.keys (acc ++ bag)).Nodup)
    (hacc : target ∉ Entries.keys acc) (hvalue : ∀ e ∈ bag, e.1 = target → e.2 = value) :
    Entries.insertAll acc (bag.map (renamed source target value))
      = acc ++ gather (fun k => k == source || k == target) target value bag := by
  induction bag generalizing acc with
  | nil => simp [Entries.insertAll, gather]
  | cons e rest ih =>
    obtain ⟨k, v⟩ := e
    obtain ⟨hfirst, hrest⟩ := List.forall_mem_cons.1 hvalue
    rw [List.map_cons, insertAll_cons, gather]
    by_cases hk : (k == source || k == target) = true
    · rw [if_pos hk, renamed_of_moved hk hfirst, Entries.insert_of_not_mem hacc,
        insertAll_renamed_of_mem (by simp) (nodup_keys_target hnodup hacc) hrest,
        List.append_assoc, List.singleton_append]
    · have hsource : k ≠ source := fun heq => hk (by simp [heq])
      have htarget : k ≠ target := fun heq => hk (by simp [heq])
      have hacc' : target ∉ Entries.keys (acc ++ [(k, v)]) := by
        simpa [Entries.keys, htarget.symm] using hacc
      rw [if_neg hk, renamed_of_ne hsource,
        Entries.insert_of_not_mem (Entries.not_mem_keys_of_nodup hnodup),
        ih (by simpa using hnodup) hacc' hrest, List.append_assoc, List.singleton_append]

/-- A key that is replaced by another one, which stands nowhere with another value: what stood under
    either is gathered under the new one. -/
theorem renameEntry_eq_gather (hnodup : (Entries.keys bag).Nodup)
    (hvalue : ∀ e ∈ bag, e.1 = target → e.2 = value) :
    renameEntry source target value bag
      = gather (fun k => k == source || k == target) target value bag := by
  show Entries.insertAll [] (bag.map (renamed source target value)) = [] ++ _
  exact insertAll_renamed hnodup List.not_mem_nil hvalue

end Renaming

/-! ## Moving several texts out -/

/-- The text that the rules find last in a bag. -/
def lastText : List RawText → Bag → Option String
  | [], _ => none
  | rule :: rest, bag =>
    (lastText rest bag).or ((Entries.get? rule.property bag).bind Json.string?)

/-- Whether a key is the property of a rule. -/
def isProperty (rules : List RawText) (key : String) : Bool :=
  rules.any fun rule => rule.property == key

/-- The properties of rules hold texts, as far as they are there. -/
def HoldTexts (rules : List RawText) (bag : Bag) : Prop :=
  ∀ rule ∈ rules, ∀ value, Entries.get? rule.property bag = some value →
    ∃ text, value = .string text

variable {tree tree' : FileTree} {root id : String} {base : Place} {rule : RawText}
  {rules : List RawText} {node s : Node}

/-- A text that has been written stands in the file of its identity. -/
theorem hasRaw_of_write {tree₁ : FileTree} {text : String} (h : tree.Hosts root base)
    (hmake : (FileTask.makeDirectories (Naming.rawDirectory root)).exec tree = (.ok (), tree₁))
    (hwrite : (FileTask.write (rawPath root (rawName id)) text).exec tree₁ = (.ok (), tree')) :
    tree.ChangesOnly tree' (Naming.RawTouches id) ∧ tree'.HasRaw root base id text := by
  obtain ⟨made, tree₂, hmade, -, hchange, hthere, -⟩ := exec_makeRaw h
  obtain ⟨rfl, rfl⟩ := Prod.mk.inj (hmake.symm.trans hmade)
  obtain ⟨tree₃, hwritten, hchange', hraw⟩ | ⟨hrefused, -⟩ := exec_writeRaw (hthere rfl) id text
  · obtain ⟨-, rfl⟩ := Prod.mk.inj (hwrite.symm.trans hwritten)
    exact ⟨(hchange.mono fun _ => .inl).trans (hchange'.mono fun _ => .inr), hraw⟩
  · rw [hrefused] at hwrite
    cases hwrite

/-- What a rule does to a bag in which other texts have been gathered: its own text joins them. -/
theorem properties_movedOut (hnodup : (Entries.keys bag).Nodup) (hfile : Entries.get? fileKey bag = none)
    (hnode : node.properties = gather moved fileKey (.string (rawName id)) bag) :
    (rule.movedOut id node).properties
      = gather (fun k => moved k || k == rule.property) fileKey (.string (rawName id)) bag := by
  have hfree : ∀ e ∈ bag, e.1 ≠ fileKey := fun _ => Entries.ne_of_get?_eq_none hfile
  have hkeys := nodup_keys_gather moved (.string (rawName id)) hnodup
    fun e he _ => hfree e he
  have hvalue : ∀ e ∈ gather moved fileKey (.string (rawName id)) bag, e.1 = fileKey →
      e.2 = .string (rawName id) := by
    intro e he hkey
    rcases mem_gather he with rfl | ⟨hin, -⟩
    · rfl
    · exact absurd hkey (hfree e hin)
  show renameEntry rule.property fileKey _ node.properties = _
  rw [hnode, renameEntry_eq_gather hkeys hvalue, gather_gather (by simp)]
  refine gather_congr fun e he => ?_
  have hne : (e.1 == fileKey) = false := by simpa using hfree e he
  simp [hne]

/-- One rule moves its text out, when others have been moved: the text joins them and stands in the
    file, or there is none and nothing happens. -/
theorem exec_split_texts (hnodup : (Entries.keys bag).Nodup)
    (hfile : Entries.get? fileKey bag = none)
    (hown : ∀ value, Entries.get? rule.property bag = some value → ∃ text, value = .string text)
    (hne : rule.property ≠ fileKey) (hnew : moved rule.property = false)
    (hid : node.id.requireText = .ok id)
    (hnode : node.properties = gather moved fileKey (.string (rawName id)) bag)
    (hsplit : (split rule root node).exec tree = (.ok s, tree')) :
    s = withBag node (gather (fun k => moved k || k == rule.property) fileKey
        (.string (rawName id)) bag)
      ∧ (∀ base, tree.Hosts root base → tree'.Hosts root base
        ∧ ∀ text, (Entries.get? rule.property bag).bind Json.string? = some text →
          tree'.HasRaw root base id text)
      ∧ ((Entries.get? rule.property bag).bind Json.string? = none → tree' = tree) := by
  have hget : Entries.get? rule.property node.properties = Entries.get? rule.property bag := by
    rw [hnode, get?_gather_of_kept hnew hne]
  rw [← hget]
  -- the entry of the rule is still there, since no other rule has moved it
  rcases split_cases hid hsplit with ⟨hnone, rfl, rfl⟩ | ⟨text, tree₁, htext, rfl, hmake, hwrite⟩
  · have hvalue : Entries.get? rule.property bag = none := by
      refine Option.eq_none_iff_forall_ne_some.2 fun value hvalue => ?_
      obtain ⟨text, rfl⟩ := hown value hvalue
      rw [textAt_eq_some_iff.2 (hget.trans hvalue)] at hnone
      cases hnone
    have hsame : gather (fun k => moved k || k == rule.property) fileKey (.string (rawName id)) bag
        = gather moved fileKey (.string (rawName id)) bag :=
      gather_congr fun e he => by simp [Entries.ne_of_get?_eq_none hvalue he]
    refine ⟨?_, fun base hhosts => ⟨hhosts, fun text htext => ?_⟩, fun _ => rfl⟩
    · rw [hsame, ← hnode]
      rfl
    · exact absurd (hnone.symm.trans htext) nofun
  · refine ⟨congrArg (withBag node) (properties_movedOut hnodup hfile hnode),
      fun base hhosts => ?_, fun hnone => absurd (htext.symm.trans hnone) nofun⟩
    obtain ⟨hchange, hwritten⟩ := hasRaw_of_write hhosts hmake hwrite
    refine ⟨hhosts.of_changesOnly hchange fun _ _ ht => Naming.not_rawTouches ht id,
      fun own hown => ?_⟩
    obtain rfl : text = own := Option.some.inj (htext.symm.trans hown)
    exact hwritten

/-- Moving all texts out, when some have been moved already: the bag has one entry for all of them,
    the file holds the text that was found last, and without a text nothing happens. -/
theorem exec_splitAll_texts (hnodup : (Entries.keys bag).Nodup)
    (hfile : Entries.get? fileKey bag = none) (htexts : HoldTexts rules bag)
    (hdistinct : (rules.map property).Nodup)
    (hfresh : ∀ rule ∈ rules, rule.property ≠ fileKey ∧ moved rule.property = false)
    (hid : node.id.requireText = .ok id)
    (hnode : node.properties = gather moved fileKey (.string (rawName id)) bag)
    (hsplit : (rules.foldlM (fun e rule => split rule root e) node : FileTask Node).exec tree
      = (.ok s, tree')) :
    s = withBag node (gather (fun k => moved k || isProperty rules k) fileKey
        (.string (rawName id)) bag)
      ∧ (∀ base, tree.Hosts root base → ∀ text, lastText rules bag = some text →
        tree'.HasRaw root base id text)
      ∧ (lastText rules bag = none → tree' = tree) := by
  -- rule by rule; `moved` says what the rules before have moved
  induction rules generalizing moved node tree with
  | nil =>
    obtain ⟨hs, rfl⟩ := Prod.mk.inj hsplit
    obtain rfl := Except.ok.inj hs
    refine ⟨?_, fun _ _ => nofun, fun _ => rfl⟩
    simp only [isProperty, List.any_nil, Bool.or_false, ← hnode]
    rfl
  | cons rule rest ih =>
    obtain ⟨hrule, hrest⟩ := List.nodup_cons.1 (show (rule.property :: rest.map property).Nodup
      from hdistinct)
    obtain ⟨⟨hne, hnew⟩, hothers⟩ := List.forall_mem_cons.1 hfresh
    obtain ⟨hown, hrestTexts⟩ := List.forall_mem_cons.1 htexts
    rw [List.foldlM_cons] at hsplit
    obtain ⟨a, tree₁, hfirst, hothersSplit⟩ := FileTask.exec_bind_eq_ok hsplit
    obtain ⟨rfl, hwritten, hkept⟩ :=
      exec_split_texts hnodup hfile hown hne hnew hid hnode hfirst
    have hothers' : ∀ other ∈ rest, other.property ≠ fileKey
        ∧ (moved other.property || other.property == rule.property) = false := by
      intro other hother
      obtain ⟨hfile', hnew'⟩ := hothers other hother
      refine ⟨hfile', ?_⟩
      rw [hnew', Bool.false_or]
      exact beq_false_of_ne fun heq => hrule (heq ▸ List.mem_map_of_mem hother)
    have hid' (moved : Bag) : (withBag node moved).id.requireText = .ok id := hid
    obtain ⟨rfl, hraw, hnothing⟩ := ih hrestTexts hrest hothers' (hid' _) rfl hothersSplit
    refine ⟨congrArg (withBag node) (gather_congr fun e _ => ?_), fun base hhosts last hsome => ?_,
      fun hnone => ?_⟩
    · have hcomm : (e.1 == rule.property) = (rule.property == e.1) := BEq.comm
      rw [hcomm, Bool.or_assoc]
      rfl
    · obtain ⟨hhosts', hfound⟩ := hwritten base hhosts
      rw [lastText] at hsome
      cases hlater : lastText rest bag with
      | some later =>
        rw [hlater] at hsome
        exact hraw base hhosts' last (hlater.trans hsome)
      | none =>
        rw [hlater, Option.none_or] at hsome
        rw [hnothing hlater]
        exact hfound last hsome
    · obtain ⟨hlater, hfirstNone⟩ := Option.or_eq_none_iff.1 hnone
      rw [hnothing hlater, hkept hfirstNone]

/-! ## Giving the texts back -/

/-- The bag that is read of a node, by the bag that it was created with: one entry under the property
    of the first rule, at the place of the first text and with the last, for all texts that have been
    moved out. -/
def restored (rules : List RawText) (bag : Bag) : Bag :=
  match rules, lastText rules bag with
  | first :: _, some text => gather (isProperty rules) first.property (.string text) bag
  | _, _ => bag

theorem restored_of_none (h : lastText rules bag = none) : restored rules bag = bag := by
  cases rules with
  | nil => rfl
  | cons first rest => simp only [restored, h]

theorem restored_cons {first : RawText} {rest : List RawText} {text : String}
    (h : lastText (first :: rest) bag = some text) :
    restored (first :: rest) bag
      = gather (isProperty (first :: rest)) first.property (.string text) bag := by
  simp only [restored, h]

theorem isProperty_iff {key : String} :
    isProperty rules key = true ↔ ∃ rule ∈ rules, rule.property = key := by
  simp [isProperty]

/-- Without a last text the bag has no property of a rule. -/
theorem HoldTexts.lastText_eq_none_iff (h : HoldTexts rules bag) :
    lastText rules bag = none ↔ ∀ rule ∈ rules, Entries.get? rule.property bag = none := by
  induction rules with
  | nil => simp [lastText]
  | cons rule rest ih =>
    obtain ⟨hown, hrest⟩ := List.forall_mem_cons.1 h
    rw [lastText, Option.or_eq_none_iff, ih hrest, List.forall_mem_cons, and_comm]
    refine and_congr_left fun _ => ?_
    cases hvalue : Entries.get? rule.property bag with
    | none => simp
    | some value =>
      obtain ⟨text, rfl⟩ := hown value hvalue
      simp [Json.string?]

theorem HoldTexts.isProperty_of_none (h : HoldTexts rules bag) (hnone : lastText rules bag = none) :
    ∀ e ∈ bag, isProperty rules e.1 = false := by
  intro e he
  rw [← Bool.not_eq_true, isProperty_iff]
  rintro ⟨rule, hrule, hkey⟩
  exact Entries.ne_of_get?_eq_none (h.lastText_eq_none_iff.1 hnone rule hrule) he hkey.symm

/-- A last text comes from an entry of the bag. -/
theorem HoldTexts.isProperty_of_some (h : HoldTexts rules bag) {text : String}
    (hlast : lastText rules bag = some text) : ∃ e ∈ bag, isProperty rules e.1 = true := by
  by_contra hnone
  have hall : lastText rules bag = none := by
    refine h.lastText_eq_none_iff.2 fun rule hrule => Entries.get?_eq_none_iff.2 fun hin => ?_
    obtain ⟨e, he, hkey⟩ := List.mem_map.1 hin
    exact hnone ⟨e, he, isProperty_iff.2 ⟨rule, hrule, hkey.symm⟩⟩
  rw [hall] at hlast
  cases hlast

/-- Giving the texts back that have been gathered under the key of file names. -/
theorem exec_mergeAll_texts (hnodup : (Entries.keys bag).Nodup)
    (hfile : Entries.get? fileKey bag = none) (htexts : HoldTexts rules bag)
    (hproperty : ∀ rule ∈ rules, rule.property ≠ fileKey)
    (hraw : ∀ text, lastText rules bag = some text → tree.HasRaw root base id text) :
    (rules.foldlM (fun e rule => merge rule root e)
        (withBag node (gather (isProperty rules) fileKey (.string (rawName id)) bag))
        : FileTask Node).exec tree
      = (.ok (withBag node (restored rules bag)), tree) := by
  cases hlast : lastText rules bag with
  | none =>
    have hnone := htexts.isProperty_of_none hlast
    rw [gather_of_none hnone, restored_of_none hlast]
    exact exec_mergeAll_none rules hfile tree
  | some text =>
    have hfree : ∀ e ∈ bag, e.1 ≠ fileKey := fun _ => Entries.ne_of_get?_eq_none hfile
    have hnames : Entries.get? fileKey (gather (isProperty rules) fileKey (.string (rawName id)) bag)
        = some (.string (rawName id)) :=
      get?_gather_key hnodup (fun e he _ => hfree e he) (htexts.isProperty_of_some hlast)
    rw [exec_mergeAll hproperty hnames (hraw text hlast).read]
    cases rules with
    | nil => cases hlast
    | cons first rest =>
      refine congrArg (fun bag => (Except.ok (withBag node bag), tree)) ?_
      have hkeys := nodup_keys_gather (isProperty (first :: rest)) (.string (rawName id))
        hnodup fun e he _ => hfree e he
      -- the property of the first rule has been moved out, if it was there
      have hvalue : ∀ e ∈ gather (isProperty (first :: rest)) fileKey (.string (rawName id)) bag,
          e.1 = first.property → e.2 = .string text := by
        intro e he hkey
        rcases mem_gather he with rfl | ⟨-, hkept⟩
        · exact absurd hkey.symm (hproperty first (List.mem_cons_self ..))
        · rw [hkey, isProperty, List.any_cons, beq_self_eq_true, Bool.true_or] at hkept
          cases hkept
      rw [restored_cons hlast]
      show renameEntry fileKey first.property (.string text)
        (gather (isProperty (first :: rest)) fileKey (.string (rawName id)) bag) = _
      rw [renameEntry_eq_gather hkeys hvalue, gather_gather (by simp)]
      refine gather_congr fun e he => ?_
      have hne : (e.1 == fileKey) = false := by simpa using hfree e he
      have hcomm : (e.1 == first.property) = (first.property == e.1) := BEq.comm
      rw [hne, Bool.false_or, hcomm, isProperty, List.any_cons, Bool.or_comm, ← Bool.or_assoc,
        Bool.or_self]

/-- A bag without a property of a rule but the first comes back as it was. -/
theorem restored_eq_self {first : RawText} {rest : List RawText} (hnodup : (Entries.keys bag).Nodup)
    (htexts : HoldTexts (first :: rest) bag)
    (hrest : ∀ rule ∈ rest, Entries.get? rule.property bag = none) :
    restored (first :: rest) bag = bag := by
  obtain ⟨hown, hothers⟩ := List.forall_mem_cons.1 htexts
  have hnone : lastText rest bag = none := HoldTexts.lastText_eq_none_iff hothers |>.2 hrest
  cases hlast : lastText (first :: rest) bag with
  | none => exact restored_of_none hlast
  | some text =>
    rw [restored_cons hlast]
    rw [lastText, hnone, Option.none_or] at hlast
    obtain ⟨value, hvalue, htext⟩ := Option.bind_eq_some_iff.1 hlast
    obtain ⟨own, rfl⟩ := hown value hvalue
    obtain rfl : own = text := Option.some.inj htext
    have hmoved : gather (isProperty (first :: rest)) first.property (.string own) bag
        = gather (· == first.property) first.property (.string own) bag := by
      refine gather_congr fun e he => ?_
      have hcomm : (first.property == e.1) = (e.1 == first.property) := BEq.comm
      rw [isProperty, List.any_cons, hcomm]
      show (_ || isProperty rest e.1) = _
      rw [HoldTexts.isProperty_of_none hothers hnone e he, Bool.or_false]
    rw [hmoved, gather_self hnodup hvalue]

/-- Where one text stands for all, no property but that of the first rule is left. -/
theorem get?_restored_of_some {first : RawText} {rest : List RawText} {text : String}
    (hfirst : first.property ∉ rest.map property)
    (hlast : lastText (first :: rest) bag = some text) :
    ∀ rule ∈ rest, Entries.get? rule.property (restored (first :: rest) bag) = none := by
  intro rule hrule
  rw [restored_cons hlast]
  refine Entries.get?_eq_none_iff.2 fun hin => ?_
  obtain ⟨e, he, hkey⟩ := List.mem_map.1 hin
  rcases mem_gather he with rfl | ⟨-, hkept⟩
  · exact hfirst (List.mem_map.2 ⟨rule, hrule, hkey.symm⟩)
  · have hmoved : isProperty (first :: rest) e.1 = true :=
      isProperty_iff.2 ⟨rule, List.mem_cons_of_mem first hrule, hkey.symm⟩
    rw [hmoved] at hkept
    cases hkept

/-- The bag comes back as it was exactly when it has no property of a rule but the first. -/
theorem restored_eq_self_iff (hnodup : (Entries.keys bag).Nodup) (htexts : HoldTexts rules bag)
    (hdistinct : (rules.map property).Nodup) :
    restored rules bag = bag ↔ ∀ rule ∈ rules.tail, Entries.get? rule.property bag = none := by
  cases rules with
  | nil => simp [restored]
  | cons first rest =>
    obtain ⟨hfirst, -⟩ := List.nodup_cons.1 (show (first.property :: rest.map property).Nodup
      from hdistinct)
    refine ⟨fun hsame => ?_, restored_eq_self hnodup htexts⟩
    cases hlast : lastText (first :: rest) bag with
    | none =>
      exact fun rule hrule =>
        htexts.lastText_eq_none_iff.1 hlast rule (List.mem_cons_of_mem first hrule)
    | some text => exact hsame ▸ get?_restored_of_some hfirst hlast

end RawText

/-! ## Nodes that are created -/

namespace Engine

open RawText (HoldTexts restored withBag)

variable {g : Engine} {p : Number → Prop} {tree tree' : FileTree} {base : Place}
  {used : List String} {stamp : Stamp} {body : Body .node} {v : Node}

/-- A node that is created is brought into its stored form, and then only documents are written. -/
theorem Sound.stored_of_create (h : g.Sound p used tree base) (huniform : g.Uniform)
    (hproper : body.Proper p) (hplain : g.PlainBag .node body.properties)
    (hcreate : (g.create stamp body).exec tree = (.ok v, tree')) :
    v = g.created stamp body ∧ ∃ s tree₁, (g.stored v).exec tree = (.ok s, tree₁)
      ∧ tree₁.ChangesOnly tree' DocumentName := by
  rw [create] at hcreate
  obtain ⟨u, tree₀, hcheck, hcreate⟩ := FileTask.exec_bind_eq_ok hcreate
  obtain ⟨-, rfl⟩ := Prod.mk.inj hcheck
  obtain ⟨s, tree₁, hstored, hcreate⟩ := FileTask.exec_bind_eq_ok hcreate
  obtain ⟨u', tree₂, hinsert, hdone⟩ := FileTask.exec_bind_eq_ok hcreate
  obtain ⟨hv, rfl⟩ := Prod.mk.inj hdone
  obtain rfl := Except.ok.inj hv
  have hid : (g.created stamp body).id.requireText = .ok (g.keyOf stamp.unique) := rfl
  obtain ⟨first, tree₁', hstored', hstores⟩ :=
    exec_stored h.hosts huniform hid hproper.properties hplain
  obtain ⟨rfl, rfl⟩ := Prod.mk.inj (hstored.symm.trans hstored')
  have hraw := h.hosts.becomes_raw hstores.change
  have hready : (tree₁.shelf g.root .node).Ready g.root := hraw.here.symm ▸ h.ready .node
  have hs := (hstores.stored s rfl).rebagged.id
  obtain ⟨outcome, tree₂', hinsert', hinserts⟩ :=
    Catalog.exec_insert hraw.hosts hready ((congrArg Id.requireText hs).trans hid)
  obtain ⟨rfl, rfl⟩ := Prod.mk.inj (hinsert.symm.trans hinsert')
  cases hinserts with
  | done _ entities _ _ _ hupdates => exact ⟨rfl, s, tree₁, hstored, hupdates.change⟩

/-- A node that is created below rules with different properties is read with the bag that they give
    back. -/
theorem Sound.exec_get_of_create (h : g.Sound Number.Whole used tree base)
    (hproperty : ∀ rule ∈ g.rules, rule.property ≠ RawText.fileKey)
    (hshallow : (tree.shelf g.root .node).Shallow) (hfresh : stamp.unique ∉ used)
    (htime : TimeFits stamp.time) (hproper : body.Proper Number.Whole)
    (hfile : Entries.get? RawText.fileKey body.properties = none)
    (hdistinct : ((g.rulesFor body.type).map RawText.property).Nodup)
    (htexts : HoldTexts (g.rulesFor body.type) body.properties)
    (hlimit : (Json.object body.properties).nesting ≤ Node.maxNesting)
    (hcreate : (g.create stamp body).exec tree = (.ok v, tree')) :
    v.properties = body.properties ∧ (g.get .node v.id).exec tree'
      = (.ok (some (withBag v (restored (g.rulesFor body.type) body.properties))), tree') := by
  have huniform : g.Uniform := .inl hproperty
  have hplain : g.PlainBag .node body.properties := fun _ _ => hfile
  obtain ⟨rfl, s, tree₁, hstored, hdocuments⟩ := h.stored_of_create huniform hproper hplain hcreate
  obtain ⟨outcome, tree₂, hexec, hcreates⟩ := exec_create h.hosts (h.ready .node) huniform htime
    hproper hplain
  obtain ⟨rfl, rfl⟩ := Prod.mk.inj (hcreate.symm.trans hexec)
  obtain ⟨hid, hsettles⟩ := h.settles_of_creates hshallow hfresh hcreates hlimit
  obtain ⟨s', hfound, hform⟩ := hsettles.found
  refine ⟨rfl, ?_⟩
  have hkey : (g.created stamp body).id.requireText = .ok (g.keyOf stamp.unique) := rfl
  have hnone : ∀ rule ∈ g.rulesFor body.type, rule.property ≠ RawText.fileKey
      ∧ (fun _ : String => false) rule.property = false :=
    fun rule hrule => ⟨hproperty rule (mem_rules hrule), rfl⟩
  have hbag : (g.created stamp body).properties = RawText.gather (fun _ => false) RawText.fileKey
      (.string (rawName (g.keyOf stamp.unique))) body.properties :=
    (RawText.gather_of_none fun _ _ => rfl).symm
  obtain ⟨-, hraw, -⟩ := RawText.exec_splitAll_texts hproper.properties.1 hfile htexts hdistinct
    hnone hkey hbag hstored
  -- the stored form that is found was made of the node, in whatever tree
  obtain ⟨before, after, hmade⟩ := hform.made
  obtain ⟨rfl, -⟩ := RawText.exec_splitAll_texts hproper.properties.1 hfile htexts hdistinct hnone
    hkey hbag hmade
  have hraw' : ∀ text, RawText.lastText (g.rulesFor body.type) body.properties = some text →
      tree'.HasRaw g.root base (g.keyOf stamp.unique) text := fun text hlast =>
    (hraw base h.hosts text hlast).of_changesOnly hdocuments (not_documentName_rawLast _)
  have hget := Catalog.exec_get g.root .node (.ofString (g.keyOf stamp.unique)) tree'
  rw [hfound] at hget
  rw [hid, get, FileTask.exec_bind_of_ok hget]
  refine FileTask.exec_bind_of_ok ?_
  simp only [Bool.false_or]
  exact RawText.exec_mergeAll_texts hproper.properties.1 hfile htexts
    (fun rule hrule => hproperty rule (mem_rules hrule)) hraw'

/-- After every run below an empty root in which owners leave the key of file names alone, a node
    that was created last below rules with different properties is read with one entry for all texts
    that the rules have moved out: under the property of the first rule, at the place of the first
    text and with the last.  That is the bag it was created with exactly when the bag has no property
    of a rule but the first. -/
theorem get_of_stacked (hbare : tree.Bare g.root base)
    (hproperty : ∀ rule ∈ g.rules, rule.property ≠ RawText.fileKey) {steps : List Step}
    (hallows : g.Allows Number.Whole (steps ++ [⟨stamp, .create .node body⟩]))
    (hfile : Entries.get? RawText.fileKey body.properties = none)
    (hdistinct : ((g.rulesFor body.type).map RawText.property).Nodup)
    (htexts : HoldTexts (g.rulesFor body.type) body.properties)
    (hlimit : (Json.object body.properties).nesting ≤ Node.maxNesting)
    (hcreate : ((g.create stamp body).exec (g.after tree steps)).1 = .ok v) :
    v.properties = body.properties
    ∧ ((g.get .node v.id).exec (g.after tree (steps ++ [⟨stamp, .create .node body⟩]))).1
      = .ok (some (withBag v (restored (g.rulesFor body.type) body.properties)))
    ∧ (restored (g.rulesFor body.type) body.properties = body.properties
      ↔ ∀ rule ∈ (g.rulesFor body.type).tail,
        Entries.get? rule.property body.properties = none) := by
  have hsound := sound_after hbare Number.stable_whole (.inl hproperty) hallows.before
  have hshallow := shallow_after hbare Number.stable_whole (.inl hproperty) hallows.before .node
  have haccepts : TimeFits stamp.time ∧ body.Proper Number.Whole
      ∧ g.PlainBag .node body.properties := hallows.accepted ⟨stamp, .create .node body⟩ (by simp)
  have hfresh : stamp.unique ∉ given steps := hallows.fresh (List.mem_singleton.2 rfl)
  obtain ⟨hproperties, hget⟩ := hsound.exec_get_of_create hproperty hshallow hfresh haccepts.1
    haccepts.2.1 hfile hdistinct htexts hlimit (Prod.ext hcreate rfl)
  refine ⟨hproperties, ?_, RawText.restored_eq_self_iff haccepts.2.1.properties.1 htexts hdistinct⟩
  rw [after_append]
  exact congrArg Prod.fst hget

/-- Two rules for notes. -/
def stackedRules : List RawText := [noteRule, ⟨["Note"], "body"⟩]

/-- A note with a text for each of the two rules. -/
def stackedNote : Body .node :=
  .node "Note" [("title", .null), ("content", .string "a"), ("body", .string "b")]

theorem allows_stackedNote :
    (Engine.sample stackedRules).Allows Number.Whole ([] ++ [⟨⟨"n", 0⟩, .create .node stackedNote⟩])
    where
  distinct := by decide
  slashless _ := by decide
  accepted step hstep := by
    obtain rfl := List.mem_singleton.1 hstep
    exact ⟨by decide, ⟨⟨by decide, trivial, trivial, trivial, trivial⟩, trivial⟩, fun _ _ => rfl⟩

theorem ne_fileKey_stackedRules :
    ∀ rule ∈ (Engine.sample stackedRules).rules, rule.property ≠ RawText.fileKey := by decide

theorem distinct_stackedRules :
    (((Engine.sample stackedRules).rulesFor "Note").map RawText.property).Nodup := by decide

theorem holdTexts_stackedNote :
    HoldTexts ((Engine.sample stackedRules).rulesFor "Note") stackedNote.properties := by
  have hrules : (Engine.sample stackedRules).rulesFor "Note" = stackedRules := by decide
  rw [hrules]
  intro rule hrule value hvalue
  simp only [stackedRules, List.mem_cons, List.not_mem_nil, or_false] at hrule
  rcases hrule with rfl | rfl
  · exact ⟨"a", (Option.some.inj hvalue).symm⟩
  · exact ⟨"b", (Option.some.inj hvalue).symm⟩

theorem created_stackedNote :
    (((Engine.sample stackedRules).create ⟨"n", 0⟩ stackedNote).exec .sample).1.isOk = true := by
  decide +kernel

/-- The note is read with the text of the second rule under the property of the first. -/
theorem get_of_stacked_stackedNote :
    FileTree.sample.Bare "/g" ["g"]
      ∧ (∀ rule ∈ (Engine.sample stackedRules).rules, rule.property ≠ RawText.fileKey)
      ∧ (Engine.sample stackedRules).Allows Number.Whole
        ([] ++ [⟨⟨"n", 0⟩, .create .node stackedNote⟩])
      ∧ ((((Engine.sample stackedRules).rulesFor "Note").map RawText.property).Nodup)
      ∧ HoldTexts ((Engine.sample stackedRules).rulesFor "Note") stackedNote.properties
      ∧ ∃ v : Node, v.properties = stackedNote.properties
        ∧ (((Engine.sample stackedRules).create ⟨"n", 0⟩ stackedNote).exec .sample).1 = .ok v
        ∧ (((Engine.sample stackedRules).get .node v.id).exec ((Engine.sample stackedRules).after
            .sample ([] ++ [⟨⟨"n", 0⟩, .create .node stackedNote⟩]))).1
          = .ok (some (withBag v [("title", .null), ("content", .string "b")])) := by
  obtain ⟨v, hv⟩ := exists_of_isOk created_stackedNote
  obtain ⟨hproperties, hget, -⟩ := get_of_stacked FileTree.bare_sample ne_fileKey_stackedRules
    allows_stackedNote rfl distinct_stackedRules holdTexts_stackedNote (by decide) hv
  exact ⟨FileTree.bare_sample, ne_fileKey_stackedRules, allows_stackedNote, distinct_stackedRules,
    holdTexts_stackedNote, v, hproperties, hv, hget⟩

/-- Of the two texts of the note one is lost, and the other stands where the first was. -/
theorem text_lost_with_stackedNote :
    textOf ((((Engine.sample stackedRules).create ⟨"n", 0⟩ stackedNote).exec .sample).1.map some)
        = some "a"
      ∧ textOf (((Engine.sample stackedRules).get .node (.ofString "n")).exec
          (((Engine.sample stackedRules).create ⟨"n", 0⟩ stackedNote).exec .sample).2).1
        = some "b" := by
  have hsound : (Engine.sample stackedRules).Sound Number.Whole [] .sample ["g"] :=
    sound_of_bare FileTree.bare_sample
  have hshallow : (FileTree.sample.shelf (Engine.sample stackedRules).root .node).Shallow :=
    shallow_after FileTree.bare_sample Number.stable_whole (.inl ne_fileKey_stackedRules)
      allows_stackedNote.before .node
  have haccepts : TimeFits 0 ∧ stackedNote.Proper Number.Whole
      ∧ (Engine.sample stackedRules).PlainBag .node stackedNote.properties :=
    allows_stackedNote.accepted ⟨⟨"n", 0⟩, .create .node stackedNote⟩ (by simp)
  obtain ⟨v, hv⟩ := exists_of_isOk created_stackedNote
  obtain ⟨rfl, -⟩ := hsound.stored_of_create (.inl ne_fileKey_stackedRules) haccepts.2.1
    haccepts.2.2 (Prod.ext hv rfl)
  obtain ⟨-, hget⟩ := hsound.exec_get_of_create ne_fileKey_stackedRules hshallow List.not_mem_nil
    haccepts.1 haccepts.2.1 rfl distinct_stackedRules holdTexts_stackedNote (by decide)
    (Prod.ext hv rfl)
  rw [hv]
  exact ⟨rfl, congrArg (fun read => textOf read.1) hget⟩

end Engine

end PropertyGraph
