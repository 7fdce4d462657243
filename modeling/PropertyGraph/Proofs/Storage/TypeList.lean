/-
  PropertyGraph.Proofs.Storage.TypeList

  Adding a type to an ascending list.  The halving search keeps a window of the list: what
  stands behind the window is greater than the type, and its first place is not, unless that
  is the first place of all.  So the type is put where it belongs, and never twice.
-/
import PropertyGraph.Storage.Catalog
import Mathlib.Data.String.Basic
import Mathlib.Tactic.ByContra

namespace PropertyGraph.Catalog

variable {types : List String} {type : String}

/-- The window of a halving search, `size` places from `base` on. -/
structure Window (types : List String) (type : String) (base size : Nat) : Prop where
  fits : base + size ≤ types.length
  low : base = 0 ∨ ∃ t, types[base]? = some t ∧ ¬ type < t
  high : ∀ i t, base + size ≤ i → types[i]? = some t → type < t

/-- In an ascending list greater items stand further behind. -/
theorem lt_of_ascending (h : types.Pairwise (· < ·)) {i j : Nat} {s t : String} (hij : i < j)
    (hs : types[i]? = some s) (ht : types[j]? = some t) : s < t := by
  obtain ⟨hi, rfl⟩ := List.getElem?_eq_some_iff.1 hs
  obtain ⟨hj, rfl⟩ := List.getElem?_eq_some_iff.1 ht
  exact List.pairwise_iff_getElem.1 h i j hi hj hij

/-- The search ends at a window of one place. -/
theorem window_halve (h : types.Pairwise (· < ·)) {fuel base size : Nat} (hsize : 1 ≤ size)
    (hfuel : size ≤ fuel + 1) (hwindow : Window types type base size) :
    Window types type (halve types type fuel base size) 1 := by
  induction fuel generalizing base size with
  | zero =>
    obtain rfl : size = 1 := by omega
    exact hwindow
  | succ fuel ih =>
    rw [halve]
    by_cases hone : size ≤ 1
    · obtain rfl : size = 1 := by omega
      rw [if_pos hone]
      exact hwindow
    · rw [if_neg hone]
      have hfits := hwindow.fits
      have hmiddle : base + size / 2 < types.length := by omega
      have hget : types[base + size / 2]? = some types[base + size / 2] :=
        List.getElem?_eq_getElem hmiddle
      simp only [hget]
      by_cases hless : type < types[base + size / 2]
      · -- the half in front of the middle is kept
        rw [if_pos hless]
        refine ih (by omega) (by omega) ⟨by omega, hwindow.low, fun i t hi ht => ?_⟩
        rcases Nat.lt_or_eq_of_le (show base + size / 2 ≤ i by omega) with hbehind | rfl
        · exact String.lt_trans hless (lt_of_ascending h hbehind hget ht)
        · rw [hget] at ht
          exact Option.some.inj ht ▸ hless
      · -- the half behind the middle is kept
        rw [if_neg hless]
        refine ih (by omega) (by omega) ⟨by omega, .inr ⟨_, hget, hless⟩, fun i t hi ht => ?_⟩
        exact hwindow.high i t (by omega) ht

/-- So does the search in all of the list. -/
theorem window_search (h : types.Pairwise (· < ·)) (type : String) (hne : types ≠ []) :
    Window types type (halve types type types.length 0 types.length) 1 := by
  refine window_halve h (List.length_pos_iff.2 hne) (Nat.le_succ _)
    ⟨Nat.le_of_eq (Nat.zero_add _), .inl rfl, fun i t hi ht => ?_⟩
  obtain ⟨hlt, -⟩ := List.getElem?_eq_some_iff.1 ht
  omega

/-- The items before and behind the place where an item is inserted. -/
theorem insertIdx_eq {α : Type} {list : List α} {i : Nat} (h : i ≤ list.length) (a : α) :
    list.insertIdx i a = list.take i ++ a :: list.drop i := by
  induction i generalizing list with
  | zero => rfl
  | succ i ih =>
    cases list with
    | nil => cases h
    | cons x rest =>
      rw [List.insertIdx_succ_cons, ih (Nat.le_of_succ_le_succ h)]
      rfl

/-- An ascending list with a type put in behind smaller and before greater ones. -/
theorem ascending_insertIdx (h : types.Pairwise (· < ·)) {i : Nat} (hi : i ≤ types.length)
    (hbefore : ∀ j t, j < i → types[j]? = some t → t < type)
    (hbehind : ∀ j t, i ≤ j → types[j]? = some t → type < t) :
    (types.insertIdx i type).Pairwise (· < ·) := by
  rw [insertIdx_eq hi, List.pairwise_append]
  have htake : ∀ s ∈ types.take i, s < type := by
    intro s hs
    obtain ⟨j, hj, rfl⟩ := List.mem_take_iff_getElem.1 hs
    exact hbefore j _ (by omega) (List.getElem?_eq_getElem (by omega))
  have hdrop : ∀ t ∈ types.drop i, type < t := by
    intro t ht
    obtain ⟨j, hj, rfl⟩ := List.mem_drop_iff_getElem.1 ht
    exact hbehind (i + j) _ (by omega) (List.getElem?_eq_getElem (by omega))
  refine ⟨h.sublist (List.take_sublist i types), ?_, fun s hs t ht => ?_⟩
  · rw [List.pairwise_cons]
    exact ⟨hdrop, h.sublist (List.drop_sublist i types)⟩
  · rcases List.mem_cons.1 ht with rfl | ht
    · exact htake s hs
    · exact String.lt_trans (htake s hs) (hdrop t ht)

section Ended

variable {base : Nat} {t : String} (h : types.Pairwise (· < ·)) (hwindow : Window types type base 1)
  (hget : types[base]? = some t)

include h hwindow hget

/-- A greater type belongs behind the place where the search has ended. -/
theorem ascending_behind (hless : t < type) :
    (types.insertIdx (base + 1) type).Pairwise (· < ·) := by
  refine ascending_insertIdx h hwindow.fits (fun j s hj hs => ?_) fun j s hj hs =>
    hwindow.high j s hj hs
  rcases Nat.lt_or_eq_of_le (Nat.le_of_lt_succ hj) with hbefore | rfl
  · exact String.lt_trans (lt_of_ascending h hbefore hs hget) hless
  · rw [hget] at hs
    exact Option.some.inj hs ▸ hless

/-- A smaller type belongs before it, and then it is the first place of all. -/
theorem ascending_before (hgreater : type < t) :
    (types.insertIdx base type).Pairwise (· < ·) := by
  obtain rfl : base = 0 := by
    rcases hwindow.low with hzero | ⟨t', ht', hnot⟩
    · exact hzero
    · rw [hget] at ht'
      exact absurd (Option.some.inj ht' ▸ hgreater) hnot
  refine ascending_insertIdx h (Nat.zero_le _) (fun j s hj _ => absurd hj (Nat.not_lt_zero j))
    fun j s _ hs => ?_
  rcases Nat.eq_zero_or_pos j with rfl | hpos
  · rw [hget] at hs
    exact Option.some.inj hs ▸ hgreater
  · exact String.lt_trans hgreater (lt_of_ascending h hpos hget hs)

end Ended

/-- Where the search ends, a type that is not in the list belongs before or behind. -/
theorem ascending_addType {types' : List String} (h : types.Pairwise (· < ·))
    (hadd : addType types type = some types') :
    types'.Pairwise (· < ·) ∧ ∀ t, t ∈ types' ↔ t = type ∨ t ∈ types := by
  rw [addType] at hadd
  cases hget : types[halve types type types.length 0 types.length]? with
  | none =>
    rw [hget] at hadd
    obtain rfl : [type] = types' := Option.some.inj hadd
    -- only an empty list has no place where the search ends
    have hempty : types = [] := by
      by_contra hne
      exact absurd (window_search h type hne).fits
        (Nat.not_le.2 (Nat.lt_succ_of_le (List.getElem?_eq_none_iff.1 hget)))
    rw [hempty]
    exact ⟨List.pairwise_singleton _ _, fun t => by simp⟩
  | some t =>
    rw [hget] at hadd
    simp only at hadd
    have hne : types ≠ [] := by
      rintro rfl
      cases hget
    have hwindow := window_search h type hne
    generalize halve types type types.length 0 types.length = base at *
    by_cases hsame : t = type
    · rw [if_pos hsame] at hadd
      cases hadd
    · rw [if_neg hsame] at hadd
      obtain rfl := Option.some.inj hadd
      by_cases hless : t < type
      · rw [if_pos hless]
        exact ⟨ascending_behind h hwindow hget hless, fun x => List.mem_insertIdx hwindow.fits⟩
      · rw [if_neg hless]
        have hgreater : type < t := lt_of_le_of_ne (not_lt.1 hless) fun he => hsame he.symm
        exact ⟨ascending_before h hwindow hget hgreater,
          fun x => List.mem_insertIdx (Nat.le_of_succ_le hwindow.fits)⟩

/-- A type that the search finds is in the list. -/
theorem mem_of_addType_none (hadd : addType types type = none) : type ∈ types := by
  rw [addType] at hadd
  cases hget : types[halve types type types.length 0 types.length]? with
  | none => rw [hget] at hadd; cases hadd
  | some t =>
    rw [hget] at hadd
    simp only at hadd
    by_cases hsame : t = type
    · exact hsame ▸ List.mem_of_getElem? hget
    · rw [if_neg hsame] at hadd
      cases hadd

/-- The list of types after a type was recorded: ascending, with that type and the others. -/
theorem ascending_recorded (h : types.Pairwise (· < ·)) (type : String) :
    ((addType types type).getD types).Pairwise (· < ·)
      ∧ ∀ t, t ∈ (addType types type).getD types ↔ t = type ∨ t ∈ types := by
  cases hadd : addType types type with
  | none =>
    refine ⟨h, fun t => ⟨.inr, ?_⟩⟩
    rintro (rfl | ht)
    · exact mem_of_addType_none hadd
    · exact ht
  | some types' => exact ascending_addType h hadd

end PropertyGraph.Catalog
