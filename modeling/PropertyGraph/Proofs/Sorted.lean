/-
  PropertyGraph.Proofs.Sorted

  Texts that have been sorted: the texts of the list, in ascending order, each once.
-/
import PropertyGraph.Text.Sorted
import Mathlib.Data.String.Basic

namespace PropertyGraph.Text

variable {s t : String} {texts : List String}

theorem mem_insertSorted : t ∈ insertSorted s texts ↔ t = s ∨ t ∈ texts := by
  induction texts with
  | nil => simp [insertSorted]
  | cons first rest ih =>
    rw [insertSorted]
    split
    · exact List.mem_cons
    · split
      · next heq => simp [heq]
      · rw [List.mem_cons, ih, List.mem_cons, or_left_comm]

theorem ascending_insertSorted (h : texts.Pairwise (· < ·)) (s : String) :
    (insertSorted s texts).Pairwise (· < ·) := by
  induction texts with
  | nil => exact List.pairwise_singleton ..
  | cons first rest ih =>
    obtain ⟨hfirst, hrest⟩ := List.pairwise_cons.1 h
    rw [insertSorted]
    split
    · next hless =>
      refine List.pairwise_cons.2 ⟨fun t ht => ?_, h⟩
      obtain rfl | ht := List.mem_cons.1 ht
      · exact hless
      · exact String.lt_trans hless (hfirst t ht)
    next hnotless =>
    split
    · exact h
    next hne =>
    refine List.pairwise_cons.2 ⟨fun t ht => ?_, ih hrest⟩
    obtain rfl | ht := mem_insertSorted.1 ht
    · exact lt_of_le_of_ne (not_lt.1 hnotless) (Ne.symm hne)
    · exact hfirst t ht

theorem mem_sorted : t ∈ sorted texts ↔ t ∈ texts := by
  induction texts with
  | nil => rfl
  | cons first rest ih =>
    show t ∈ insertSorted first (sorted rest) ↔ t ∈ first :: rest
    rw [mem_insertSorted, ih, List.mem_cons]

theorem ascending_sorted (texts : List String) : (sorted texts).Pairwise (· < ·) := by
  induction texts with
  | nil => exact .nil
  | cons first rest ih => exact ascending_insertSorted ih first

end PropertyGraph.Text
