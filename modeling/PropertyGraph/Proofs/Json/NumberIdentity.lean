/-
  PropertyGraph.Proofs.Json.NumberIdentity

  The text of a number is the text of no other number.  The text of a double is a numeral that
  stands for the digits of the double at their place, in whichever form it is written; that number
  rounds to the double and to no other one.  Reading the text may still give another double, since
  a literal is not always rounded to the nearest one.
-/
import PropertyGraph.Proofs.Decimal.RoundingInterval
import PropertyGraph.Proofs.Json.DoubleText

namespace PropertyGraph

open Decimal (Double numberOf)

namespace Json.Numeral

variable {chars : List Char} {negative negative' : Bool} {q q' : ℚ}

/-! ## What a numeral stands for -/

/-- The number that a numeral stands for, but for its sign. -/
def exact (n : Numeral) : ℚ :=
  numberOf 0 (n.whole.reverse ++ n.fraction.reverse) * 10 ^ (n.power - n.fraction.length)

/-- A text is a numeral that has a sign and stands for a number. -/
def Denotes (chars : List Char) (negative : Bool) (q : ℚ) : Prop :=
  ∃ n, ofChars? chars = some n ∧ n.negative = negative ∧ n.exact = q

theorem Denotes.unique (h : Denotes chars negative q) (h' : Denotes chars negative' q') :
    negative = negative' ∧ q = q' := by
  obtain ⟨n, hn, rfl, rfl⟩ := h
  obtain ⟨n', hn', rfl, rfl⟩ := h'
  obtain rfl := Option.some.inj (hn.symm.trans hn')
  exact ⟨rfl, rfl⟩

/-- Digits before a point and after it. -/
theorem denotes_plain (negative : Bool) {c f : Char} {cs fs : List Char}
    (hcs : ∀ d ∈ c :: cs, d.isDigit = true) (hfs : ∀ d ∈ f :: fs, d.isDigit = true)
    (hfirst : digitValue c ≠ 0 ∨ cs = []) :
    Denotes (signChars negative ++ (c :: cs ++ '.' :: f :: fs)) negative
      (Nat.ofDigitChars 10 (c :: cs ++ f :: fs) 0 * 10 ^ (-((f :: fs).length : Int))) := by
  refine ⟨_, ofChars?_plain negative hcs hfs hfirst, rfl, ?_⟩
  rw [exact, start, List.reverse_reverse, List.reverse_reverse, ← List.map_append,
    numberOf_digitValue, List.length_reverse, List.length_map]
  simp [power]

section Digits

variable {c : Char} {cs : List Char} (hcs : ∀ d ∈ c :: cs, d.isDigit = true)

include hcs

/-- The form without an exponent. -/
theorem denotes_plainText (hne : digitValue c ≠ 0) (negative : Bool) (point : Int) :
    Denotes (signChars negative ++ (Double.plainText (c :: cs) point).toList) negative
      (Nat.ofDigitChars 10 (c :: cs) 0 * 10 ^ (point - (c :: cs).length)) := by
  obtain ⟨a, as, f, fs, htext, has, hfs, hfirst, -, hvalue⟩ := plainForm_plainText hcs hne point
  rw [htext, ← hvalue]
  exact denotes_plain negative has hfs hfirst

/-- The form with an exponent. -/
theorem denotes_exponentText (negative : Bool) (exponent : Int) :
    Denotes (signChars negative ++ (Double.exponentText (c :: cs) exponent).toList) negative
      (Nat.ofDigitChars 10 (c :: cs) 0 * 10 ^ (exponent - cs.length)) := by
  have hes := isDigit_toDigits exponent.natAbs
  have habs := Nat.ofDigitChars_ten_toDigits (n := exponent.natAbs)
  cases hdigits : Nat.toDigits 10 exponent.natAbs with
  | nil => exact absurd hdigits Nat.toDigits_ne_nil
  | cons e es =>
    rw [hdigits] at hes habs
    obtain ⟨n, hn, -, hnegative, hwhole, hfraction, hpower⟩ :=
      ofChars?_scientific negative (decide (exponent < 0)) (hcs c (List.mem_cons_self ..))
        (fun d hd => hcs d (List.mem_cons_of_mem _ hd)) hes
    rw [toList_exponentText hdigits]
    refine ⟨n, hn, hnegative, ?_⟩
    rw [habs, signed_natAbs] at hpower
    rw [exact, hwhole, hfraction, hpower, List.reverse_reverse, List.length_reverse,
      List.length_map, List.reverse_singleton, List.singleton_append, ← List.map_cons,
      numberOf_digitValue]

end Digits

end Json.Numeral

/-! ## Doubles -/

namespace Decimal.Double

open Json.Numeral (Denotes denotes_plain denotes_plainText denotes_exponentText signChars
  toList_sign)

variable {x y : Double}

/-- The text of a zero stands for zero. -/
theorem denotes_text_zero (hx : x.mantissa = 0) : Denotes x.text.toList x.negative 0 := by
  have hzero : ∀ d ∈ ['0'], d.isDigit = true := by simp
  have h := denotes_plain x.negative hzero hzero (.inr rfl)
  have hvalue : Nat.ofDigitChars 10 ['0', '0'] 0 = 0 := by decide
  rw [List.cons_append, List.nil_append, List.singleton_append, hvalue, Nat.cast_zero, zero_mul] at h
  rw [text, if_pos hx, String.toList_append, toList_sign]
  exact h

/-- The text of another double stands for its digits at their place. -/
theorem denotes_text (hx : 0 < x.mantissa) (hdigits : 0 < x.shortest.1) :
    Denotes x.text.toList x.negative (x.shortest.1 * 10 ^ x.shortest.2) := by
  obtain ⟨c, cs, zeros, hstripped, hfirst, hall, hn, hlength⟩ := exists_stripped hdigits
  have hshortest : x.shortest = (x.shortest.1, x.shortest.2) := rfl
  have hvalue : (x.shortest.1 : ℚ) * 10 ^ x.shortest.2
      = Nat.ofDigitChars 10 (c :: cs) 0 * 10 ^ (x.shortest.2 + zeros) := by
    rw [zpow_add₀ (by norm_num), zpow_natCast]
    conv_lhs => rw [hn]
    push_cast
    ring
  rw [text_of_shortest hx.ne' hshortest, String.toList_append, toList_sign, hstripped, hvalue]
  split
  · have hplace : x.shortest.2 + zeros
        = ((Nat.toDigits 10 x.shortest.1).length + x.shortest.2 : Int) - (c :: cs).length := by
      rw [hlength, List.length_cons]
      push_cast
      omega
    rw [hplace]
    exact denotes_plainText hall hfirst x.negative _
  · have hplace : x.shortest.2 + zeros
        = ((Nat.toDigits 10 x.shortest.1).length + x.shortest.2 - 1 : Int) - cs.length := by
      rw [hlength]
      push_cast
      omega
    rw [hplace]
    exact denotes_exponentText hall x.negative _

/-- The text of a double stands for a number that rounds to it. -/
theorem exists_denotes_text (hx : x.Normalized) : ∃ q, Denotes x.text.toList x.negative q
    ∧ (x.mantissa = 0 ∧ q = 0 ∨ 0 < q ∧ RoundsTo q x) := by
  rcases Nat.eq_zero_or_pos x.mantissa with hzero | hpos
  · exact ⟨0, denotes_text_zero hzero, .inl ⟨hzero, rfl⟩⟩
  · obtain ⟨hdigits, hrounds⟩ := shortest_roundsTo hx hpos
    exact ⟨_, denotes_text hpos hdigits, .inr ⟨(lowEnd_pos hpos).trans_le hrounds.low, hrounds⟩⟩

/-- The text of a double is the text of no other one. -/
theorem text_inj (hx : x.Normalized) (hy : y.Normalized) (h : x.text = y.text) : x = y := by
  obtain ⟨q, hdenotes, hq⟩ := exists_denotes_text hx
  obtain ⟨q', hdenotes', hq'⟩ := exists_denotes_text hy
  rw [← h] at hdenotes'
  obtain ⟨hnegative, rfl⟩ := hdenotes.unique hdenotes'
  have hmagnitude : x.mantissa = y.mantissa ∧ x.exponent = y.exponent := by
    rcases hq with ⟨hx0, hzero⟩ | ⟨hpos, hrounds⟩
    · rcases hq' with ⟨hy0, -⟩ | ⟨hpos, -⟩
      · exact ⟨hx0.trans hy0.symm, (hx.exponent_eq hx0).trans (hy.exponent_eq hy0).symm⟩
      · exact absurd hzero hpos.ne'
    · rcases hq' with ⟨-, hzero⟩ | ⟨-, hrounds'⟩
      · exact absurd hzero hpos.ne'
      · exact eq_of_roundsTo hx hy hrounds hrounds'
  cases x
  cases y
  obtain ⟨rfl, rfl⟩ := hmagnitude
  obtain rfl : _ = _ := hnegative
  rfl

end Decimal.Double

/-! ## Numbers -/

namespace Number

/-- An integer of 64 bits or a double as it is stored. -/
def Normalized : Number → Prop
  | .integer i => fits i = true
  | .float x => x.Normalized

theorem Normalized.inRange {n : Number} (h : n.Normalized) : n.InRange := by
  cases n with
  | integer i => exact h
  | float x => exact Decimal.Double.Normalized.inRange h

/-- Whatever is read as a number is normalized. -/
theorem normalized_value? {numeral : Json.Numeral} {n : Number} (h : numeral.value? = some n) :
    n.Normalized := by
  dsimp only [Json.Numeral.value?] at h
  generalize (if numeral.negative then _ else _ : Int) = i at h
  split at h
  · next hfits =>
    obtain rfl := Option.some.inj h
    simp only [Bool.and_eq_true] at hfits
    exact hfits.1.2
  · obtain ⟨x, hx, rfl⟩ := Option.map_eq_some_iff.1 h
    exact Decimal.Scaled.toDouble?_normalized hx

/-- Numbers stay normalized when they are printed and read. -/
theorem stable_normalized : Stable Normalized where
  whole n h := by
    cases n with
    | integer i => exact h
    | float x => exact h.elim
  legible n h := stable_inRange.legible n h.inRange
  reread n h := by
    obtain ⟨numeral, -, -, hvalue⟩ := (stable_inRange.legible n h.inRange).value
    exact normalized_value? hvalue

/-- An integer is no double: the text of a double always has a point or an exponent. -/
theorem integer_text_ne {i : Int} {x : Double} (hi : fits i = true) (hx : x.InRange) :
    (Number.integer i).text ≠ (Number.float x).text := by
  intro h
  obtain ⟨numeral, hnumeral, -, hvalue⟩ := numeral?_integer hi
  obtain ⟨numeral', y, hnumeral', -, hvalue', -⟩ := Decimal.Double.readsDouble_text hx
  rw [numeral?, h] at hnumeral
  obtain rfl := Option.some.inj (hnumeral.symm.trans hnumeral')
  cases hvalue.symm.trans hvalue'

/-- The text of a number is the text of no other number. -/
theorem text_inj {n m : Number} (hn : n.Normalized) (hm : m.Normalized) (h : n.text = m.text) :
    n = m := by
  cases n with
  | integer i =>
    cases m with
    | integer j =>
      have hnumeral : (Number.integer i).numeral? = (Number.integer j).numeral? := by
        rw [numeral?, numeral?, h]
      obtain ⟨numeral, hi, -, hvalue⟩ := numeral?_integer hn
      obtain ⟨numeral', hj, -, hvalue'⟩ := numeral?_integer hm
      obtain rfl := Option.some.inj (hi.symm.trans (hnumeral.trans hj))
      exact Option.some.inj (hvalue.symm.trans hvalue')
    | float y => exact absurd h (integer_text_ne hn hm.inRange)
  | float x =>
    cases m with
    | integer j => exact absurd h.symm (integer_text_ne hm hn.inRange)
    | float y => exact congrArg Number.float (Decimal.Double.text_inj hn hm h)

end Number

end PropertyGraph
