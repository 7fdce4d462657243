/-
  PropertyGraph.Proofs.Json.DoubleText

  The text of a double is a numeral again, and the numeral has a value: it may be another
  double, but it is a finite one.  For most forms of the text that follows from the digits
  alone; in the form with a positive exponent the size of the double matters, and the
  largest double is looked at by itself.
-/
import PropertyGraph.Proofs.Decimal.Digits
import PropertyGraph.Proofs.Decimal.Shortest
import PropertyGraph.Proofs.Json.NumberText

namespace PropertyGraph

open Decimal (Double Scaled tenTo numberOf)

namespace Json

theorem digitValue_lt {c : Char} (h : c.isDigit = true) : digitValue c < 10 := by
  obtain ⟨d, hd, rfl⟩ := exists_digitChar h
  rw [digitValue, Nat.toNat_digitChar_sub_48_of_lt_ten hd]
  exact hd

theorem digitValue_lt_of_mem {cs : List Char} (h : ∀ c ∈ cs, c.isDigit = true) :
    ∀ d ∈ cs.map digitValue, d < 10 := by
  intro d hd
  obtain ⟨c, hc, rfl⟩ := List.mem_map.1 hd
  exact digitValue_lt (h c hc)

theorem numberOf_digitValue (start : Nat) (cs : List Char) :
    numberOf start (cs.map digitValue) = Nat.ofDigitChars 10 cs start := foldl_digitValue cs start

namespace Numeral

/-! ## Parts of a numeral -/

/-- The characters of a sign. -/
def signChars (negative : Bool) : List Char := if negative then ['-'] else []

/-- The stage after the first digit: before the point nothing may follow a zero. -/
def firstStage (c : Char) : Stage := if digitValue c = 0 then .zero else .whole

theorem firstStage_eq (c : Char) : firstStage c = .zero ∨ firstStage c = .whole := by
  unfold firstStage
  split
  · exact .inl rfl
  · exact .inr rfl

/-- A numeral begins with its sign and its first digit. -/
theorem ofChars?_signed (negative : Bool) {c : Char} (hc : c.isDigit = true) (rest : List Char) :
    ofChars? (signChars negative ++ c :: rest)
      = (start (firstStage c) negative [digitValue c]).extend? rest := by
  have hminus : c ≠ '-' := by
    rintro rfl
    simp at hc
  cases negative with
  | false =>
    have hbegun : begun? c = some (start (firstStage c) false [digitValue c]) := by
      cases hd : digitValue c with
      | zero => simp [begun?, hminus, digit?_of_isDigit hc, hd, firstStage]
      | succ d => simp [begun?, hminus, digit?_of_isDigit hc, hd, firstStage]
    show (begun? c).bind (fun n => n.extend? rest) = _
    rw [hbegun, Option.bind_some]
  | true =>
    have hstep : (start .sign true []).step? c = some (start (firstStage c) true [digitValue c]) := by
      cases hd : digitValue c with
      | zero => simp [start, step?, digit?_of_isDigit hc, hd, firstStage]
      | succ d => simp [start, step?, digit?_of_isDigit hc, hd, firstStage]
    show (begun? '-').bind (fun n => n.extend? (c :: rest)) = _
    rw [show begun? '-' = some (start .sign true []) from rfl, Option.bind_some, extend?, hstep,
      Option.bind_some]

/-- Digits after the point are collected in reverse. -/
theorem extend?_fraction {cs : List Char} (hcs : ∀ c ∈ cs, c.isDigit = true) (n : Numeral)
    (hstage : n.stage = .fraction) :
    n.extend? cs = some { n with fraction := (cs.map digitValue).reverse ++ n.fraction } := by
  induction cs generalizing n with
  | nil => rfl
  | cons c rest ih =>
    have hc : digit? c = some (digitValue c) := digit?_of_isDigit (hcs c (List.mem_cons_self ..))
    have hstep : n.step? c = some { n with fraction := digitValue c :: n.fraction } := by
      simp [step?, hstage, hc]
    have hrest := ih (fun d hd => hcs d (List.mem_cons_of_mem _ hd))
      { n with fraction := digitValue c :: n.fraction } hstage
    simp only [extend?, hstep, Option.bind_some, hrest]
    simp

/-- A point and the digits after it. -/
theorem extend?_point {c : Char} {cs : List Char} (hcs : ∀ d ∈ c :: cs, d.isDigit = true)
    (n : Numeral) (hstage : n.stage = .zero ∨ n.stage = .whole) :
    n.extend? ('.' :: c :: cs)
      = some { n with stage := .fraction, fraction := ((c :: cs).map digitValue).reverse } := by
  have hpoint : n.step? '.' = some { n with stage := .point } := by
    rcases hstage with hstage | hstage <;> simp [step?, hstage, digit?]
  have hc : digit? c = some (digitValue c) := digit?_of_isDigit (hcs c (List.mem_cons_self ..))
  have hdigit : ({ n with stage := .point } : Numeral).step? c
      = some { n with stage := .fraction, fraction := [digitValue c] } := by
    simp [step?, hc]
  simp only [extend?, hpoint, hdigit, Option.bind_some]
  rw [extend?_fraction (fun d hd => hcs d (List.mem_cons_of_mem _ hd)) _ rfl]
  simp

/-- Digits of the exponent are taken in as a number. -/
theorem extend?_exponent {cs : List Char} (hcs : ∀ c ∈ cs, c.isDigit = true) (n : Numeral)
    (hstage : n.stage = .exponent) :
    n.extend? cs = some { n with exponent := Nat.ofDigitChars 10 cs n.exponent } := by
  induction cs generalizing n with
  | nil => simp [extend?]
  | cons c rest ih =>
    have hc : digit? c = some (digitValue c) := digit?_of_isDigit (hcs c (List.mem_cons_self ..))
    have hstep : n.step? c = some { n with exponent := n.exponent * 10 + digitValue c } := by
      simp [step?, hstage, hc]
    have hrest := ih (fun d hd => hcs d (List.mem_cons_of_mem _ hd))
      { n with exponent := n.exponent * 10 + digitValue c } hstage
    simp only [extend?, hstep, Option.bind_some, hrest, Nat.ofDigitChars_cons]
    simp [digitValue, Nat.mul_comm]

/-- The mark of an exponent, its sign and its digits. -/
theorem extend?_mark {c : Char} {cs : List Char} (hcs : ∀ d ∈ c :: cs, d.isDigit = true)
    (n : Numeral) (hstage : n.stage = .zero ∨ n.stage = .whole ∨ n.stage = .fraction)
    (below : Bool) :
    n.extend? ('e' :: (if below then '-' else '+') :: c :: cs)
      = some { n with
          stage := .exponent
          exponentNegative := below
          exponent := Nat.ofDigitChars 10 (c :: cs) 0 } := by
  have hmark : n.step? 'e' = some { n with stage := .mark } := by
    rcases hstage with hstage | hstage | hstage <;> simp [step?, hstage, digit?]
  have hsign : ({ n with stage := .mark } : Numeral).step? (if below then '-' else '+')
      = some { n with stage := .markSign, exponentNegative := below } := by
    cases below <;> simp [step?, digit?]
  have hc : digit? c = some (digitValue c) := digit?_of_isDigit (hcs c (List.mem_cons_self ..))
  have hdigit : ({ n with stage := .markSign, exponentNegative := below } : Numeral).step? c
      = some { n with stage := .exponent, exponentNegative := below, exponent := digitValue c } := by
    simp [step?, hc]
  simp only [extend?, hmark, hsign, hdigit, Option.bind_some]
  rw [extend?_exponent (fun d hd => hcs d (List.mem_cons_of_mem _ hd)) _ rfl, Nat.ofDigitChars_cons]
  simp [digitValue]

/-! ## Texts that are read as doubles -/

/-- The exponent of a numeral. -/
def power (n : Numeral) : Int := if n.exponentNegative then -(n.exponent : Int) else n.exponent

/-- A text is read as a double that is in range. -/
def ReadsDouble (chars : List Char) : Prop :=
  ∃ numeral y, ofChars? chars = some numeral ∧ numeral.complete = true
    ∧ numeral.value? = some (.float y) ∧ y.InRange

/-- A numeral with a fraction or an exponent is read as the double of its literal. -/
theorem readsDouble_of_toDouble {chars : List Char} {n : Numeral} {y : Double}
    (hchars : ofChars? chars = some n) (hstage : n.stage = .fraction ∨ n.stage = .exponent)
    (hdouble : (Scaled.ofDigits n.whole.reverse n.fraction.reverse n.power).toDouble? n.negative
      = some y) (hrange : y.InRange) : ReadsDouble chars := by
  refine ⟨n, y, hchars, ?_, ?_, hrange⟩
  · rcases hstage with hstage | hstage <;> simp [complete, hstage]
  · have hdecimal : n.isDecimal = true := by
      rcases hstage with hstage | hstage <;> simp [isDecimal, hstage]
    rw [power] at hdouble
    simp [value?, hdecimal, hdouble]

/-- The numeral of digits before a point and after it: of several before it the first is not
    zero. -/
theorem ofChars?_plain (negative : Bool) {c f : Char} {cs fs : List Char}
    (hcs : ∀ d ∈ c :: cs, d.isDigit = true) (hfs : ∀ d ∈ f :: fs, d.isDigit = true)
    (hfirst : digitValue c ≠ 0 ∨ cs = []) :
    ofChars? (signChars negative ++ (c :: cs ++ '.' :: f :: fs))
      = some { start .fraction negative ((c :: cs).map digitValue).reverse with
          fraction := ((f :: fs).map digitValue).reverse } := by
  have hwhole : (start (firstStage c) negative [digitValue c]).extend? cs
      = some { start (firstStage c) negative [digitValue c] with
          whole := (cs.map digitValue).reverse ++ [digitValue c] } := by
    rcases hfirst with hne | rfl
    · exact extend?_whole (fun d hd => hcs d (List.mem_cons_of_mem _ hd)) _
        (by simp [start, firstStage, hne])
    · rfl
  rw [List.cons_append, ofChars?_signed negative (hcs c (List.mem_cons_self ..)), extend?_append,
    hwhole, Option.bind_some, extend?_point hfs _ (firstStage_eq c), List.map_cons (l := cs),
    List.reverse_cons]
  rfl

/-- Digits, of which few stand before the point, are read as a double. -/
theorem readsDouble_plain (negative : Bool) {c f : Char} {cs fs : List Char}
    (hcs : ∀ d ∈ c :: cs, d.isDigit = true) (hfs : ∀ d ∈ f :: fs, d.isDigit = true)
    (hfirst : digitValue c ≠ 0 ∨ cs = []) (hshort : cs.length ≤ 15) :
    ReadsDouble (signChars negative ++ (c :: cs ++ '.' :: f :: fs)) := by
  obtain ⟨y, hy, hrange⟩ : ∃ y, (Scaled.ofDigits ((c :: cs).map digitValue)
      ((f :: fs).map digitValue) 0).toDouble? negative = some y ∧ y.InRange :=
    Scaled.exists_ofDigits_of_nonpos negative (digitValue_lt_of_mem hcs)
      (by rw [List.length_map]; exact Nat.succ_le_succ hshort) (le_refl 0)
  refine readsDouble_of_toDouble (ofChars?_plain negative hcs hfs hfirst) (.inl rfl) ?_ hrange
  simpa [start, power] using hy

/-- The numeral of a digit, digits after a point if there are any, and an exponent. -/
theorem ofChars?_scientific (negative below : Bool) {c e : Char} {fs es : List Char}
    (hc : c.isDigit = true) (hfs : ∀ d ∈ fs, d.isDigit = true)
    (hes : ∀ d ∈ e :: es, d.isDigit = true) :
    ∃ n, ofChars? (signChars negative ++ (c :: (if fs = [] then [] else '.' :: fs)
        ++ 'e' :: (if below then '-' else '+') :: e :: es)) = some n
      ∧ n.stage = .exponent ∧ n.negative = negative ∧ n.whole = [digitValue c]
      ∧ n.fraction = (fs.map digitValue).reverse
      ∧ n.power = if below then -(Nat.ofDigitChars 10 (e :: es) 0 : Int)
        else Nat.ofDigitChars 10 (e :: es) 0 := by
  -- the point and what follows it may be missing, so the mark may follow any of three stages
  have hhead : ∃ n, (start (firstStage c) negative [digitValue c]).extend?
        (if fs = [] then [] else '.' :: fs) = some n
      ∧ (n.stage = .zero ∨ n.stage = .whole ∨ n.stage = .fraction) ∧ n.negative = negative
      ∧ n.whole = [digitValue c] ∧ n.fraction = (fs.map digitValue).reverse := by
    cases fs with
    | nil =>
      refine ⟨_, rfl, ?_, rfl, rfl, rfl⟩
      rcases firstStage_eq c with hstage | hstage
      · exact .inl hstage
      · exact .inr (.inl hstage)
    | cons f fs =>
      rw [if_neg (List.cons_ne_nil f fs)]
      exact ⟨_, extend?_point hfs _ (firstStage_eq c), .inr (.inr rfl), rfl, rfl, rfl⟩
  obtain ⟨n, hn, hnstage, hnegative, hwhole, hfraction⟩ := hhead
  refine ⟨{ n with
    stage := .exponent
    exponentNegative := below
    exponent := Nat.ofDigitChars 10 (e :: es) 0 }, ?_, rfl, hnegative, hwhole, hfraction, rfl⟩
  rw [List.cons_append, ofChars?_signed negative hc, extend?_append, hn, Option.bind_some,
    extend?_mark hes n hnstage below]

/-- A digit, digits after a point if there are any, and an exponent are read as the double of
    the literal that they make. -/
theorem readsDouble_scientific (negative below : Bool) {c e : Char} {fs es : List Char}
    (hc : c.isDigit = true) (hfs : ∀ d ∈ fs, d.isDigit = true)
    (hes : ∀ d ∈ e :: es, d.isDigit = true) {y : Double}
    (hy : (Scaled.ofDigits [digitValue c] (fs.map digitValue)
        (if below then -(Nat.ofDigitChars 10 (e :: es) 0 : Int)
          else Nat.ofDigitChars 10 (e :: es) 0)).toDouble? negative = some y)
    (hrange : y.InRange) :
    ReadsDouble (signChars negative ++ (c :: (if fs = [] then [] else '.' :: fs)
      ++ 'e' :: (if below then '-' else '+') :: e :: es)) := by
  obtain ⟨n, hn, hstage, hnegative, hwhole, hfraction, hpower⟩ :=
    ofChars?_scientific negative below hc hfs hes
  refine readsDouble_of_toDouble hn (.inr hstage) ?_ hrange
  rw [hwhole, hfraction, hnegative, hpower, List.reverse_reverse, List.reverse_singleton]
  exact hy

/-! ## The forms of a text -/

/-- The text of a zero. -/
theorem readsDouble_zero (negative : Bool) : ReadsDouble (signChars negative ++ ['0', '.', '0']) := by
  have hzero : ∀ d ∈ ['0'], d.isDigit = true := by simp
  exact readsDouble_plain negative hzero hzero (.inr rfl) (by simp)

theorem toList_sign (negative : Bool) : (if negative then "-" else "").toList = signChars negative := by
  cases negative <;> rfl

theorem isDigit_zeros (count : Nat) : ∀ d ∈ List.replicate count '0', d.isDigit = true := by
  intro d hd
  rw [List.eq_of_mem_replicate hd]
  rfl

/-- The form without an exponent of digits at their place: digits before a point and after it, few of
    them before it and no zero ahead of others, which stand for the same number. -/
def PlainForm (digits : List Char) (point : Int) (text : List Char) : Prop :=
  ∃ a as f fs, text = a :: as ++ '.' :: f :: fs
    ∧ (∀ d ∈ a :: as, d.isDigit = true) ∧ (∀ d ∈ f :: fs, d.isDigit = true)
    ∧ (digitValue a ≠ 0 ∨ as = []) ∧ (as.length : Int) < max point 1
    ∧ (Nat.ofDigitChars 10 (a :: as ++ f :: fs) 0 : ℚ) * 10 ^ (-((f :: fs).length : Int))
      = Nat.ofDigitChars 10 digits 0 * 10 ^ (point - digits.length)

section Digits

variable {c : Char} {cs : List Char} (hcs : ∀ d ∈ c :: cs, d.isDigit = true)
  (hne : digitValue c ≠ 0) {point : Int}

include hcs

/-- All digits stand behind the point, and maybe zeros before them. -/
theorem plainForm_below (hpoint : point ≤ 0) :
    PlainForm (c :: cs) point ('0' :: '.' :: (List.replicate (-point).toNat '0' ++ c :: cs)) := by
  generalize hcount : (-point).toNat = count
  cases hafter : List.replicate count '0' ++ c :: cs with
  | nil => exact absurd (List.append_eq_nil_iff.1 hafter).2 (List.cons_ne_nil c cs)
  | cons f fs =>
    refine ⟨'0', [], f, fs, rfl, by simp, fun d hd => ?_, .inr rfl, by simp, ?_⟩
    · rw [← hafter] at hd
      rcases List.mem_append.1 hd with hzero | hdigit
      · exact isDigit_zeros count d hzero
      · exact hcs d hdigit
    · have hlength : ((f :: fs).length : Int) = (c :: cs).length - point := by
        rw [← hafter, List.length_append, List.length_replicate]
        omega
      have hvalue : Nat.ofDigitChars 10 ('0' :: [] ++ f :: fs) 0
          = Nat.ofDigitChars 10 (c :: cs) 0 := by
        rw [← hafter, ← List.append_assoc, Nat.ofDigitChars_append]
        simp [Nat.ofDigitChars_cons, Nat.ofDigitChars_replicate_zero]
      rw [hvalue, hlength, neg_sub]

include hne

/-- All digits stand before the point, and maybe zeros behind them. -/
theorem plainForm_above (hpoint : (c :: cs).length ≤ point.toNat) :
    PlainForm (c :: cs) point
      (c :: cs ++ List.replicate (point.toNat - (c :: cs).length) '0' ++ ['.', '0']) := by
  generalize hcount : point.toNat - (c :: cs).length = count
  have hlength : (c :: cs).length = cs.length + 1 := rfl
  refine ⟨c, cs ++ List.replicate count '0', '0', [], rfl, fun d hd => ?_, by simp, .inl hne, ?_,
    ?_⟩
  · rcases List.mem_append.1 (show d ∈ (c :: cs) ++ List.replicate _ '0' from hd) with hd | hd
    · exact hcs d hd
    · exact isDigit_zeros count d hd
  · rw [List.length_append, List.length_replicate]
    omega
  · have hvalue : Nat.ofDigitChars 10 (c :: (cs ++ List.replicate count '0') ++ ['0']) 0
        = Nat.ofDigitChars 10 (c :: cs) 0 * 10 ^ count * 10 := by
      rw [← List.cons_append, Nat.ofDigitChars_append, Nat.ofDigitChars_append,
        Nat.ofDigitChars_replicate_zero]
      simp [Nat.ofDigitChars_cons, Nat.mul_comm]
    rw [hvalue, show point - ((c :: cs).length : Int) = count by omega, zpow_natCast]
    push_cast
    rw [List.length_singleton, Nat.cast_one, zpow_neg, zpow_one]
    ring

/-- The point stands between the digits. -/
theorem plainForm_within (hpositive : 0 < point) (hlength : point.toNat < (c :: cs).length) :
    PlainForm (c :: cs) point
      ((c :: cs).take point.toNat ++ '.' :: (c :: cs).drop point.toNat) := by
  rw [List.length_cons] at hlength
  obtain ⟨before, hbefore⟩ : ∃ before, point.toNat = before + 1 := ⟨point.toNat - 1, by omega⟩
  rw [hbefore, List.take_succ_cons, List.drop_succ_cons]
  cases hafter : cs.drop before with
  | nil =>
    have hall := List.drop_eq_nil_iff.1 hafter
    omega
  | cons f fs =>
    refine ⟨c, cs.take before, f, fs, rfl, fun d hd => ?_, fun d hd => ?_, .inl hne, ?_, ?_⟩
    · rcases List.mem_cons.1 hd with rfl | hd
      · exact hcs _ (List.mem_cons_self ..)
      · exact hcs d (List.mem_cons_of_mem _ (List.mem_of_mem_take hd))
    · rw [← hafter] at hd
      exact hcs d (List.mem_cons_of_mem _ (List.mem_of_mem_drop hd))
    · have hle := List.length_take_le before cs
      omega
    · have hcount : ((f :: fs).length : Int) = cs.length - before := by
        rw [← hafter, List.length_drop]
        omega
      rw [List.cons_append, ← hafter, List.take_append_drop, hafter, hcount, List.length_cons]
      congr 2
      omega

/-- The text without an exponent, wherever the point stands. -/
theorem plainForm_plainText (point : Int) :
    PlainForm (c :: cs) point (Double.plainText (c :: cs) point).toList := by
  rw [Double.plainText]
  split
  · next hpoint =>
    rw [String.toList_append, String.toList_ofList, String.toList_ofList]
    exact plainForm_below hcs hpoint
  · split
    · next hpositive hlength =>
      rw [String.toList_append, String.toList_ofList]
      exact plainForm_above hcs hne hlength
    · next hpositive hlength =>
      rw [String.toList_append, String.toList_append, String.toList_ofList, String.toList_ofList,
        String.toList_ofList, List.append_assoc]
      exact plainForm_within hcs hne (not_le.1 hpositive) (not_le.1 hlength)

/-- The form without an exponent. -/
theorem readsDouble_plainText (negative : Bool) {point : Int} (hpoint : point ≤ 16) :
    ReadsDouble (signChars negative ++ (Double.plainText (c :: cs) point).toList) := by
  obtain ⟨a, as, f, fs, htext, has, hfs, hfirst, hshort, -⟩ := plainForm_plainText hcs hne point
  rw [htext]
  exact readsDouble_plain negative has hfs hfirst (by omega)

end Digits

/-- The characters of the form with an exponent, whose digits are those of its absolute value. -/
theorem toList_exponentText {c e : Char} {cs es : List Char} {exponent : Int}
    (hdigits : Nat.toDigits 10 exponent.natAbs = e :: es) :
    (Double.exponentText (c :: cs) exponent).toList
      = c :: (if cs = [] then [] else '.' :: cs)
        ++ 'e' :: (if decide (exponent < 0) then '-' else '+') :: e :: es := by
  have hmark : (if 0 ≤ exponent then "e+" else "e-").toList
      = ['e', if decide (exponent < 0) then '-' else '+'] := by
    by_cases hbelow : exponent < 0
    · simp [hbelow, not_le.2 hbelow]
    · simp [hbelow, not_lt.1 hbelow]
  have hexponent : (toString exponent.natAbs).toList = e :: es := by
    rw [Nat.toString_eq_repr, Nat.toList_repr, hdigits]
  cases cs with
  | nil =>
    rw [Double.exponentText, String.toList_append, String.toList_append, hmark, hexponent]
    simp [Char.toString]
  | cons d ds =>
    rw [Double.exponentText, String.toList_append, String.toList_append, hmark, hexponent]
    · simp [String.toList_append, Char.toString]
    · exact fun hnil => by cases hnil

/-- A sign and an absolute value are an exponent again. -/
theorem signed_natAbs (exponent : Int) :
    (if decide (exponent < 0) then -(exponent.natAbs : Int) else exponent.natAbs) = exponent := by
  by_cases hbelow : exponent < 0
  · rw [if_pos (decide_eq_true hbelow)]
    omega
  · rw [if_neg (by simpa using hbelow)]
    omega

/-- The form with an exponent. -/
theorem readsDouble_exponentText (negative : Bool) {c : Char} {cs : List Char}
    (hcs : ∀ d ∈ c :: cs, d.isDigit = true) {exponent : Int} {y : Double}
    (hy : (Scaled.ofDigits [digitValue c] (cs.map digitValue) exponent).toDouble? negative = some y)
    (hrange : y.InRange) :
    ReadsDouble (signChars negative ++ (Double.exponentText (c :: cs) exponent).toList) := by
  have hes := isDigit_toDigits exponent.natAbs
  have hvalue := Nat.ofDigitChars_ten_toDigits (n := exponent.natAbs)
  obtain ⟨e, es, htoDigits⟩ : ∃ e es, Nat.toDigits 10 exponent.natAbs = e :: es := by
    cases htoDigits : Nat.toDigits 10 exponent.natAbs with
    | nil => exact absurd htoDigits Nat.toDigits_ne_nil
    | cons e es => exact ⟨e, es, rfl⟩
  rw [htoDigits] at hes hvalue
  rw [toList_exponentText htoDigits]
  refine readsDouble_scientific negative (decide (exponent < 0)) (hcs c (List.mem_cons_self ..))
    (fun d hd => hcs d (List.mem_cons_of_mem _ hd)) hes ?_ hrange
  rw [hvalue, signed_natAbs]
  exact hy

end Numeral

end Json

/-! ## Texts of doubles -/

namespace Decimal.Double

open Json (digitValue isDigit_toDigits toDigits_head)
open Json.Numeral (ReadsDouble signChars toList_sign readsDouble_plainText readsDouble_exponentText)

theorem shortest_largest (negative : Bool) :
    (⟨negative, 9007199254740991, 971⟩ : Double).shortest = (17976931348623157, 292) := by
  cases negative <;> decide +kernel

theorem toDouble?_largest (negative : Bool) :
    (⟨17976931348623157, 292⟩ : Scaled).toDouble? negative
      = some ⟨negative, 9007199254740991, 971⟩ := by
  cases negative <;> decide +kernel

/-- Of all doubles but the largest the numbers that round to it do not lie beyond the middle of
    the two largest. -/
theorem InRange.highEnd_le {x : Double} (h : x.InRange)
    (hne : ¬ (x.mantissa = 9007199254740991 ∧ x.exponent = maxExponent)) :
    x.highEnd ≤ lastMidpoint := by
  have hstep : (0 : ℚ) < 2 ^ (maxExponent - 1) := by positivity
  rw [highEnd, lastMidpoint]
  rcases lt_or_eq_of_le h.exponent with hless | hequal
  · have hmantissa : (x.mantissa : ℚ) ≤ 2 ^ 53 - 1 := by
      have hle : x.mantissa + 1 ≤ 2 ^ 53 := h.mantissa
      have hcast : (x.mantissa : ℚ) + 1 ≤ 2 ^ 53 := by exact_mod_cast hle
      linarith
    have hpower : (2 : ℚ) ^ x.exponent ≤ 2 ^ (maxExponent - 1) :=
      zpow_le_zpow_right₀ (by norm_num) (by omega)
    calc (x.mantissa + 1 / 2 : ℚ) * 2 ^ x.exponent
        ≤ (2 ^ 53 - 1 + 1 / 2) * 2 ^ (maxExponent - 1) :=
          mul_le_mul (by linarith) hpower (by positivity) (by norm_num)
      _ ≤ (2 ^ 54 - 3) * 2 ^ (maxExponent - 1) :=
          mul_le_mul_of_nonneg_right (by norm_num) hstep.le
  · have hless : x.mantissa + 2 ≤ 2 ^ 53 := by
      have hlt := h.mantissa
      have hne' : x.mantissa ≠ 9007199254740991 := fun he => hne ⟨he, hequal⟩
      omega
    have hmantissa : (x.mantissa : ℚ) + 2 ≤ 2 ^ 53 := by exact_mod_cast hless
    rw [hequal, two_zpow_double maxExponent]
    nlinarith

/-- The digits of the largest double end in no zero. -/
theorem zeros_of_largest {n zeros : Nat} (h : 17976931348623157 = n * 10 ^ zeros) : zeros = 0 := by
  refine Nat.eq_zero_of_not_pos fun hzeros => ?_
  obtain ⟨more, rfl⟩ := Nat.exists_eq_succ_of_ne_zero hzeros.ne'
  have hten : 17976931348623157 = n * 10 ^ more * 10 := by
    rw [Nat.mul_assoc, ← Nat.pow_succ]
    exact h
  omega

/-- The digits of a double, without the zeros at their end, make a literal that is read. -/
theorem exists_toDouble_of_picked {x : Double} (h : x.InRange) (hx : 0 < x.mantissa)
    (hpicked : x.Picked x.shortest.1 x.shortest.2) {n zeros : Nat}
    (hn : x.shortest.1 = n * 10 ^ zeros) (negative : Bool) :
    ∃ y, (⟨n, x.shortest.2 + zeros⟩ : Scaled).toDouble? negative = some y ∧ y.InRange := by
  have hpositive : 0 < n := by
    refine Nat.pos_of_ne_zero fun hzero => ?_
    have hpos := hpicked.positive
    rw [hn, hzero, Nat.zero_mul] at hpos
    exact absurd hpos (lt_irrefl 0)
  have hshort : n ≤ tenTo 17 := by
    refine le_trans ?_ hpicked.short
    rw [hn]
    exact Nat.le_mul_of_pos_right n (Nat.pow_pos (by decide))
  by_cases hlargest : x.mantissa = 9007199254740991 ∧ x.exponent = maxExponent
  · -- the digits of the largest double are known
    obtain ⟨sign, mantissa, exponent⟩ := x
    obtain ⟨rfl, rfl⟩ := hlargest
    have hshortest : (⟨sign, 9007199254740991, maxExponent⟩ : Double).shortest
        = (17976931348623157, 292) := shortest_largest sign
    rw [hshortest] at hn ⊢
    obtain rfl := zeros_of_largest hn
    rw [Nat.pow_zero, Nat.mul_one] at hn
    rw [← hn]
    exact ⟨_, toDouble?_largest negative, h.mantissa, h.exponent⟩
  · rcases le_total (x.shortest.2 + zeros) 0 with hnonpos | hnonneg
    · exact Scaled.exists_toDouble_of_nonpos negative (hshort.trans (by decide)) hnonpos
    · obtain ⟨k, hk⟩ := Int.eq_ofNat_of_zero_le hnonneg
      rw [hk]
      refine Scaled.exists_toDouble_of_le negative hpositive hshort ?_
      have hwithin := hpicked.within.trans (h.highEnd_le hlargest)
      have hvalue : (x.shortest.1 : ℚ) * 10 ^ x.shortest.2 = (n * tenTo k : Nat) := by
        push_cast
        rw [cast_tenTo, ← zpow_natCast, show ((k : Nat) : Int) = x.shortest.2 + zeros from hk.symm,
          zpow_add₀ (by norm_num), zpow_natCast, hn]
        push_cast
        ring
      rw [← hvalue]
      exact hwithin

/-- The digits of a positive number without the zeros at their end: the first is not zero, and
    they make the number but for a power of ten. -/
theorem exists_stripped {n : Nat} (h : 0 < n) :
    ∃ c cs zeros, stripZeros (Nat.toDigits 10 n) = c :: cs ∧ digitValue c ≠ 0
      ∧ (∀ d ∈ c :: cs, d.isDigit = true)
      ∧ n = Nat.ofDigitChars 10 (c :: cs) 0 * 10 ^ zeros
      ∧ (Nat.toDigits 10 n).length = cs.length + 1 + zeros := by
  obtain ⟨first, rest, hdigits, -, hfirst⟩ := toDigits_head h
  obtain ⟨zeros, hzeros⟩ := exists_stripZeros (Nat.toDigits 10 n)
  cases hstripped : stripZeros (Nat.toDigits 10 n) with
  | nil =>
    -- then all digits would be zeros, the first one too
    rw [hstripped, List.nil_append] at hzeros
    have hmem : first ∈ List.replicate zeros '0' := by
      rw [← hzeros, hdigits]
      exact List.mem_cons_self ..
    rw [List.eq_of_mem_replicate hmem] at hfirst
    exact absurd rfl hfirst
  | cons c cs =>
    rw [hstripped] at hzeros
    have hhead : c = first := by
      rw [hdigits, List.cons_append] at hzeros
      exact (List.cons.inj hzeros).1.symm
    refine ⟨c, cs, zeros, rfl, hhead ▸ hfirst, fun d hd => ?_, ?_, ?_⟩
    · refine isDigit_toDigits n d ?_
      rw [hzeros]
      exact List.mem_append_left _ hd
    · have hvalue := Nat.ofDigitChars_ten_toDigits (n := n)
      rw [hzeros, Nat.ofDigitChars_append, Nat.ofDigitChars_replicate_zero, Nat.mul_comm] at hvalue
      exact hvalue.symm
    · rw [hzeros, List.length_append, List.length_replicate, List.length_cons]

/-- The text of a double other than zero, from its digits. -/
theorem text_of_shortest {x : Double} (hx : x.mantissa ≠ 0) {n : Nat} {place : Int}
    (hshortest : x.shortest = (n, place)) :
    x.text = (if x.negative then "-" else "")
      ++ if plainExponents.1 ≤ (Nat.toDigits 10 n).length + place - 1
          && (Nat.toDigits 10 n).length + place - 1 ≤ plainExponents.2 then
        plainText (stripZeros (Nat.toDigits 10 n)) ((Nat.toDigits 10 n).length + place)
      else exponentText (stripZeros (Nat.toDigits 10 n)) ((Nat.toDigits 10 n).length + place - 1) := by
  rw [text, hshortest, if_neg hx]
  show (if _ then _ else _) = _
  split
  · rfl
  · rfl

/-- Digits without the zeros at their end, as a literal with one digit before the point. -/
theorem ofDigits_stripped {c : Char} {cs : List Char} {n zeros count : Nat} (place : Int)
    (hn : n = Nat.ofDigitChars 10 (c :: cs) 0 * 10 ^ zeros) (hlimit : n ≤ Scaled.limit)
    (hcount : count = cs.length + 1 + zeros) :
    Scaled.ofDigits [digitValue c] (cs.map digitValue) (count + place - 1)
      = ⟨Nat.ofDigitChars 10 (c :: cs) 0, place + zeros⟩ := by
  have hsignificand := Json.numberOf_digitValue 0 (c :: cs)
  have hle : numberOf 0 ((c :: cs).map digitValue) ≤ Scaled.limit := by
    rw [hsignificand]
    refine le_trans ?_ hlimit
    rw [hn]
    exact Nat.le_mul_of_pos_right _ (Nat.pow_pos (by decide))
  rw [List.map_cons] at hle
  rw [Scaled.ofDigits_singleton hle, ← List.map_cons (f := digitValue), hsignificand,
    List.length_map, hcount]
  congr 1
  push_cast
  omega

/-- The text of a double in range is read as a double in range. -/
theorem readsDouble_text {x : Double} (h : x.InRange) : ReadsDouble x.text.toList := by
  have hzero : x.text = (if x.negative then "-" else "") ++ "0.0" → ReadsDouble x.text.toList := by
    intro htext
    rw [htext, String.toList_append, toList_sign]
    exact Json.Numeral.readsDouble_zero x.negative
  by_cases hx : x.mantissa = 0
  · exact hzero (by rw [text, if_pos hx])
  · have hpositive := Nat.pos_of_ne_zero hx
    rcases shortest_spec hpositive with hnone | hpicked
    · -- no digits would be written as those of zero
      exact hzero (by rw [text_of_shortest hx hnone]; rfl)
    · obtain ⟨c, cs, zeros, hstripped, hfirst, hdigits, hn, hlength⟩ :=
        exists_stripped hpicked.positive
      have hshortest : x.shortest = (x.shortest.1, x.shortest.2) := rfl
      rw [text_of_shortest hx hshortest, String.toList_append, toList_sign, hstripped]
      split
      · next hplain =>
        rw [Bool.and_eq_true, decide_eq_true_eq, decide_eq_true_eq] at hplain
        have hmost : ((Nat.toDigits 10 x.shortest.1).length : Int) + x.shortest.2 - 1 ≤ 15 :=
          hplain.2
        exact readsDouble_plainText hdigits hfirst x.negative (by omega)
      · obtain ⟨y, hy, hrange⟩ := exists_toDouble_of_picked h hpositive hpicked hn x.negative
        refine readsDouble_exponentText x.negative hdigits ?_ hrange
        rw [ofDigits_stripped x.shortest.2 hn (hpicked.short.trans (by decide)) hlength]
        exact hy

end Decimal.Double

/-! ## Numbers in range -/

namespace Number

/-- An integer of 64 bits or a finite double: the numbers that there are. -/
def InRange : Number → Prop
  | .integer i => fits i = true
  | .float x => x.InRange

/-- Reading a number that was printed gives a number in range. -/
theorem stable_inRange : Stable InRange where
  whole n h := by
    cases n with
    | integer i => exact h
    | float x => exact h.elim
  legible n h := by
    cases n with
    | integer i => exact legible_integer h
    | float x =>
      obtain ⟨numeral, y, hnumeral, hcomplete, hvalue, -⟩ := Decimal.Double.readsDouble_text h
      exact ⟨numeral, _, hnumeral, hcomplete, hvalue⟩
  reread n h := by
    cases n with
    | integer i => rwa [reread_integer h]
    | float x =>
      obtain ⟨numeral, y, hnumeral, hcomplete, hvalue, hrange⟩ := Decimal.Double.readsDouble_text h
      have hreread : (Number.float x).reread = .float y := by
        have hnumeral' : (Number.float x).numeral? = some numeral := hnumeral
        simp [reread, hnumeral', hvalue]
      rw [hreread]
      exact hrange

end Number

end PropertyGraph
