/-
  PropertyGraph.Proofs.Json.NumberText

  The text of a number as the scanner sees it.  A numeral is begun by its first character
  and goes on with the others; what a number reads as after it has been printed is the value
  of the numeral of its text.  An integer of 64 bits reads as itself.  Of a double this
  module says nothing: whether its text reads at all is a question of its size.
-/
import PropertyGraph.Json.Printer
import PropertyGraph.Json.Token

namespace PropertyGraph

namespace Json.Numeral

/-! ## Numerals of texts -/

/-- A numeral after its first character. -/
def begun? (c : Char) : Option Numeral :=
  if c = '-' then some (start .sign true [])
  else match digit? c with
    | some 0 => some (start .zero false [0])
    | some d => some (start .whole false [d])
    | none => none

/-- A numeral that goes on with some characters. -/
def extend? (n : Numeral) : List Char → Option Numeral
  | [] => some n
  | c :: rest => (n.step? c).bind fun next => extend? next rest

/-- The numeral of a text. -/
def ofChars? : List Char → Option Numeral
  | [] => none
  | c :: rest => (begun? c).bind fun n => n.extend? rest

theorem extend?_append (n : Numeral) (cs ds : List Char) :
    n.extend? (cs ++ ds) = (n.extend? cs).bind fun next => next.extend? ds := by
  induction cs generalizing n with
  | nil => rfl
  | cons c rest ih =>
    cases hstep : n.step? c with
    | none => simp [extend?, hstep]
    | some next => simp [extend?, hstep, ih]

/-- Whether a numeral may end where it stands. -/
def complete (n : Numeral) : Bool :=
  match n.stage with
  | .zero | .whole | .fraction | .exponent => true
  | _ => false

end Json.Numeral

/-! ## Digits -/

namespace Json

/-- The value of a character that is a digit. -/
def digitValue (c : Char) : Nat := c.toNat - 48

theorem digit?_of_isDigit {c : Char} (h : c.isDigit = true) : digit? c = some (digitValue c) := by
  simp [digit?, h, digitValue]

/-- A digit is one of ten characters. -/
theorem exists_digitChar {c : Char} (h : c.isDigit = true) : ∃ d < 10, c = Nat.digitChar d := by
  have hbounds : 48 ≤ c.toNat ∧ c.toNat ≤ 57 := by
    simpa [Char.isDigit, UInt32.le_iff_toNat_le] using h
  refine ⟨c.toNat - 48, by omega, ?_⟩
  have hval : (Nat.digitChar (c.toNat - 48)).toNat = c.toNat := by
    rw [Nat.toNat_digitChar_of_lt_ten (by omega)]
    omega
  exact Char.toNat_inj.1 hval.symm

/-- The number that digits stand for. -/
theorem foldl_digitValue (cs : List Char) (acc : Nat) :
    (cs.map digitValue).foldl (fun acc d => acc * 10 + d) acc = Nat.ofDigitChars 10 cs acc := by
  induction cs generalizing acc with
  | nil => simp
  | cons c rest ih =>
    rw [List.map_cons, List.foldl_cons, ih, Nat.ofDigitChars_cons]
    simp [digitValue, Nat.mul_comm]

/-- The digits of a positive number do not start with a zero. -/
theorem toDigits_head {n : Nat} (h : 0 < n) :
    ∃ c rest, Nat.toDigits 10 n = c :: rest ∧ c.isDigit = true ∧ digitValue c ≠ 0 := by
  induction n using Nat.strongRecOn with
  | _ n ih =>
    by_cases hlt : n < 10
    · refine ⟨Nat.digitChar n, [], Nat.toDigits_of_lt_base hlt, ?_, ?_⟩
      · exact Nat.isDigit_of_mem_toDigits (b := 10) (n := n) (by decide) (by decide)
          (by simp [Nat.toDigits_of_lt_base hlt])
      · rw [digitValue, Nat.toNat_digitChar_sub_48_of_lt_ten hlt]
        omega
    · obtain ⟨c, rest, hrest, hdigit, hne⟩ := ih (n / 10) (by omega) (by omega)
      refine ⟨c, rest ++ [Nat.digitChar (n % 10)], ?_, hdigit, hne⟩
      rw [Nat.toDigits_of_base_le (by decide) (by omega), hrest, List.cons_append]

/-- All characters of a number in decimal are digits. -/
theorem isDigit_toDigits (n : Nat) : ∀ c ∈ Nat.toDigits 10 n, c.isDigit = true :=
  fun _ hc => Nat.isDigit_of_mem_toDigits (by decide) (by decide) hc

namespace Numeral

/-- Digits before the point are collected in reverse. -/
theorem extend?_whole {cs : List Char} (hcs : ∀ c ∈ cs, c.isDigit = true) (n : Numeral)
    (hstage : n.stage = .whole) :
    n.extend? cs = some { n with whole := (cs.map digitValue).reverse ++ n.whole } := by
  induction cs generalizing n with
  | nil => rfl
  | cons c rest ih =>
    have hc : digit? c = some (digitValue c) := digit?_of_isDigit (hcs c (List.mem_cons_self ..))
    have hstep : n.step? c = some { n with whole := digitValue c :: n.whole } := by
      simp [step?, hstage, hc]
    have hrest := ih (fun d hd => hcs d (List.mem_cons_of_mem _ hd))
      { n with whole := digitValue c :: n.whole } hstage
    simp only [extend?, hstep, Option.bind_some, hrest]
    simp

/-- A digit other than zero begins the digits before the point, with or without a sign. -/
theorem begun?_digit {c : Char} (hc : c.isDigit = true) (hne : digitValue c ≠ 0) :
    begun? c = some (start .whole false [digitValue c]) := by
  have hminus : c ≠ '-' := by
    rintro rfl
    simp at hc
  cases hd : digitValue c with
  | zero => exact absurd hd hne
  | succ d => simp [begun?, hminus, digit?_of_isDigit hc, hd]

theorem step?_sign_digit {c : Char} (hc : c.isDigit = true) (hne : digitValue c ≠ 0) :
    (start .sign true []).step? c = some (start .whole true [digitValue c]) := by
  cases hd : digitValue c with
  | zero => exact absurd hd hne
  | succ d => simp [start, step?, digit?_of_isDigit hc, hd]

/-- The numeral of a positive number in decimal. -/
theorem ofChars?_toDigits {n : Nat} (h : 0 < n) :
    ofChars? (Nat.toDigits 10 n)
      = some (start .whole false ((Nat.toDigits 10 n).map digitValue).reverse) := by
  obtain ⟨c, rest, hdigits, hc, hne⟩ := toDigits_head h
  have hall := isDigit_toDigits n
  rw [hdigits] at hall ⊢
  rw [ofChars?, begun?_digit hc hne, Option.bind_some,
    extend?_whole (fun d hd => hall d (List.mem_cons_of_mem _ hd)) _ rfl]
  simp [start]

/-- The numeral of a negative number in decimal. -/
theorem ofChars?_minus_toDigits {n : Nat} (h : 0 < n) :
    ofChars? ('-' :: Nat.toDigits 10 n)
      = some (start .whole true ((Nat.toDigits 10 n).map digitValue).reverse) := by
  obtain ⟨c, rest, hdigits, hc, hne⟩ := toDigits_head h
  have hall := isDigit_toDigits n
  rw [hdigits] at hall ⊢
  have hminus : begun? '-' = some (start .sign true []) := rfl
  rw [ofChars?, hminus, Option.bind_some, extend?, step?_sign_digit hc hne, Option.bind_some,
    extend?_whole (fun d hd => hall d (List.mem_cons_of_mem _ hd)) _ rfl]
  simp [start]

/-- The value of a numeral that has only digits before the point. -/
theorem value?_whole {n : Nat} {negative : Bool} (h : 0 < n)
    (hfits : Number.fits (if negative then -(n : Int) else n) = true) :
    (start .whole negative ((Nat.toDigits 10 n).map digitValue).reverse).value?
      = some (.integer (if negative then -(n : Int) else n)) := by
  have hmagnitude : ((Nat.toDigits 10 n).map digitValue).foldl (fun acc d => acc * 10 + d) 0 = n := by
    rw [foldl_digitValue, Nat.ofDigitChars_ten_toDigits]
  have hne : (n == 0) = false := by simp; omega
  simp [value?, start, isDecimal, hmagnitude, hfits, hne]

end Numeral

end Json

/-! ## What a number reads as -/

namespace Number

/-- The numeral that the text of a number is read as. -/
def numeral? (n : Number) : Option Json.Numeral := Json.Numeral.ofChars? n.text.toList

/-- A number whose text can be read, as some number. -/
def Legible (n : Number) : Prop :=
  ∃ numeral value, n.numeral? = some numeral ∧ numeral.complete = true
    ∧ numeral.value? = some value

/-- The number that the text of a number is read as. -/
def reread (n : Number) : Number := (n.numeral?.bind Json.Numeral.value?).getD n

theorem text_ofNat (n : Nat) : (Number.integer n).text.toList = Nat.toDigits 10 n := by
  show (toString (n : Int)).toList = _
  rw [show toString (n : Int) = n.repr from rfl, Nat.toList_repr]

theorem text_negSucc (n : Nat) :
    (Number.integer (Int.negSucc n)).text.toList = '-' :: Nat.toDigits 10 (n + 1) := by
  show (toString (Int.negSucc n)).toList = _
  rw [show toString (Int.negSucc n) = "-" ++ (n + 1).repr from rfl, String.toList_append,
    Nat.toList_repr]
  rfl

/-- An integer of 64 bits is read as itself. -/
theorem numeral?_integer {i : Int} (h : fits i = true) :
    ∃ numeral, (Number.integer i).numeral? = some numeral ∧ numeral.complete = true
      ∧ numeral.value? = some (.integer i) := by
  cases i with
  | ofNat n =>
    have htext : (Number.integer (Int.ofNat n)).text.toList = Nat.toDigits 10 n := text_ofNat n
    cases n with
    | zero =>
      refine ⟨.start .zero false [0], ?_, rfl, rfl⟩
      rw [numeral?, htext, Nat.toDigits_zero]
      rfl
    | succ n =>
      have hvalue := @Json.Numeral.value?_whole (n + 1) false (Nat.succ_pos n) h
      refine ⟨_, ?_, rfl, hvalue⟩
      rw [numeral?, htext, Json.Numeral.ofChars?_toDigits (Nat.succ_pos n)]
  | negSucc n =>
    have hvalue := @Json.Numeral.value?_whole (n + 1) true (Nat.succ_pos n) h
    refine ⟨_, ?_, rfl, hvalue⟩
    rw [numeral?, text_negSucc, Json.Numeral.ofChars?_minus_toDigits (Nat.succ_pos n)]

theorem legible_integer {i : Int} (h : fits i = true) : (Number.integer i).Legible := by
  obtain ⟨numeral, hnumeral, hcomplete, hvalue⟩ := numeral?_integer h
  exact ⟨numeral, _, hnumeral, hcomplete, hvalue⟩

theorem reread_integer {i : Int} (h : fits i = true) :
    (Number.integer i).reread = .integer i := by
  obtain ⟨numeral, hnumeral, -, hvalue⟩ := numeral?_integer h
  simp [reread, hnumeral, hvalue]

/-- An integer of 64 bits; a double is none. -/
def Whole : Number → Prop
  | .integer i => fits i = true
  | .float _ => False

theorem Whole.legible : {n : Number} → n.Whole → n.Legible
  | .integer _, h => legible_integer h

theorem Whole.reread : {n : Number} → n.Whole → n.reread = n
  | .integer _, h => reread_integer h

/-- What a legible number reads as is the value of its numeral. -/
theorem Legible.value {n : Number} (h : n.Legible) :
    ∃ numeral, n.numeral? = some numeral ∧ numeral.complete = true
      ∧ numeral.value? = some n.reread := by
  obtain ⟨numeral, value, hnumeral, hcomplete, hvalue⟩ := h
  exact ⟨numeral, hnumeral, hcomplete, by simp [reread, hnumeral, hvalue]⟩

/-- A property of numbers that all numbers of a document may have: integers of 64 bits have
    it, it makes a number legible, and reading a number keeps it. -/
structure Stable (p : Number → Prop) : Prop where
  whole : ∀ n : Number, n.Whole → p n
  legible : ∀ n, p n → n.Legible
  reread : ∀ n, p n → p n.reread

theorem stable_whole : Stable Whole where
  whole _ h := h
  legible _ h := h.legible
  reread _ h := h.reread.symm ▸ h

/-- A property of numbers that all numbers of a document may have, and that documents give back. -/
structure Lasting (p : Number → Prop) : Prop extends Stable p where
  same : ∀ n, p n → n.reread = n

theorem lasting_whole : Lasting Whole where
  toStable := stable_whole
  same _ h := h.reread

end Number

end PropertyGraph
