/-
  PropertyGraph.Proofs.Decimal.Digits

  Literals from their digits.  Digits that fit are all taken in, and the literal is then the
  number that they make; a literal of few digits before the point and no positive exponent
  is always read.
-/
import PropertyGraph.Decimal.Shortest
import PropertyGraph.Proofs.Decimal.Literal

namespace PropertyGraph.Decimal

/-- The number that digits make, behind those of another number. -/
def numberOf (start : Nat) (digits : List Nat) : Nat := digits.foldl (fun acc d => acc * 10 + d) start

theorem le_numberOf (start : Nat) (digits : List Nat) : start ≤ numberOf start digits := by
  induction digits generalizing start with
  | nil => exact le_refl _
  | cons d rest ih =>
    have hrest := ih (start * 10 + d)
    show start ≤ numberOf (start * 10 + d) rest
    omega

/-- Digits make a number below the power of ten of their count. -/
theorem numberOf_lt {digits : List Nat} (h : ∀ d ∈ digits, d < 10) (start : Nat) :
    numberOf start digits < (start + 1) * tenTo digits.length := by
  induction digits generalizing start with
  | nil =>
    show start < (start + 1) * 1
    omega
  | cons d rest ih =>
    have hd := h d (List.mem_cons_self ..)
    have hrest := ih (fun x hx => h x (List.mem_cons_of_mem _ hx)) (start * 10 + d)
    show numberOf (start * 10 + d) rest < (start + 1) * tenTo (rest.length + 1)
    calc numberOf (start * 10 + d) rest < (start * 10 + d + 1) * tenTo rest.length := hrest
      _ ≤ ((start + 1) * 10) * tenTo rest.length := Nat.mul_le_mul_right _ (by omega)
      _ = (start + 1) * tenTo (rest.length + 1) := by
          rw [tenTo, tenTo, Nat.pow_eq, Nat.pow_eq, Nat.pow_succ]
          ring

namespace Scaled

/-! ## Taking in digits -/

/-- Digits before the point that fit are all taken in. -/
theorem whole_eq {digits : List Nat} {start : Nat} (h : numberOf start digits ≤ limit) :
    whole start digits = ⟨numberOf start digits, 0⟩ := by
  induction digits generalizing start with
  | nil => rfl
  | cons d rest ih =>
    have hfits : start * 10 + d ≤ limit := (le_numberOf _ rest).trans h
    rw [whole, if_pos hfits]
    exact ih h

/-- Digits after the point that fit are all taken in. -/
theorem fraction_eq {digits : List Nat} {x : Scaled} (h : numberOf x.significand digits ≤ limit) :
    fraction x digits = ⟨numberOf x.significand digits, x.exponent - digits.length⟩ := by
  induction digits generalizing x with
  | nil =>
    rw [fraction, List.length_nil]
    simp [numberOf]
  | cons d rest ih =>
    have hfits : x.significand * 10 + d ≤ limit := (le_numberOf _ rest).trans h
    rw [fraction, if_pos hfits, ih h, List.length_cons]
    simp only [numberOf, List.foldl_cons]
    congr 1
    omega

/-- Digits after the point do not raise the exponent, and the significand stays in range. -/
theorem fraction_le {digits : List Nat} {x : Scaled} (h : x.significand ≤ limit) :
    (fraction x digits).significand ≤ limit ∧ (fraction x digits).exponent ≤ x.exponent := by
  induction digits generalizing x with
  | nil => exact ⟨h, le_refl _⟩
  | cons d rest ih =>
    rw [fraction]
    split
    · next hfits =>
      obtain ⟨hsignificand, hexponent⟩ := ih (x := ⟨x.significand * 10 + d, x.exponent - 1⟩) hfits
      refine ⟨hsignificand, hexponent.trans ?_⟩
      show x.exponent - 1 ≤ x.exponent
      omega
    · exact ⟨h, le_refl _⟩

/-! ## Literals that are read -/

/-- A literal of few digits before the point and no positive exponent is read. -/
theorem exists_ofDigits_of_nonpos (negative : Bool) {before after : List Nat} {exponent : Int}
    (hdigits : ∀ d ∈ before, d < 10) (hshort : before.length ≤ 16) (hexponent : exponent ≤ 0) :
    ∃ y, (ofDigits before after exponent).toDouble? negative = some y ∧ y.InRange := by
  have hnumber : numberOf 0 before ≤ limit := by
    have hlt := numberOf_lt hdigits 0
    have hle : tenTo before.length ≤ tenTo 16 := tenTo_le hshort
    have hlimit : tenTo 16 ≤ limit := by decide
    omega
  obtain ⟨hsignificand, hle⟩ : (fraction ⟨numberOf 0 before, 0⟩ after).significand ≤ limit
      ∧ (fraction ⟨numberOf 0 before, 0⟩ after).exponent ≤ 0 := fraction_le hnumber
  rw [← whole_eq hnumber] at hsignificand hle
  have hwhole : (whole 0 before).exponent = 0 := by rw [whole_eq hnumber]
  refine exists_toDouble_of_nonpos negative hsignificand ?_
  show (fraction (whole 0 before) after).exponent + exponent ≤ 0
  omega

/-- A literal with one digit before the point, as a significand and a power of ten. -/
theorem ofDigits_singleton {d : Nat} {after : List Nat} (h : numberOf 0 (d :: after) ≤ limit)
    (exponent : Int) :
    ofDigits [d] after exponent = ⟨numberOf 0 (d :: after), exponent - after.length⟩ := by
  have hnumber : numberOf 0 (d :: after) = numberOf d after := by
    show numberOf (0 * 10 + d) after = _
    rw [Nat.zero_mul, Nat.zero_add]
  rw [hnumber] at h ⊢
  have hwhole : whole 0 [d] = ⟨d, 0⟩ := by
    have hd : numberOf 0 [d] = d := by simp [numberOf]
    have hfits : numberOf 0 [d] ≤ limit := by
      rw [hd]
      exact (le_numberOf d after).trans h
    rw [whole_eq hfits, hd]
  rw [ofDigits, hwhole, fraction_eq h]
  show (⟨numberOf d after, 0 - (after.length : Int) + exponent⟩ : Scaled) = _
  congr 1
  omega

end Scaled

namespace Double

/-! ## Zeros at the end -/

/-- Digits are the stripped ones and as many zeros as were dropped. -/
theorem exists_stripZeros (digits : List Char) :
    ∃ zeros, digits = stripZeros digits ++ List.replicate zeros '0' := by
  refine ⟨(digits.reverse.takeWhile (· == '0')).length, ?_⟩
  have hzeros : digits.reverse.takeWhile (· == '0')
      = List.replicate (digits.reverse.takeWhile (· == '0')).length '0' := by
    refine List.eq_replicate_of_mem fun c hc => ?_
    exact beq_iff_eq.1 (List.all_eq_true.1 List.all_takeWhile c hc)
  have hsplit := congrArg List.reverse
    (List.takeWhile_append_dropWhile (p := (· == '0')) (l := digits.reverse))
  rw [List.reverse_append, List.reverse_reverse, hzeros, List.reverse_replicate] at hsplit
  exact hsplit.symm

end Double

end PropertyGraph.Decimal
