/-
  PropertyGraph.Proofs.Decimal.Shortest

  What is known of the digits that a double is written with: there are at most 17 of them,
  the first is not zero, and the number that they make does not lie above the numbers that
  round to the double.  That the digits are found, and that they are the fewest, is not
  needed for reading the text again.
-/
import PropertyGraph.Decimal.Shortest
import PropertyGraph.Proofs.Decimal.Nearest

namespace PropertyGraph.Decimal

/-! ## Counting digits -/

theorem lt_tenTo_digitCount (n : Nat) : n < tenTo (digitCount n) := by
  unfold digitCount
  split
  · next h => rw [h]; exact tenTo_pos 0
  · exact (Nat.length_toDigits_le_iff (by decide) Nat.length_toDigits_pos).1 (le_refl _)

theorem tenTo_digitCount_le {n : Nat} (h : 0 < n) : tenTo (digitCount n - 1) ≤ n := by
  rw [digitCount, if_neg h.ne']
  by_cases hone : (Nat.toDigits 10 n).length - 1 = 0
  · rw [hone]
    exact h
  · by_contra hless
    have hshort := (Nat.length_toDigits_le_iff (b := 10) (n := n) (by decide)
      (Nat.pos_of_ne_zero hone)).2 (not_le.1 hless)
    omega

namespace Double

/-- The point of a quotient stands behind all digits before it. -/
theorem lt_pointOf {num den : Nat} (hnum : 0 < num) (hden : 0 < den) :
    (num : ℚ) / den < 10 ^ pointOf num den := by
  have hpos : (0 : ℚ) < den := by exact_mod_cast hden
  unfold pointOf
  split
  · have hcount := lt_tenTo_digitCount (num / den)
    have hdiv : num < den * (num / den + 1) := Nat.lt_mul_div_succ num hden
    have hnat : num < den * tenTo (digitCount (num / den)) :=
      lt_of_lt_of_le hdiv (Nat.mul_le_mul_left den hcount)
    rw [zpow_natCast, div_lt_iff₀ hpos, mul_comm, ← cast_tenTo]
    exact_mod_cast hnat
  · next hless =>
    -- below one the zeros behind the point are counted by the inverse, rounded up and less one
    generalize hq : (den + num - 1) / num - 1 = q
    rcases Nat.eq_zero_or_pos q with hzero | hq'
    · rw [hzero]
      have hone : (num : ℚ) / den < 1 := by
        rw [div_lt_one hpos]
        exact_mod_cast not_le.1 hless
      calc (num : ℚ) / den < 1 := hone
        _ ≤ 10 ^ (1 - ((digitCount 0 : Nat) : Int)) := by norm_num [digitCount]
    · have hmul : num * q < den := by
        have hle := Nat.mul_div_le (den + num - 1) num
        have hsucc : (den + num - 1) / num = q + 1 := by omega
        rw [hsucc, Nat.mul_succ] at hle
        omega
      have hcount := tenTo_digitCount_le hq'
      have hnat : num * tenTo (digitCount q - 1) < den :=
        lt_of_le_of_lt (Nat.mul_le_mul_left num hcount) hmul
      have hpositive : 1 ≤ digitCount q := by
        rw [digitCount, if_neg hq'.ne']
        exact Nat.length_toDigits_pos
      have hexponent : (1 : Int) - (digitCount q : Int) = -((digitCount q - 1 : Nat) : Int) := by
        omega
      rw [hexponent, zpow_neg, zpow_natCast, ← cast_tenTo, div_lt_iff₀ hpos, ← div_eq_inv_mul,
        lt_div_iff₀ (by exact_mod_cast tenTo_pos _)]
      exact_mod_cast hnat

/-! ## Intervals -/

/-- The upper end of the numbers that round to a double. -/
def highEnd (x : Double) : ℚ := (x.mantissa + 1 / 2) * 2 ^ x.exponent

theorem interval_den_pos (x : Double) : 0 < x.interval.den := by
  unfold interval
  simp only
  split
  · exact Nat.one_pos
  · exact twoTo_pos _

theorem interval_high (x : Double) : (x.interval.high : ℚ) / x.interval.den = x.highEnd := by
  unfold interval highEnd
  simp only
  split
  · next h =>
    have hpower : (2 : ℚ) ^ x.exponent = 4 * 2 ^ (x.exponent - 2) := by
      rw [zpow_sub₀ (by norm_num)]
      norm_num
      ring
    rw [hpower, zpow_toNat 2 (by omega)]
    push_cast
    rw [cast_twoTo]
    ring
  · next h =>
    have hpower : (2 : ℚ) ^ x.exponent = 4 * 2 ^ (-(2 - x.exponent)) := by
      rw [show -(2 - x.exponent) = x.exponent - 2 by omega, zpow_sub₀ (by norm_num)]
      norm_num
      ring
    rw [hpower, zpow_neg, zpow_toNat 2 (by omega)]
    push_cast
    rw [cast_twoTo]
    field_simp
    ring

theorem interval_low_pos {x : Double} (h : 0 < x.mantissa) : 0 < x.interval.low := by
  unfold interval
  simp only
  refine Nat.mul_pos ?_ ?_
  · split <;> omega
  · split
    · exact twoTo_pos _
    · exact Nat.one_pos

theorem interval_value_pos {x : Double} (h : 0 < x.mantissa) : 0 < x.interval.value := by
  unfold interval
  simp only
  refine Nat.mul_pos (by omega) ?_
  split
  · exact twoTo_pos _
  · exact Nat.one_pos

/-- A decimal number in an interval is positive and not above the upper end. -/
theorem Interval.of_holds {i : Interval} (hden : 0 < i.den) (hlow : 0 < i.low) {digits : Nat}
    {place : Int} (h : i.holds digits place = true) :
    0 < digits ∧ (digits : ℚ) * 10 ^ place ≤ i.high / i.den := by
  have hpos : (0 : ℚ) < i.den := by exact_mod_cast hden
  -- both kinds of interval contain no more than the closed one
  have hclosed : i.low * (if 0 ≤ place then 1 else tenTo (-place).toNat)
        ≤ (if 0 ≤ place then digits * tenTo place.toNat * i.den else digits * i.den)
      ∧ (if 0 ≤ place then digits * tenTo place.toNat * i.den else digits * i.den)
        ≤ i.high * (if 0 ≤ place then 1 else tenTo (-place).toNat) := by
    unfold holds at h
    simp only at h
    split at h
    · rw [Bool.and_eq_true, decide_eq_true_eq, decide_eq_true_eq] at h
      exact h
    · rw [Bool.and_eq_true, decide_eq_true_eq, decide_eq_true_eq] at h
      exact ⟨h.1.le, h.2.le⟩
  obtain ⟨hleast, hmost⟩ := hclosed
  constructor
  · refine Nat.pos_of_ne_zero fun hzero => ?_
    rw [hzero] at hleast
    have hscale : 0 < (if 0 ≤ place then 1 else tenTo (-place).toNat) := by
      split
      · exact Nat.one_pos
      · exact tenTo_pos _
    have hpositive := Nat.mul_pos hlow hscale
    simp only [Nat.zero_mul, ite_self] at hleast
    omega
  · rw [le_div_iff₀ hpos]
    by_cases hplace : 0 ≤ place
    · rw [if_pos hplace, if_pos hplace, Nat.mul_one] at hmost
      rw [zpow_toNat 10 hplace, ← cast_tenTo]
      exact_mod_cast hmost
    · rw [if_neg hplace, if_neg hplace] at hmost
      rw [zpow_neg_toNat (by omega), ← cast_tenTo]
      have hten : (0 : ℚ) < tenTo (-place).toNat := by exact_mod_cast tenTo_pos _
      rw [mul_assoc, inv_mul_eq_div, ← mul_div_assoc, div_le_iff₀ hten]
      exact_mod_cast hmost

/-- What is known of the digits of a double. -/
structure Picked (x : Double) (digits : Nat) (place : Int) : Prop where
  positive : 0 < digits
  short : digits ≤ tenTo 17
  within : (digits : ℚ) * 10 ^ place ≤ x.highEnd

theorem Interval.of_pick {i : Interval} {point : Int} {count digits : Nat} {place : Int}
    (h : i.pick point count = some (digits, place)) :
    place = point - count ∧ i.holds digits place = true
      ∧ digits ≤ (if 0 ≤ place then i.value else i.value * tenTo (-place).toNat)
        / (if 0 ≤ place then i.den * tenTo place.toNat else i.den) + 1 := by
  unfold pick at h
  simp only at h
  generalize hbelow : (if 0 ≤ point - (count : Int) then i.value
    else i.value * tenTo (-(point - (count : Int))).toNat)
      / (if 0 ≤ point - (count : Int) then i.den * tenTo (point - (count : Int)).toNat else i.den)
      = below at h
  split at h
  · next hhere hthere =>
    obtain ⟨hdigits, rfl⟩ := Prod.mk.inj (Option.some.inj h)
    have heither : digits = below ∨ digits = below + 1 := hdigits ▸ ite_eq_or_eq _ _ _
    rcases heither with rfl | rfl
    · exact ⟨rfl, hhere, hbelow ▸ Nat.le_succ _⟩
    · exact ⟨rfl, hthere, hbelow ▸ le_refl _⟩
  · next hhere _ =>
    obtain ⟨rfl, rfl⟩ := Prod.mk.inj (Option.some.inj h)
    exact ⟨rfl, hhere, hbelow ▸ Nat.le_succ _⟩
  · next _ hthere =>
    obtain ⟨rfl, rfl⟩ := Prod.mk.inj (Option.some.inj h)
    exact ⟨rfl, hthere, hbelow ▸ le_refl _⟩
  · cases h

/-- The digits next to a value below a power of ten are no more than that power. -/
theorem digits_le {value den count : Nat} {place : Int} (hden : 0 < den)
    (h : (value : ℚ) / den < 10 ^ (place + count)) :
    (if 0 ≤ place then value else value * tenTo (-place).toNat)
        / (if 0 ≤ place then den * tenTo place.toNat else den) + 1 ≤ tenTo count := by
  have hpos : (0 : ℚ) < den := by exact_mod_cast hden
  rw [zpow_add₀ (by norm_num), zpow_natCast, ← cast_tenTo, div_lt_iff₀ hpos] at h
  refine Nat.succ_le_of_lt ?_
  by_cases hplace : 0 ≤ place
  · rw [if_pos hplace, if_pos hplace, Nat.div_lt_iff_lt_mul (Nat.mul_pos hden (tenTo_pos _))]
    rw [zpow_toNat 10 hplace, ← cast_tenTo] at h
    have hnat : value < tenTo place.toNat * tenTo count * den := by exact_mod_cast h
    calc value < tenTo place.toNat * tenTo count * den := hnat
      _ = tenTo count * (den * tenTo place.toNat) := by ring
  · rw [if_neg hplace, if_neg hplace, Nat.div_lt_iff_lt_mul hden]
    rw [zpow_neg_toNat (by omega), ← cast_tenTo] at h
    have hten : (0 : ℚ) < tenTo (-place).toNat := by exact_mod_cast tenTo_pos _
    rw [inv_mul_eq_div, div_mul_eq_mul_div, lt_div_iff₀ hten] at h
    exact_mod_cast h

/-- Either no digits are found, or they are as they should be. -/
theorem shortest_spec {x : Double} (h : 0 < x.mantissa) :
    x.shortest = (0, 0) ∨ x.Picked x.shortest.1 x.shortest.2 := by
  rw [shortest]
  cases hfind : (List.range 17).findSome? fun n =>
      x.interval.pick (pointOf x.interval.value x.interval.den) (n + 1) with
  | none => exact .inl (by simp only [Option.getD_none])
  | some found =>
    obtain ⟨digits, place⟩ := found
    simp only [Option.getD_some]
    obtain ⟨n, hn, hpick⟩ := List.exists_of_findSome?_eq_some hfind
    obtain ⟨hplace, hholds, hle⟩ := Interval.of_pick hpick
    obtain ⟨hpositive, hwithin⟩ :=
      Interval.of_holds x.interval_den_pos (interval_low_pos h) hholds
    refine .inr ⟨hpositive, ?_, x.interval_high ▸ hwithin⟩
    have hpoint := lt_pointOf (interval_value_pos h) x.interval_den_pos
    have hsum : pointOf x.interval.value x.interval.den = place + ((n + 1 : Nat) : Int) := by
      omega
    rw [hsum] at hpoint
    have hcount : n + 1 ≤ 17 := List.mem_range.1 hn
    exact hle.trans ((digits_le x.interval_den_pos hpoint).trans
      (Nat.pow_le_pow_right (by decide) hcount))

end Double

end PropertyGraph.Decimal
