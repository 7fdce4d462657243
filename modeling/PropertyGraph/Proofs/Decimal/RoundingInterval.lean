/-
  PropertyGraph.Proofs.Decimal.RoundingInterval

  The digits that a double is written with identify it.  They are found, with 17 of them at the
  latest, because decimal numbers of 17 digits stand closer to each other than doubles do; and they
  make a number that rounds to the double.  No number rounds to two doubles: where two intervals
  meet, one of the two mantissas is odd, and its interval is open.
-/
import PropertyGraph.Proofs.Decimal.Normalized
import PropertyGraph.Proofs.Decimal.Shortest

namespace PropertyGraph.Decimal.Double

variable {x y : Double} {q : ℚ}

/-! ## Rounding intervals -/

/-- Where a mantissa is the least of 53 bits, the doubles below stand twice as close. -/
def Narrow (x : Double) : Prop := x.mantissa = 2 ^ 52 ∧ minExponent < x.exponent

instance (x : Double) : Decidable x.Narrow := inferInstanceAs (Decidable (_ ∧ _))

/-- The lower end of the numbers that round to a double. -/
def lowEnd (x : Double) : ℚ := (x.mantissa - if x.Narrow then 1 / 4 else 1 / 2) * 2 ^ x.exponent

/-- A number rounds to a double, a half going to the even mantissa. -/
structure RoundsTo (q : ℚ) (x : Double) : Prop where
  low : x.lowEnd ≤ q
  high : q ≤ x.highEnd
  ends : x.mantissa % 2 = 0 ∨ x.lowEnd < q ∧ q < x.highEnd

theorem RoundsTo.of_lt (hlow : x.lowEnd < q) (hhigh : q < x.highEnd) : RoundsTo q x :=
  ⟨hlow.le, hhigh.le, .inr ⟨hlow, hhigh⟩⟩

theorem lowEnd_pos (h : 0 < x.mantissa) : 0 < x.lowEnd := by
  have hone : (1 : ℚ) ≤ x.mantissa := by exact_mod_cast h
  refine mul_pos ?_ (by positivity)
  split <;> linarith

/-! ## One double for a number -/

/-- The interval of a double ends where that of a larger one begins, or before it; and if they
    meet, the two mantissas are not both even. -/
theorem highEnd_le_lowEnd (hx : x.Normalized) (hy : y.Normalized)
    (hless : x.exponent < y.exponent ∨ x.exponent = y.exponent ∧ x.mantissa < y.mantissa) :
    x.highEnd ≤ y.lowEnd
      ∧ (x.highEnd = y.lowEnd → x.mantissa % 2 = 1 ∨ y.mantissa % 2 = 1) := by
  have hpos : (0 : ℚ) < 2 ^ x.exponent := by positivity
  rcases hless with hexponent | ⟨hexponent, hmantissa⟩
  · -- the larger one has 53 bits, and its steps are twice as wide at least
    have hfull : 2 ^ 52 ≤ y.mantissa := by
      rcases hy.full with hfull | hleast
      · exact hfull
      · exact absurd (hleast ▸ hexponent) (not_lt.2 hx.least)
    have hpower : 2 * (2 : ℚ) ^ x.exponent ≤ 2 ^ y.exponent := by
      rw [two_zpow_double y.exponent]
      have hle : (2 : ℚ) ^ x.exponent ≤ 2 ^ (y.exponent - 1) :=
        zpow_le_zpow_right₀ (by norm_num) (by omega)
      linarith
    have hnat : x.mantissa + 1 ≤ 2 ^ 53 := hx.inRange.mantissa
    have hbits : (x.mantissa : ℚ) + 1 ≤ 2 ^ 53 := by exact_mod_cast hnat
    have hhigh : x.highEnd ≤ (2 ^ 53 - 1 / 2) * 2 ^ x.exponent :=
      mul_le_mul_of_nonneg_right (by linarith) hpos.le
    by_cases hnarrow : y.Narrow
    · have hlow : y.lowEnd = (2 ^ 52 - 1 / 4) * 2 ^ y.exponent := by
        rw [lowEnd, if_pos hnarrow, hnarrow.1]
        norm_num
      have hbegin : (2 ^ 53 - 1 / 2) * (2 : ℚ) ^ x.exponent ≤ y.lowEnd := by
        rw [hlow]
        linarith
      refine ⟨hhigh.trans hbegin, fun heq => .inl ?_⟩
      -- then the mantissa below is the largest of 53 bits
      have hends : (2 ^ 53 - 1 / 2) * (2 : ℚ) ^ x.exponent ≤ (x.mantissa + 1 / 2) * 2 ^ x.exponent :=
        hbegin.trans heq.symm.le
      have hlargest := le_of_mul_le_mul_right hends hpos
      have hle : (2 ^ 53 : ℚ) ≤ x.mantissa + 1 := by linarith
      have hnat' : 2 ^ 53 ≤ x.mantissa + 1 := by exact_mod_cast hle
      omega
    · have hmore : 2 ^ 52 + 1 ≤ y.mantissa := by
        refine Nat.lt_of_le_of_ne hfull fun heq => hnarrow ⟨heq.symm, ?_⟩
        exact lt_of_le_of_lt hx.least hexponent
      have hmore' : (2 : ℚ) ^ 52 + 1 ≤ y.mantissa := by exact_mod_cast hmore
      have hlow : (2 ^ 52 + 1 / 2) * 2 ^ y.exponent ≤ y.lowEnd := by
        rw [lowEnd, if_neg hnarrow]
        exact mul_le_mul_of_nonneg_right (by linarith) (by positivity)
      have hstrict : x.highEnd < y.lowEnd := by linarith
      exact ⟨hstrict.le, fun heq => absurd heq hstrict.ne⟩
  · have hstep : (x.mantissa : ℚ) + 1 ≤ y.mantissa := by exact_mod_cast hmantissa
    rw [highEnd, lowEnd, ← hexponent]
    split
    · have hstrict := mul_lt_mul_of_pos_right
        (show (x.mantissa : ℚ) + 1 / 2 < y.mantissa - 1 / 4 by linarith) hpos
      exact ⟨hstrict.le, fun heq => absurd heq hstrict.ne⟩
    · refine ⟨mul_le_mul_of_nonneg_right (by linarith) hpos.le, fun heq => ?_⟩
      have hsame := mul_right_cancel₀ hpos.ne' heq
      have hnext : (y.mantissa : ℚ) = (x.mantissa + 1 : Nat) := by
        push_cast
        linarith
      have hnext' : y.mantissa = x.mantissa + 1 := by exact_mod_cast hnext
      omega

/-- No number rounds to two doubles, of which one is larger. -/
theorem not_roundsTo_both (hx : x.Normalized) (hy : y.Normalized)
    (hless : x.exponent < y.exponent ∨ x.exponent = y.exponent ∧ x.mantissa < y.mantissa)
    (hqx : RoundsTo q x) (hqy : RoundsTo q y) : False := by
  obtain ⟨hle, hodd⟩ := highEnd_le_lowEnd hx hy hless
  have hmeet : x.highEnd = y.lowEnd := le_antisymm hle (hqy.low.trans hqx.high)
  rcases hodd hmeet with hodd | hodd
  · rcases hqx.ends with heven | ⟨-, hstrict⟩
    · omega
    · exact absurd (hstrict.trans_le hle) (not_lt.2 hqy.low)
  · rcases hqy.ends with heven | ⟨hstrict, -⟩
    · omega
    · exact absurd (hle.trans_lt hstrict) (not_lt.2 hqx.high)

/-- The magnitude that a number rounds to. -/
theorem eq_of_roundsTo (hx : x.Normalized) (hy : y.Normalized) (hqx : RoundsTo q x)
    (hqy : RoundsTo q y) : x.mantissa = y.mantissa ∧ x.exponent = y.exponent := by
  rcases lt_trichotomy x.exponent y.exponent with hexponent | hexponent | hexponent
  · exact (not_roundsTo_both hx hy (.inl hexponent) hqx hqy).elim
  · rcases lt_trichotomy x.mantissa y.mantissa with hmantissa | hmantissa | hmantissa
    · exact (not_roundsTo_both hx hy (.inr ⟨hexponent, hmantissa⟩) hqx hqy).elim
    · exact ⟨hmantissa, hexponent⟩
    · exact (not_roundsTo_both hy hx (.inr ⟨hexponent.symm, hmantissa⟩) hqy hqx).elim
  · exact (not_roundsTo_both hy hx (.inl hexponent) hqy hqx).elim

/-! ## The digits that are tried -/

/-- All three numbers of an interval are multiples of a quarter of a step. -/
theorem interval_unit (x : Double) : ∃ up : Nat,
    (up : ℚ) / x.interval.den = 2 ^ x.exponent / 4
      ∧ x.interval.low = (4 * x.mantissa - if x.Narrow then 1 else 2) * up
      ∧ x.interval.value = 4 * x.mantissa * up := by
  refine ⟨if 2 ≤ x.exponent then twoTo (x.exponent - 2).toNat else 1, ?_, rfl, rfl⟩
  have hquarter : (2 : ℚ) ^ x.exponent / 4 = 2 ^ (x.exponent - 2) := by
    rw [zpow_sub₀ (by norm_num)]
    norm_num
  rw [hquarter, interval]
  dsimp only
  split
  · next h =>
    rw [zpow_toNat 2 (show 0 ≤ x.exponent - 2 by omega), cast_twoTo, Nat.cast_one, div_one]
  · next h =>
    rw [zpow_neg_toNat (show x.exponent - 2 ≤ 0 by omega), neg_sub, cast_twoTo, Nat.cast_one,
      one_div]

theorem interval_low (h : 0 < x.mantissa) :
    (x.interval.low : ℚ) / x.interval.den = x.lowEnd := by
  obtain ⟨up, hunit, hlow, -⟩ := x.interval_unit
  have hbelow : (if x.Narrow then 1 else 2) ≤ 4 * x.mantissa := by split <;> omega
  rw [hlow, Nat.cast_mul, mul_div_assoc, hunit, lowEnd]
  push_cast [hbelow]
  split <;> ring

theorem interval_value (x : Double) :
    (x.interval.value : ℚ) / x.interval.den = x.magnitude := by
  obtain ⟨up, hunit, -, hvalue⟩ := x.interval_unit
  rw [hvalue, Nat.cast_mul, mul_div_assoc, hunit, magnitude]
  push_cast
  ring

/-- Whether a decimal number lies in an interval is decided without dividing. -/
theorem Interval.holds_iff {i : Interval} (hden : 0 < i.den) (digits : Nat) (place : Int) :
    i.holds digits place = true
      ↔ if i.closed then (i.low : ℚ) / i.den ≤ digits * 10 ^ place
            ∧ (digits : ℚ) * 10 ^ place ≤ i.high / i.den
        else (i.low : ℚ) / i.den < digits * 10 ^ place
            ∧ (digits : ℚ) * 10 ^ place < i.high / i.den := by
  have hpos : (0 : ℚ) < i.den := by exact_mod_cast hden
  -- both sides of the comparisons are brought to one scale
  obtain ⟨n, scale, hscale, hn, hholds⟩ : ∃ n scale : Nat, 0 < scale
      ∧ (n : ℚ) = digits * 10 ^ place * i.den * scale
      ∧ i.holds digits place = if i.closed then i.low * scale ≤ n && n ≤ i.high * scale
        else i.low * scale < n && n < i.high * scale := by
    by_cases hplace : 0 ≤ place
    · refine ⟨digits * tenTo place.toNat * i.den, 1, Nat.one_pos, ?_, ?_⟩
      · rw [zpow_toNat 10 hplace, ← cast_tenTo]
        push_cast
        ring
      · rw [holds, if_pos hplace, if_pos hplace]
    · refine ⟨digits * i.den, tenTo (-place).toNat, tenTo_pos _, ?_, ?_⟩
      · have hten : (tenTo (-place).toNat : ℚ) ≠ 0 := by exact_mod_cast (tenTo_pos _).ne'
        rw [zpow_neg_toNat (by omega), ← cast_tenTo]
        push_cast
        field_simp
      · rw [holds, if_neg hplace, if_neg hplace]
  have hscale' : (0 : ℚ) < scale := by exact_mod_cast hscale
  have hle : ∀ k : Nat, (k : ℚ) / i.den ≤ digits * 10 ^ place ↔ k * scale ≤ n := by
    intro k
    rw [div_le_iff₀ hpos, ← mul_le_mul_iff_left₀ hscale', ← hn]
    exact_mod_cast Iff.rfl
  have hge : ∀ k : Nat, (digits : ℚ) * 10 ^ place ≤ k / i.den ↔ n ≤ k * scale := by
    intro k
    rw [le_div_iff₀ hpos, ← mul_le_mul_iff_left₀ hscale', ← hn]
    exact_mod_cast Iff.rfl
  rw [hholds]
  split
  · rw [hle, hge, Bool.and_eq_true, decide_eq_true_eq, decide_eq_true_eq]
  · rw [lt_iff_lt_of_le_iff_le (hge _), lt_iff_lt_of_le_iff_le (hle _), Bool.and_eq_true,
      decide_eq_true_eq, decide_eq_true_eq]

/-- The interval of a double contains the numbers that round to it. -/
theorem holds_iff_roundsTo (h : 0 < x.mantissa) (digits : Nat) (place : Int) :
    x.interval.holds digits place = true ↔ RoundsTo (digits * 10 ^ place) x := by
  have hclosed : x.interval.closed = decide (x.mantissa % 2 = 0) := rfl
  rw [Interval.holds_iff x.interval_den_pos, interval_low h, interval_high, hclosed]
  by_cases heven : x.mantissa % 2 = 0
  · rw [if_pos (decide_eq_true heven)]
    exact ⟨fun hends => ⟨hends.1, hends.2, .inl heven⟩, fun hrounds => ⟨hrounds.low, hrounds.high⟩⟩
  · rw [if_neg (by simpa using heven)]
    exact ⟨fun hends => .of_lt hends.1 hends.2, fun hrounds => hrounds.ends.resolve_left heven⟩

/-! ## Seventeen digits are enough -/

/-- The point of a quotient stands right behind its first digit or before it. -/
theorem pointOf_le {num den : Nat} (hnum : 0 < num) (hden : 0 < den) :
    (10 : ℚ) ^ (pointOf num den - 1) ≤ num / den := by
  have hpos : (0 : ℚ) < den := by exact_mod_cast hden
  rw [le_div_iff₀ hpos]
  unfold pointOf
  split
  · next hle =>
    have hquotient : 0 < num / den := Nat.div_pos hle hden
    have hcount : 1 ≤ digitCount (num / den) := by
      rw [digitCount, if_neg hquotient.ne']
      exact Nat.length_toDigits_pos
    have hnat : tenTo (digitCount (num / den) - 1) * den ≤ num :=
      (Nat.mul_le_mul_right den (tenTo_digitCount_le hquotient)).trans (Nat.div_mul_le_self num den)
    rw [show (digitCount (num / den) : Int) - 1 = ((digitCount (num / den) - 1 : Nat) : Int) by omega,
      zpow_natCast, ← cast_tenTo]
    exact_mod_cast hnat
  · next hless =>
    -- below one the inverse is rounded up, so its digits count the zeros behind the point
    generalize hq : (den + num - 1) / num - 1 = rest
    have hmul : den ≤ num * (rest + 1) := by
      have hlt := Nat.lt_mul_div_succ (den + num - 1) hnum
      have hsucc : (den + num - 1) / num = rest + 1 := by
        have hone : 1 ≤ (den + num - 1) / num := Nat.div_pos (by omega) hnum
        omega
      rw [hsucc, Nat.mul_add num (rest + 1) 1] at hlt
      omega
    have hnat : den ≤ num * tenTo (digitCount rest) :=
      hmul.trans (Nat.mul_le_mul_left num (lt_tenTo_digitCount rest))
    rw [show (1 : Int) - digitCount rest - 1 = -(digitCount rest : Int) by omega, zpow_neg,
      zpow_natCast, ← cast_tenTo, inv_mul_le_iff₀ (by exact_mod_cast tenTo_pos _), mul_comm]
    exact_mod_cast hnat

/-- Of the two multiples of a small step next to a double, one rounds to it. -/
theorem roundsTo_or (hx : x.Normalized) {d : Nat} {step : ℚ}
    (hstep : 0 < step) (hfine : 10 ^ 16 * step ≤ x.magnitude) (hbelow : d * step ≤ x.magnitude)
    (habove : x.magnitude < (d + 1) * step) :
    RoundsTo (d * step) x ∨ RoundsTo ((d + 1) * step) x := by
  have hpos : (0 : ℚ) < 2 ^ x.exponent := by positivity
  have hbits : (x.mantissa : ℚ) ≤ 2 ^ 53 := by exact_mod_cast hx.inRange.mantissa.le
  have hmagnitude : x.magnitude = x.mantissa * 2 ^ x.exponent := rfl
  have hhigh : x.highEnd = x.magnitude + 2 ^ x.exponent / 2 := by
    rw [highEnd, magnitude]
    ring
  by_cases hnarrow : x.Narrow
  · -- the mantissa is small, and so is the step: the multiple above is near enough
    have hlow : x.lowEnd = x.magnitude - 2 ^ x.exponent / 4 := by
      rw [lowEnd, if_pos hnarrow, magnitude]
      ring
    rw [hnarrow.1] at hmagnitude
    push_cast at hmagnitude
    refine .inr (.of_lt ?_ ?_) <;> linarith
  · have hlow : x.lowEnd = x.magnitude - 2 ^ x.exponent / 2 := by
      rw [lowEnd, if_neg hnarrow, magnitude]
      ring
    have hstep' : 10 ^ 16 * step ≤ 2 ^ 53 * 2 ^ x.exponent :=
      hfine.trans (mul_le_mul_of_nonneg_right hbits hpos.le)
    by_cases hnear : x.lowEnd < d * step
    · refine .inl (.of_lt hnear ?_)
      linarith
    · have hfar := not_lt.1 hnear
      refine .inr (.of_lt ?_ ?_) <;> linarith

/-- Digits are found if one of the two numbers next to the value lies in the interval. -/
theorem Interval.exists_pick {i : Interval} (hden : 0 < i.den) (point : Int) (count : Nat)
    (h : ∀ d : Nat, (d : ℚ) * 10 ^ (point - count) ≤ i.value / i.den →
      (i.value : ℚ) / i.den < (d + 1) * 10 ^ (point - count) →
      i.holds d (point - count) = true ∨ i.holds (d + 1) (point - count) = true) :
    (i.pick point count).isSome = true := by
  unfold pick
  dsimp only
  generalize point - (count : Int) = place at h ⊢
  -- the quotient whose floor is tried is the value, counted in units of the last place
  obtain ⟨num, den, hnum, hdenEq, hpos, hratio⟩ : ∃ num den : Nat,
      (if 0 ≤ place then i.value else i.value * tenTo (-place).toNat) = num
      ∧ (if 0 ≤ place then i.den * tenTo place.toNat else i.den) = den ∧ 0 < den
      ∧ (num : ℚ) / den * 10 ^ place = i.value / i.den := by
    refine ⟨_, _, rfl, rfl, ?_, ?_⟩
    · split
      · exact Nat.mul_pos hden (tenTo_pos _)
      · exact hden
    · have hne : (i.den : ℚ) ≠ 0 := by exact_mod_cast hden.ne'
      have hten : ∀ k, (tenTo k : ℚ) ≠ 0 := fun k => by exact_mod_cast (tenTo_pos k).ne'
      split
      · next hplace =>
        rw [zpow_toNat 10 hplace, ← cast_tenTo]
        push_cast
        have := hten place.toNat
        field_simp
      · next hplace =>
        rw [zpow_neg_toNat (by omega), ← cast_tenTo]
        push_cast
        have := hten (-place).toNat
        field_simp
  rw [hnum, hdenEq]
  have hpow : (0 : ℚ) < 10 ^ place := by positivity
  have hden' : (0 : ℚ) < den := by exact_mod_cast hpos
  -- the floor and the number after it are the two neighbours
  have hfloor : ((num / den : Nat) : ℚ) * 10 ^ place ≤ i.value / i.den := by
    rw [← hratio]
    refine mul_le_mul_of_nonneg_right ?_ hpow.le
    rw [le_div_iff₀ hden']
    exact_mod_cast Nat.div_mul_le_self num den
  have hceil : (i.value : ℚ) / i.den < ((num / den : Nat) + 1) * 10 ^ place := by
    rw [← hratio]
    refine mul_lt_mul_of_pos_right ?_ hpow
    rw [div_lt_iff₀ hden', mul_comm]
    exact_mod_cast Nat.lt_mul_div_succ num hpos
  rcases h _ hfloor hceil with hholds | hholds <;> rw [hholds]
  · cases i.holds (num / den + 1) place <;> rfl
  · cases i.holds (num / den) place <;> rfl

/-- The digits of a double other than zero make a number that rounds to it. -/
theorem shortest_roundsTo (hx : x.Normalized) (h : 0 < x.mantissa) :
    0 < x.shortest.1 ∧ RoundsTo (x.shortest.1 * 10 ^ x.shortest.2) x := by
  have hden := x.interval_den_pos
  have hvalue := interval_value_pos h
  have hcoarse : (10 : ℚ) ^ (pointOf x.interval.value x.interval.den - 1) ≤ x.magnitude := by
    rw [← interval_value]
    exact pointOf_le hvalue hden
  generalize hpoint : pointOf x.interval.value x.interval.den = point at hcoarse
  -- with 17 digits one of the two neighbours rounds to the double, so the search has an end
  have hlast : (x.interval.pick point 17).isSome = true := by
    refine Interval.exists_pick hden point 17 fun d hbelow habove => ?_
    rw [holds_iff_roundsTo h, holds_iff_roundsTo h, Nat.cast_add, Nat.cast_one]
    rw [interval_value] at hbelow habove
    refine roundsTo_or hx (by positivity) ?_ hbelow habove
    calc (10 : ℚ) ^ 16 * 10 ^ (point - (17 : Nat)) = 10 ^ (point - 1) := by
          rw [← zpow_natCast, ← zpow_add₀ (by norm_num)]
          congr 1
          push_cast
          omega
      _ ≤ x.magnitude := hcoarse
  obtain ⟨⟨digits, place⟩, hfound⟩ : ∃ found, ((List.range 17).findSome? fun n =>
      x.interval.pick point (n + 1)) = some found := by
    rw [← Option.isSome_iff_exists, List.findSome?_isSome_iff]
    exact ⟨16, List.mem_range.2 (by decide), hlast⟩
  obtain ⟨n, -, hpick⟩ := List.exists_of_findSome?_eq_some hfound
  have hshortest : x.shortest = (digits, place) := by
    rw [shortest]
    simp only [hpoint, hfound, Option.getD_some]
  obtain ⟨-, hholds, -⟩ := Interval.of_pick hpick
  rw [hshortest]
  exact ⟨(Interval.of_holds hden (interval_low_pos h) hholds).1, (holds_iff_roundsTo h _ _).1 hholds⟩

end PropertyGraph.Decimal.Double
