/-
  PropertyGraph.Proofs.Decimal.Literal

  Literals that are read as finite doubles.  A literal without a positive power of ten is
  always one.  A literal of at most 17 digits is one if its value does not lie beyond the
  middle of the two largest doubles; where its significand has more than 53 bits that
  takes a look at the one power of ten at which the room is narrow.
-/
import PropertyGraph.Decimal.Scaled
import PropertyGraph.Proofs.Decimal.Nearest

namespace PropertyGraph.Decimal

theorem tenTo_le {j k : Nat} (h : j ≤ k) : tenTo j ≤ tenTo k := Nat.pow_le_pow_right (by decide) h

theorem tenTo_add (j k : Nat) : tenTo (j + k) = tenTo j * tenTo k := Nat.pow_add 10 j k

theorem twoTo_add (j k : Nat) : twoTo (j + k) = twoTo j * twoTo k := Nat.pow_add 2 j k

namespace Double

/-! ## Products and quotients -/

theorem exists_mul {x y : Double} (h : x.magnitude * y.magnitude < overflow) :
    ∃ z, x.mul? y = some z ∧ z.InRange := by
  rcases hx : x.ratio with ⟨a, b⟩
  rcases hy : y.ratio with ⟨c, d⟩
  have hb : 0 < b := by simpa [hx] using x.ratio_pos
  have hd : 0 < d := by simpa [hy] using y.ratio_pos
  have hratio : ((a * c : Nat) : ℚ) / (b * d : Nat) = x.magnitude * y.magnitude := by
    rw [magnitude_eq_ratio, magnitude_eq_ratio, hx, hy]
    push_cast
    rw [div_mul_div_comm]
  obtain ⟨z, scale, hz, hrange, -⟩ := @exists_nearest (x.negative != y.negative) (a * c) (b * d)
    (Nat.mul_pos hb hd) (hratio ▸ h)
  refine ⟨z, ?_, hrange⟩
  rw [mul?, hx, hy]
  exact hz

/-- Dividing by a double that is not below one. -/
theorem exists_div {x y : Double} (hx : x.InRange) (hy : 1 ≤ y.magnitude) :
    ∃ z, x.div? y = some z ∧ z.InRange := by
  have hmantissa : 0 < y.mantissa := by
    refine Nat.pos_of_ne_zero fun hzero => ?_
    rw [magnitude, hzero] at hy
    norm_num at hy
  have hnum := ratio_num_pos hmantissa
  have hmagnitude := x.magnitude_eq_ratio
  have hmagnitude' := y.magnitude_eq_ratio
  rcases hxr : x.ratio with ⟨a, b⟩
  rcases hyr : y.ratio with ⟨c, d⟩
  have hb : 0 < b := by simpa [hxr] using x.ratio_pos
  have hc : 0 < c := by simpa [hyr] using hnum
  rw [hxr] at hmagnitude
  rw [hyr] at hmagnitude'
  have hratio : ((a * d : Nat) : ℚ) / (b * c : Nat) = x.magnitude / y.magnitude := by
    rw [hmagnitude, hmagnitude']
    push_cast
    rw [div_div_div_eq]
  have hsmall : x.magnitude / y.magnitude < overflow :=
    lt_of_le_of_lt (div_le_self x.magnitude_nonneg hy) hx.magnitude_lt
  obtain ⟨z, scale, hz, hrange, -⟩ := @exists_nearest (x.negative != y.negative) (a * d) (b * c)
    (Nat.mul_pos hb hc) (hratio ▸ hsmall)
  refine ⟨z, ?_, hrange⟩
  rw [div?, hxr, hyr]
  exact hz

/-- A whole number that does not lie beyond the largest double has a nearest double. -/
theorem exists_nearest_nat (negative : Bool) {n : Nat} (h : (n : ℚ) < overflow) :
    ∃ y scale, nearest? negative n 1 = some y ∧ y.InRange ∧ y.Near n scale := by
  have hone : (n : ℚ) / (1 : Nat) = n := by simp
  obtain ⟨y, scale, hy, hrange, hnear⟩ := @exists_nearest negative n 1 Nat.one_pos
    (hone.symm ▸ h)
  exact ⟨y, scale, hy, hrange, hone ▸ hnear⟩

/-- A positive whole number is not rounded below one. -/
theorem Near.one_le {y : Double} {n : Nat} {scale : Int} (h : y.Near n scale) (hn : 0 < n) :
    1 ≤ y.magnitude := by
  by_cases hsmall : n < 2 ^ 53
  · rw [h.eq_of_lt hsmall]
    exact_mod_cast hn
  · have hlarge : (2 : ℚ) ^ 53 ≤ n := by exact_mod_cast not_lt.1 hsmall
    have hlow : 2 ^ 52 * 2 ^ scale ≤ (n : ℚ) := by
      rcases h.low with hmin | hlow
      · have hpower : (2 : ℚ) ^ scale ≤ 2 ^ (0 : Int) := by
          refine zpow_le_zpow_right₀ (by norm_num) ?_
          rw [hmin, minExponent]
          norm_num
        rw [zpow_zero] at hpower
        linarith
      · exact hlow
    have hclose := (abs_le.1 h.close).1
    rw [two_zpow_double] at hlow
    linarith

/-! ## Large numbers -/

theorem overflow_eq : overflow = ((twoTo 54 - 1) * twoTo 970 : Nat) := by
  have hone : 1 ≤ twoTo 54 := twoTo_pos 54
  rw [overflow, maxExponent, zpow_toNat 2 (by norm_num)]
  push_cast [hone]
  rw [cast_twoTo, cast_twoTo]

/-- The middle of the two largest doubles. -/
def lastMidpoint : ℚ := (2 ^ 54 - 3) * 2 ^ (maxExponent - 1)

theorem lastMidpoint_eq : lastMidpoint = ((twoTo 54 - 3) * twoTo 970 : Nat) := by
  have hthree : 3 ≤ twoTo 54 := by decide
  rw [lastMidpoint, maxExponent, zpow_toNat 2 (by norm_num)]
  push_cast [hthree]
  rw [cast_twoTo, cast_twoTo]

/-- Above the largest power of ten there is room for half as much again. -/
theorem tenTo_308_le : 3 * tenTo 308 ≤ 2 * ((twoTo 54 - 1) * twoTo 970) := by decide +kernel

/-- The digits of the largest double already lie beyond the middle of the two largest. -/
theorem lastMidpoint_lt : (twoTo 54 - 3) * twoTo 970 < 17976931348623157 * tenTo 292 := by
  decide +kernel

theorem tenTo_lt_overflow {k : Nat} (h : k ≤ 308) : (tenTo k : ℚ) < overflow := by
  have hlast : tenTo 308 < (twoTo 54 - 1) * twoTo 970 := by
    have hroom := tenTo_308_le
    have hpos := tenTo_pos 308
    omega
  have hle : tenTo k ≤ tenTo 308 := tenTo_le h
  rw [overflow_eq]
  exact_mod_cast lt_of_le_of_lt hle hlast

end Double

namespace Scaled

open Double (InRange overflow lastMidpoint)

/-! ## Powers of ten -/

theorem exists_power {k : Nat} (h : k ≤ maxPower) :
    ∃ y scale, power k = some y ∧ y.InRange ∧ y.Near (tenTo k) scale :=
  Double.exists_nearest_nat false (Double.tenTo_lt_overflow h)

/-- Of one power of ten all bits are known. -/
theorem power_292 : power 292 = some ⟨false, 4512985939662074, 918⟩ := by decide +kernel

/-- Dividing by powers of ten in steps. -/
theorem exists_shrink (steps : Nat) {x : Double} (h : x.InRange) :
    ∃ y, shrink steps x = some y ∧ y.InRange := by
  induction steps generalizing x with
  | zero => exact ⟨x, rfl, h⟩
  | succ steps ih =>
    rw [shrink]
    split
    · exact ⟨x, rfl, h⟩
    · obtain ⟨ten, scale, hten, -, hnear⟩ := exists_power (le_refl maxPower)
      obtain ⟨z, hz, hrange⟩ := Double.exists_div h (hnear.one_le (tenTo_pos _))
      obtain ⟨y, hy, hrange'⟩ := ih hrange
      refine ⟨y, ?_, hrange'⟩
      rw [hten, Option.bind_some, hz, Option.bind_some, hy]

/-! ## Literals without a positive power of ten -/

theorem exists_shift_of_nonpos {x : Double} (h : x.InRange) {exponent : Int} (hexponent : exponent ≤ 0) :
    ∃ y, shift x exponent = some y ∧ y.InRange := by
  rw [shift]
  by_cases hzero : 0 ≤ exponent
  · obtain rfl : exponent = 0 := le_antisymm hexponent hzero
    obtain ⟨one, scale, hone, -, hnear⟩ := exists_power (Nat.zero_le maxPower)
    have hmagnitude : one.magnitude = 1 := by
      rw [hnear.eq_of_lt (by decide)]
      simp [tenTo]
    have hsmall : x.magnitude * one.magnitude < overflow := by
      rw [hmagnitude, mul_one]
      exact h.magnitude_lt
    obtain ⟨y, hy, hrange⟩ := Double.exists_mul hsmall
    refine ⟨y, ?_, hrange⟩
    rw [if_pos hzero, if_pos (by decide), Int.natAbs_zero, hone, Option.bind_some, hy]
  · rw [if_neg hzero]
    obtain ⟨y, hy, hrange⟩ := exists_shrink ((exponent.natAbs - 1) / maxPower) h
    have hrest : exponent.natAbs - (exponent.natAbs - 1) / maxPower * maxPower ≤ maxPower := by
      have hdiv := Nat.div_add_mod (exponent.natAbs - 1) maxPower
      have hmod := Nat.mod_lt (exponent.natAbs - 1) (show 0 < maxPower by decide)
      rw [Nat.mul_comm] at hdiv
      omega
    obtain ⟨ten, scale, hten, -, hnear⟩ := exists_power hrest
    obtain ⟨z, hz, hrange'⟩ := Double.exists_div hrange (hnear.one_le (tenTo_pos _))
    refine ⟨z, ?_, hrange'⟩
    simp only [hy, Option.bind_some, hten, hz]

theorem exists_significand {n : Nat} (h : n ≤ limit) :
    ∃ y scale, Double.nearest? false n 1 = some y ∧ y.InRange ∧ y.Near n scale := by
  refine Double.exists_nearest_nat false (lt_of_le_of_lt ?_ (Double.tenTo_lt_overflow (le_refl 308)))
  have hlimit : limit ≤ tenTo 308 := (show limit ≤ tenTo 20 by decide).trans (tenTo_le (by decide))
  exact_mod_cast h.trans hlimit

theorem exists_toDouble_of_nonpos (negative : Bool) {x : Scaled} (hsignificand : x.significand ≤ limit)
    (hexponent : x.exponent ≤ 0) : ∃ y, x.toDouble? negative = some y ∧ y.InRange := by
  obtain ⟨s, scale, hs, hrange, -⟩ := exists_significand hsignificand
  obtain ⟨y, hy, hrange'⟩ := exists_shift_of_nonpos hrange hexponent
  refine ⟨{ y with negative }, ?_, hrange'.mantissa, hrange'.exponent⟩
  rw [toDouble?, hs, Option.bind_some, hy]
  rfl

/-! ## Literals with a positive power of ten -/

section Product

variable {n k : Nat} {s ten : Double} {scale scale' : Int}

/-- A significand of 53 bits is met exactly, so that only the power of ten is rounded. -/
theorem product_lt_of_exact (hn : 0 < n) (hbits : n < 2 ^ 53)
    (hvalue : (n * tenTo k : Nat) ≤ lastMidpoint) (hs : s.Near n scale)
    (hten : ten.Near (tenTo k) scale') : s.magnitude * ten.magnitude < overflow := by
  have hroom : lastMidpoint * (1 + 1 / 2 ^ 53) < overflow := by
    have hstep : (0 : ℚ) < 2 ^ (Double.maxExponent - 1) := by positivity
    rw [lastMidpoint, overflow]
    nlinarith
  have htenLe := hten.magnitude_le (tenTo_pos k)
  have hnQ : (0 : ℚ) < n := by exact_mod_cast hn
  push_cast at hvalue
  rw [hs.eq_of_lt hbits]
  calc (n : ℚ) * ten.magnitude ≤ n * (tenTo k * (1 + 1 / 2 ^ 53)) := by gcongr
    _ = n * tenTo k * (1 + 1 / 2 ^ 53) := by ring
    _ ≤ lastMidpoint * (1 + 1 / 2 ^ 53) := by gcongr
    _ < overflow := hroom

/-- Below one power of ten there is room for both roundings. -/
theorem product_lt_of_le (hn : 0 < n) (hdigits : n ≤ tenTo 17) (hk : k ≤ 291) (hs : s.Near n scale)
    (hten : ten.Near (tenTo k) scale') : s.magnitude * ten.magnitude < overflow := by
  have hroom : 3 * ((tenTo 17 : ℚ) * tenTo 291) ≤ 2 * overflow := by
    have hnat : 3 * (tenTo 17 * tenTo 291) ≤ 2 * ((twoTo 54 - 1) * twoTo 970) := by
      have hroom := Double.tenTo_308_le
      rwa [show 308 = 17 + 291 from rfl, tenTo_add] at hroom
    rw [Double.overflow_eq]
    exact_mod_cast hnat
  have hnQ : (n : ℚ) ≤ tenTo 17 := by exact_mod_cast hdigits
  have hkQ : (tenTo k : ℚ) ≤ tenTo 291 := by exact_mod_cast tenTo_le hk
  have hpos : (0 : ℚ) < tenTo 17 := by exact_mod_cast tenTo_pos 17
  have hpos' : (0 : ℚ) < tenTo 291 := by exact_mod_cast tenTo_pos 291
  have hsLe := hs.magnitude_le hn
  have htenLe := hten.magnitude_le (tenTo_pos k)
  have hnonneg := ten.magnitude_nonneg
  -- the two powers are not to be computed any more
  clear hdigits hk hs hten
  generalize (tenTo 17 : ℚ) = a at *
  generalize (tenTo 291 : ℚ) = b at *
  calc s.magnitude * ten.magnitude
      ≤ n * (1 + 1 / 2 ^ 53) * (tenTo k * (1 + 1 / 2 ^ 53)) := by gcongr
    _ ≤ a * (1 + 1 / 2 ^ 53) * (b * (1 + 1 / 2 ^ 53)) := by gcongr
    _ = a * b * (1 + 1 / 2 ^ 53) ^ 2 := by ring
    _ < a * b * (3 / 2) := mul_lt_mul_of_pos_left (by norm_num) (mul_pos hpos hpos')
    _ ≤ overflow := by linarith

/-- At that power there is less room than the two roundings may take in general. -/
theorem product_lt_at_292 (hvalue : n * tenTo 292 ≤ (twoTo 54 - 3) * twoTo 970)
    (hs : s.Near n scale) (hpower : power 292 = some ten) :
    s.magnitude * ten.magnitude < overflow := by
  have hbits : n ≤ 17976931348623156 := by
    by_contra hgreater
    have hbeyond := Double.lastMidpoint_lt
    have hleast : 17976931348623157 * tenTo 292 ≤ n * tenTo 292 :=
      Nat.mul_le_mul_right _ (by omega)
    omega
  have hten : ten.magnitude = (4512985939662074 * twoTo 918 : Nat) := by
    rw [power_292] at hpower
    obtain rfl := Option.some.inj hpower
    rw [Double.magnitude, zpow_toNat 2 (by norm_num)]
    push_cast
    rw [cast_twoTo]
  have hfits : (17976931348623157 : ℚ) * (4512985939662074 * twoTo 918 : Nat) < overflow := by
    have hnat : 17976931348623157 * (4512985939662074 * twoTo 918)
        < (twoTo 54 - 1) * twoTo 970 := by
      rw [← Nat.mul_assoc, twoTo_add 52 918, ← Nat.mul_assoc]
      exact Nat.mul_lt_mul_of_pos_right (by decide) (twoTo_pos 918)
    rw [Double.overflow_eq]
    exact_mod_cast hnat
  have hsLe : s.magnitude ≤ 17976931348623157 := by
    have hone := hs.magnitude_le_add_one (by omega)
    have hbitsQ : (n : ℚ) ≤ 17976931348623156 := by exact_mod_cast hbits
    linarith
  calc s.magnitude * ten.magnitude ≤ 17976931348623157 * ten.magnitude :=
        mul_le_mul_of_nonneg_right hsLe ten.magnitude_nonneg
    _ < overflow := by rw [hten]; exact hfits

/-- The product of a significand and a power of ten is in range as long as the value of the
    literal is not beyond the middle of the two largest doubles. -/
theorem product_lt_overflow (hn : 0 < n) (hdigits : n ≤ tenTo 17)
    (hvalue : (n * tenTo k : Nat) ≤ lastMidpoint) (hs : s.Near n scale)
    (hpower : power k = some ten) (hten : ten.Near (tenTo k) scale') :
    s.magnitude * ten.magnitude < overflow := by
  by_cases hbits : n < 2 ^ 53
  · exact product_lt_of_exact hn hbits hvalue hs hten
  · have hnat : n * tenTo k ≤ (twoTo 54 - 3) * twoTo 970 := by
      rw [Double.lastMidpoint_eq] at hvalue
      exact_mod_cast hvalue
    have hk : k ≤ 292 := by
      by_contra hgreater
      have hbeyond : (twoTo 54 - 3) * twoTo 970 < twoTo 53 * tenTo 293 := by
        refine Double.lastMidpoint_lt.trans_le ?_
        rw [tenTo_add 1 292, ← Nat.mul_assoc]
        exact Nat.mul_le_mul_right _ (by decide)
      have hleast : twoTo 53 * tenTo 293 ≤ n * tenTo k :=
        Nat.mul_le_mul (not_lt.1 hbits) (tenTo_le (by omega))
      omega
    rcases Nat.lt_or_eq_of_le hk with hless | rfl
    · exact product_lt_of_le hn hdigits (by omega) hs hten
    · exact product_lt_at_292 hnat hs hpower

end Product

/-- A literal of at most 17 digits is read if its value is not beyond the middle of the two
    largest doubles. -/
theorem exists_toDouble_of_le (negative : Bool) {n k : Nat} (hn : 0 < n) (hdigits : n ≤ tenTo 17)
    (hvalue : (n * tenTo k : Nat) ≤ lastMidpoint) :
    ∃ y, (⟨n, k⟩ : Scaled).toDouble? negative = some y ∧ y.InRange := by
  have hk : k ≤ maxPower := by
    by_contra hgreater
    rw [Double.lastMidpoint_eq] at hvalue
    have hnat : n * tenTo k ≤ (twoTo 54 - 3) * twoTo 970 := by exact_mod_cast hvalue
    have hbeyond : (twoTo 54 - 3) * twoTo 970 < 1 * tenTo 309 := by
      refine Double.lastMidpoint_lt.trans_le ?_
      rw [Nat.one_mul, tenTo_add 17 292]
      exact Nat.mul_le_mul_right _ (by decide)
    have hleast : 1 * tenTo 309 ≤ n * tenTo k :=
      Nat.mul_le_mul hn (tenTo_le (Nat.lt_of_not_le hgreater))
    omega
  have hlimit : n ≤ limit := hdigits.trans (by decide)
  obtain ⟨s, scale, hs, hrange, hnear⟩ := exists_significand hlimit
  obtain ⟨ten, scale', hten, -, hnear'⟩ := exists_power hk
  obtain ⟨y, hy, hrange'⟩ :=
    Double.exists_mul (product_lt_overflow hn hdigits hvalue hnear hten hnear')
  refine ⟨{ y with negative }, ?_, hrange'.mantissa, hrange'.exponent⟩
  have hshift : shift s k = some y := by
    rw [shift, if_pos (Int.natCast_nonneg k), Int.natAbs_natCast, if_pos hk, hten, Option.bind_some,
      hy]
  rw [toDouble?, hs, Option.bind_some, hshift]
  rfl

end Scaled

end PropertyGraph.Decimal
