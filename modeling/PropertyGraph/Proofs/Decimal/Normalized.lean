/-
  PropertyGraph.Proofs.Decimal.Normalized

  Doubles as they are stored.  A magnitude has one normalized form, and all arithmetic gives that
  form: products and quotients are rounded to a mantissa of 53 bits, or of fewer at the least
  exponent.  So every literal is read as a normalized double.
-/
import PropertyGraph.Proofs.Decimal.Literal

namespace PropertyGraph.Decimal

namespace Double

variable {x y z : Double}

/-- A double as it is stored: with all of its 53 bits, or fewer at the least exponent. -/
structure Normalized (x : Double) : Prop where
  inRange : x.InRange
  least : minExponent ≤ x.exponent
  full : 2 ^ 52 ≤ x.mantissa ∨ x.exponent = minExponent

/-- The sign does not matter. -/
theorem Normalized.withSign (h : x.Normalized) (negative : Bool) :
    Normalized { x with negative := negative } := ⟨⟨h.inRange.1, h.inRange.2⟩, h.least, h.full⟩

/-- Without a mantissa the exponent is the least one. -/
theorem Normalized.exponent_eq (h : x.Normalized) (hx : x.mantissa = 0) :
    x.exponent = minExponent := by
  rcases h.full with hfull | hleast
  · rw [hx] at hfull
    exact absurd hfull (by norm_num)
  · exact hleast

/-- The double nearest to a quotient is normalized. -/
theorem nearest?_normalized {negative : Bool} {num den : Nat} (hden : 0 < den)
    (h : nearest? negative num den = some y) : y.Normalized := by
  by_cases hnum : num = 0
  · rw [nearest?, if_pos hnum] at h
    obtain rfl := Option.some.inj h
    exact ⟨⟨by norm_num, minExponent_le_maxExponent⟩, le_refl _, .inr rfl⟩
  · obtain ⟨hhigh, hlow⟩ := exponentOf_spec hnum hden
    have hleast : minExponent ≤ exponentOf num den := le_max_right _ _
    generalize hexponent : exponentOf num den = scale at hhigh hlow hleast
    obtain ⟨hscaled, hratio⟩ := scaleTo_spec num hden scale
    rcases hscale : scaleTo num den scale with ⟨n, d⟩
    rw [hscale] at hscaled hratio
    have hround := @abs_roundHalfEven_sub_le n d hscaled
    rw [hratio] at hround
    rw [nearest?_eq negative hnum hexponent hscale] at h
    generalize roundHalfEven n d = m at hround h
    have hle := rounded_le hhigh hround
    split at h
    · -- the mantissa has grown to 54 bits, and is cut at the end
      split at h
      · cases h
      · obtain rfl := Option.some.inj h
        exact ⟨⟨show twoTo 52 < 2 ^ 53 by decide, show scale + 1 ≤ maxExponent by omega⟩,
          show minExponent ≤ scale + 1 by omega, .inl (le_refl _)⟩
    · next hfits =>
      split at h
      · cases h
      · obtain rfl := Option.some.inj h
        refine ⟨⟨lt_of_le_of_ne hle hfits, show scale ≤ maxExponent by omega⟩, hleast, ?_⟩
        rcases hlow with hmin | hlow
        · -- the scale is the least one, or the quotient fills all 53 bits and rounding keeps them
          -- full
          exact .inr hmin
        · rw [← le_div_iff₀ (by positivity)] at hlow
          have hclose := (abs_le.1 hround).1
          have hless : (2 ^ 52 : ℚ) < m + 1 := by linarith
          have hnat : 2 ^ 52 < m + 1 := by exact_mod_cast hless
          exact .inl (Nat.le_of_lt_succ hnat)

theorem mul?_normalized (h : x.mul? y = some z) : z.Normalized :=
  nearest?_normalized (Nat.mul_pos x.ratio_pos y.ratio_pos) h

theorem div?_normalized (hy : 0 < y.mantissa) (h : x.div? y = some z) : z.Normalized :=
  nearest?_normalized (Nat.mul_pos x.ratio_pos (ratio_num_pos hy)) h

end Double

namespace Scaled

open Double (Normalized div?_normalized mul?_normalized nearest?_normalized)

variable {x y : Double}

/-- No power of ten that is divided by is zero. -/
theorem power_mantissa_pos {k : Nat} (hk : k ≤ maxPower) (h : power k = some x) :
    0 < x.mantissa := by
  obtain ⟨ten, scale, hten, -, hnear⟩ := exists_power hk
  obtain rfl := Option.some.inj (hten.symm.trans h)
  refine Nat.pos_of_ne_zero fun hzero => ?_
  have hone := hnear.one_le (tenTo_pos k)
  rw [Double.magnitude, hzero] at hone
  norm_num at hone

theorem shift_normalized {exponent : Int} (hx : x.Normalized) (h : shift x exponent = some y) :
    y.Normalized := by
  rw [shift] at h
  split at h
  · split at h
    · obtain ⟨ten, -, hproduct⟩ := Option.bind_eq_some_iff.1 h
      exact mul?_normalized hproduct
    · split at h
      · exact Option.some.inj h ▸ hx
      · cases h
  · obtain ⟨z, -, hrest⟩ := Option.bind_eq_some_iff.1 h
    obtain ⟨ten, hten, hquotient⟩ := Option.bind_eq_some_iff.1 hrest
    have hpower : exponent.natAbs - (exponent.natAbs - 1) / maxPower * maxPower ≤ maxPower := by
      have hdiv := Nat.div_add_mod (exponent.natAbs - 1) maxPower
      have hmod := Nat.mod_lt (exponent.natAbs - 1) (show 0 < maxPower by decide)
      rw [Nat.mul_comm] at hdiv
      omega
    exact div?_normalized (power_mantissa_pos hpower hten) hquotient

/-- Every literal that has a value has a normalized one. -/
theorem toDouble?_normalized {s : Scaled} {negative : Bool} (h : s.toDouble? negative = some y) :
    y.Normalized := by
  obtain ⟨significand, hsignificand, hshift⟩ := Option.bind_eq_some_iff.1 h
  obtain ⟨z, hz, rfl⟩ := Option.map_eq_some_iff.1 hshift
  exact (shift_normalized (nearest?_normalized Nat.one_pos hsignificand) hz).withSign negative

end Scaled

end PropertyGraph.Decimal
