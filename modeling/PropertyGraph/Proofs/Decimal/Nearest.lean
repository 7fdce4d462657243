/-
  PropertyGraph.Proofs.Decimal.Nearest

  How near the nearest double is.  A quotient below the point half-way past the largest
  double has a nearest double; that one lies within half a step of the quotient, and a whole
  number of 53 bits is met exactly.
-/
import PropertyGraph.Decimal.Double
import Mathlib.Algebra.Order.Field.Basic
import Mathlib.Algebra.Order.Field.Power
import Mathlib.Data.Nat.Log
import Mathlib.Data.Rat.Cast.Order
import Mathlib.Tactic.FieldSimp
import Mathlib.Tactic.Linarith
import Mathlib.Tactic.NormNum
import Mathlib.Tactic.Positivity
import Mathlib.Tactic.Ring

namespace PropertyGraph.Decimal

theorem twoTo_eq (k : Nat) : twoTo k = 2 ^ k := rfl

theorem cast_twoTo (k : Nat) : (twoTo k : ℚ) = 2 ^ k := by
  rw [twoTo, Nat.pow_eq]
  push_cast
  rfl

theorem cast_tenTo (k : Nat) : (tenTo k : ℚ) = 10 ^ k := by
  rw [tenTo, Nat.pow_eq]
  push_cast
  rfl

/-- A power of two with an integer exponent, from its two halves. -/
theorem zpow_toNat (b : ℚ) {e : Int} (h : 0 ≤ e) : b ^ e = b ^ e.toNat := by
  rw [← zpow_natCast, Int.toNat_of_nonneg h]

theorem zpow_neg_toNat {b : ℚ} {e : Int} (h : e ≤ 0) : b ^ e = (b ^ (-e).toNat)⁻¹ := by
  rw [← zpow_natCast, Int.toNat_of_nonneg (by omega), zpow_neg, inv_inv]

theorem two_zpow_double (e : Int) : (2 : ℚ) ^ e = 2 * 2 ^ (e - 1) := by
  rw [zpow_sub₀ (by norm_num), zpow_one]
  ring

namespace Double

/-! ## Magnitudes -/

/-- The magnitude of a double. -/
def magnitude (x : Double) : ℚ := x.mantissa * 2 ^ x.exponent

/-- A double of at most 53 bits whose exponent is not above the largest. -/
structure InRange (x : Double) : Prop where
  mantissa : x.mantissa < 2 ^ 53
  exponent : x.exponent ≤ maxExponent

/-- The point half-way between the largest double and the next power of two. -/
def overflow : ℚ := (2 ^ 54 - 1) * 2 ^ (maxExponent - 1)

theorem minExponent_le_maxExponent : minExponent ≤ maxExponent := by
  norm_num [minExponent, maxExponent]

theorem magnitude_nonneg (x : Double) : 0 ≤ x.magnitude := by
  unfold magnitude
  positivity

theorem InRange.magnitude_lt {x : Double} (h : x.InRange) : x.magnitude < overflow := by
  have hmantissa : (x.mantissa : ℚ) ≤ 2 ^ 53 - 1 := by
    have hnat := h.mantissa
    have hle : x.mantissa ≤ 2 ^ 53 - 1 := by omega
    calc (x.mantissa : ℚ) ≤ ((2 ^ 53 - 1 : Nat) : ℚ) := by exact_mod_cast hle
      _ = 2 ^ 53 - 1 := by norm_num
  have hpower : (2 : ℚ) ^ x.exponent ≤ 2 ^ maxExponent :=
    zpow_le_zpow_right₀ (by norm_num) h.exponent
  have hdouble := two_zpow_double maxExponent
  have hpos : (0 : ℚ) < 2 ^ (maxExponent - 1) := by positivity
  calc x.magnitude ≤ (2 ^ 53 - 1) * 2 ^ maxExponent := by
        unfold magnitude
        exact mul_le_mul hmantissa hpower (by positivity) (by norm_num)
    _ < overflow := by
        rw [overflow, hdouble]
        linarith

/-- The magnitude is the quotient of the two naturals of `ratio`. -/
theorem magnitude_eq_ratio (x : Double) : x.magnitude = x.ratio.1 / x.ratio.2 := by
  unfold magnitude ratio
  split
  · next h =>
    rw [zpow_toNat 2 h]
    push_cast
    rw [cast_twoTo, div_one]
  · next h =>
    rw [zpow_neg_toNat (by omega), cast_twoTo]
    rfl

theorem ratio_pos (x : Double) : 0 < x.ratio.2 := by
  unfold ratio
  split
  · exact Nat.one_pos
  · exact twoTo_pos _

theorem ratio_num_pos {x : Double} (h : 0 < x.mantissa) : 0 < x.ratio.1 := by
  unfold ratio
  split
  · exact Nat.mul_pos h (twoTo_pos _)
  · exact h

/-! ## Rounding -/

/-- The rounded quotient is not further away than one half. -/
theorem abs_roundHalfEven_sub_le {num den : Nat} (hden : 0 < den) :
    |(roundHalfEven num den : ℚ) - num / den| ≤ 1 / 2 := by
  have hpos : (0 : ℚ) < den := by exact_mod_cast hden
  have hsplit : (num : ℚ) / den = (num / den : Nat) + (num % den : Nat) / (den : ℚ) := by
    have hdiv : ((num / den : Nat) : ℚ) * den + (num % den : Nat) = num := by
      exact_mod_cast Nat.div_add_mod' num den
    field_simp
    linarith
  have hrest : ((num % den : Nat) : ℚ) < den := by exact_mod_cast Nat.mod_lt num hden
  have hnonneg : (0 : ℚ) ≤ (num % den : Nat) := by positivity
  have hbelow : 2 * (num % den) ≤ den → ((num % den : Nat) : ℚ) / den ≤ 1 / 2 := by
    intro hle
    have hcast : (2 : ℚ) * (num % den : Nat) ≤ den := by exact_mod_cast hle
    rw [div_le_iff₀ hpos]
    linarith
  have habove : den ≤ 2 * (num % den) → 1 / 2 ≤ ((num % den : Nat) : ℚ) / den := by
    intro hle
    have hcast : (den : ℚ) ≤ 2 * (num % den : Nat) := by exact_mod_cast hle
    rw [le_div_iff₀ hpos]
    linarith
  have hfraction : ((num % den : Nat) : ℚ) / den < 1 := by rwa [div_lt_one hpos]
  have hfraction' : 0 ≤ ((num % den : Nat) : ℚ) / den := by positivity
  -- rounding down needs the rest to be small, rounding up needs it to be large
  have hdown : 2 * (num % den) ≤ den → |((num / den : Nat) : ℚ) - num / den| ≤ 1 / 2 := by
    intro hle
    rw [hsplit, abs_le]
    have := hbelow hle
    constructor <;> linarith
  have hup : den ≤ 2 * (num % den) → |((num / den + 1 : Nat) : ℚ) - num / den| ≤ 1 / 2 := by
    intro hle
    have := habove hle
    rw [hsplit, abs_le]
    push_cast
    constructor <;> linarith
  unfold roundHalfEven
  simp only
  split
  · next h => exact hdown h.le
  · next h =>
    split
    · next h' => exact hup h'.le
    · split
      · exact hdown (by omega)
      · exact hup (by omega)

/-- A quotient at the scale of a power of two. -/
theorem scaleTo_spec (num : Nat) {den : Nat} (hden : 0 < den) (e : Int) :
    0 < (scaleTo num den e).2
      ∧ ((scaleTo num den e).1 : ℚ) / (scaleTo num den e).2 = num / den / 2 ^ e := by
  have hpos : (den : ℚ) ≠ 0 := by exact_mod_cast hden.ne'
  unfold scaleTo
  split
  · next h =>
    refine ⟨Nat.mul_pos hden (twoTo_pos _), ?_⟩
    rw [zpow_toNat 2 h]
    push_cast
    rw [cast_twoTo, div_div]
  · next h =>
    refine ⟨hden, ?_⟩
    rw [zpow_neg_toNat (by omega)]
    push_cast
    rw [cast_twoTo]
    field_simp

/-! ## The scale of a quotient -/

theorem two_pow_log2_le {n : Nat} (h : n ≠ 0) : (2 : ℚ) ^ (Nat.log2 n : Int) ≤ n := by
  rw [zpow_natCast]
  exact_mod_cast Nat.log2_self_le h

theorem lt_two_pow_log2 (n : Nat) : (n : ℚ) < 2 ^ ((Nat.log2 n : Int) + 1) := by
  rw [show (Nat.log2 n : Int) + 1 = ((Nat.log2 n + 1 : Nat) : Int) by push_cast; rfl, zpow_natCast]
  exact_mod_cast Nat.lt_log2_self

/-- A quotient has at most 53 bits at the exponent that is guessed from the lengths of its
    parts. -/
theorem quotient_lt_of_guess (num : Nat) {den : Nat} (hden : 0 < den) {guess : Int}
    (hguess : (Nat.log2 num : Int) - (Nat.log2 den : Int) - 52 = guess) :
    (num : ℚ) / den < 2 ^ 53 * 2 ^ guess := by
  have hpos : (0 : ℚ) < den := by exact_mod_cast hden
  rw [div_lt_iff₀ hpos]
  calc (num : ℚ) < 2 ^ ((Nat.log2 num : Int) + 1) := lt_two_pow_log2 num
    _ = 2 ^ (53 : Int) * 2 ^ guess * 2 ^ (Nat.log2 den : Int) := by
        rw [← zpow_add₀ (by norm_num), ← zpow_add₀ (by norm_num)]
        congr 1
        omega
    _ ≤ 2 ^ 53 * 2 ^ guess * den := by
        have hlog := two_pow_log2_le hden.ne'
        have hpower : (2 : ℚ) ^ (53 : Int) = 2 ^ 53 := zpow_natCast 2 53
        rw [hpower]
        exact mul_le_mul_of_nonneg_left hlog (by positivity)

/-- It has no fewer at the exponent below. -/
theorem le_quotient_of_guess {num den : Nat} (hnum : num ≠ 0) (hden : 0 < den) {guess : Int}
    (hguess : (Nat.log2 num : Int) - (Nat.log2 den : Int) - 52 = guess) :
    2 ^ 52 * 2 ^ (guess - 1) ≤ (num : ℚ) / den := by
  have hpos : (0 : ℚ) < den := by exact_mod_cast hden
  rw [le_div_iff₀ hpos]
  calc (2 : ℚ) ^ 52 * 2 ^ (guess - 1) * den
      ≤ 2 ^ 52 * 2 ^ (guess - 1) * 2 ^ ((Nat.log2 den : Int) + 1) :=
        mul_le_mul_of_nonneg_left (lt_two_pow_log2 den).le (by positivity)
    _ = 2 ^ (Nat.log2 num : Int) := by
        have hpower : (2 : ℚ) ^ 52 = 2 ^ (52 : Int) := (zpow_natCast 2 52).symm
        rw [hpower, ← zpow_add₀ (by norm_num), ← zpow_add₀ (by norm_num)]
        congr 1
        omega
    _ ≤ num := two_pow_log2_le hnum

/-- At the exponent of a quotient its mantissa has at most 53 bits, and no fewer unless the
    exponent is the least one. -/
theorem exponentOf_spec {num den : Nat} (hnum : num ≠ 0) (hden : 0 < den) :
    (num : ℚ) / den < 2 ^ 53 * 2 ^ exponentOf num den
      ∧ (exponentOf num den = minExponent ∨ 2 ^ 52 * 2 ^ exponentOf num den ≤ (num : ℚ) / den) := by
  generalize hguess : (Nat.log2 num : Int) - (Nat.log2 den : Int) - 52 = guess
  -- the guess is right, or one too large
  have hhigh := quotient_lt_of_guess num hden hguess
  have hlow := le_quotient_of_guess hnum hden hguess
  obtain ⟨hscaled, hratio⟩ := scaleTo_spec num hden guess
  have hscaled' : (0 : ℚ) < (scaleTo num den guess).2 := by exact_mod_cast hscaled
  -- the comparison of the definition, as one of the quotient
  have hcompare : (scaleTo num den guess).1 < (scaleTo num den guess).2 * twoTo 52
      ↔ (num : ℚ) / den < 2 ^ 52 * 2 ^ guess := by
    have hcast : (scaleTo num den guess).1 < (scaleTo num den guess).2 * twoTo 52
        ↔ ((scaleTo num den guess).1 : ℚ) / (scaleTo num den guess).2 < 2 ^ 52 := by
      rw [div_lt_iff₀ hscaled', mul_comm, ← cast_twoTo, ← Nat.cast_mul, Nat.cast_lt]
    rw [hcast, hratio, div_lt_iff₀ (by positivity)]
  have hbest : ∃ best, exponentOf num den = max best minExponent
      ∧ (num : ℚ) / den < 2 ^ 53 * 2 ^ best ∧ 2 ^ 52 * 2 ^ best ≤ (num : ℚ) / den := by
    unfold exponentOf
    simp only [hguess]
    by_cases hless : (scaleTo num den guess).1 < (scaleTo num den guess).2 * twoTo 52
    · refine ⟨guess - 1, by rw [if_pos hless], ?_, hlow⟩
      have hless' := hcompare.1 hless
      rw [two_zpow_double guess] at hless'
      linarith
    · refine ⟨guess, by rw [if_neg hless], hhigh, ?_⟩
      exact not_lt.1 fun h => hless (hcompare.2 h)
  obtain ⟨best, hexponent, hhigh', hlow'⟩ := hbest
  rw [hexponent]
  have hle : (2 : ℚ) ^ best ≤ 2 ^ max best minExponent :=
    zpow_le_zpow_right₀ (by norm_num) (le_max_left _ _)
  refine ⟨by linarith, ?_⟩
  rcases le_total best minExponent with hmin | hmin
  · exact .inl (max_eq_right hmin)
  · rw [max_eq_left hmin]
    exact .inr hlow'

/-! ## The nearest double -/

/-- The double of a mantissa that was rounded at a scale, unless it is too large. -/
theorem nearest?_eq (negative : Bool) {num den n d : Nat} {scale : Int} (hnum : num ≠ 0)
    (hexponent : exponentOf num den = scale) (hscale : scaleTo num den scale = (n, d)) :
    nearest? negative num den
      = if roundHalfEven n d = twoTo 53 then
          if maxExponent < scale + 1 then none else some ⟨negative, twoTo 52, scale + 1⟩
        else if maxExponent < scale then none else some ⟨negative, roundHalfEven n d, scale⟩ := by
  rw [nearest?, if_neg hnum]
  extract_lets e
  rw [show e = scale from hexponent, hscale]
  by_cases hfull : roundHalfEven n d = twoTo 53
  · simp only [if_pos hfull]
  · simp only [if_neg hfull]

/-- How a double lies to a quotient that it is nearest to: at a scale at which the quotient has
    at most 53 bits, it is a whole number of steps and at most half a step away. -/
structure Near (y : Double) (q : ℚ) (scale : Int) : Prop where
  high : q < 2 ^ 53 * 2 ^ scale
  low : scale = minExponent ∨ 2 ^ 52 * 2 ^ scale ≤ q
  steps : ∃ m : Nat, y.magnitude = m * 2 ^ scale
  close : |y.magnitude - q| ≤ 2 ^ (scale - 1)

/-- A distance of half a step at most, as a distance of magnitudes. -/
theorem abs_magnitude_sub_le {m : Nat} {q : ℚ} {scale : Int}
    (h : |(m : ℚ) - q / 2 ^ scale| ≤ 1 / 2) : |m * 2 ^ scale - q| ≤ 2 ^ (scale - 1) := by
  have hpow : (0 : ℚ) < 2 ^ scale := by positivity
  have hfactor : m * 2 ^ scale - q = (m - q / 2 ^ scale) * 2 ^ scale := by
    field_simp
  rw [hfactor, abs_mul, abs_of_pos hpow]
  calc |(m : ℚ) - q / 2 ^ scale| * 2 ^ scale ≤ 1 / 2 * 2 ^ scale :=
        mul_le_mul_of_nonneg_right h hpow.le
    _ = 2 ^ (scale - 1) := by rw [two_zpow_double scale]; ring

/-- A quotient of fewer than 54 bits is rounded to at most `2 ^ 53`. -/
theorem rounded_le {m : Nat} {q : ℚ} {scale : Int} (hhigh : q < 2 ^ 53 * 2 ^ scale)
    (h : |(m : ℚ) - q / 2 ^ scale| ≤ 1 / 2) : m ≤ 2 ^ 53 := by
  have hpow : (0 : ℚ) < 2 ^ scale := by positivity
  have hq : q / 2 ^ scale < 2 ^ 53 := by rwa [div_lt_iff₀ hpow]
  have hless : (m : ℚ) < 2 ^ 53 + 1 := by
    have := (abs_le.1 h).2
    linarith
  have hnat : m < 2 ^ 53 + 1 := by exact_mod_cast hless
  omega

/-- The scale of a quotient that does not lie beyond the largest double. -/
theorem scale_le_maxExponent {q : ℚ} {scale : Int} (hsmall : q < overflow)
    (hlow : scale = minExponent ∨ 2 ^ 52 * 2 ^ scale ≤ q) : scale ≤ maxExponent := by
  by_contra hgreater
  have hat : 2 ^ 52 * 2 ^ scale ≤ q := by
    rcases hlow with hmin | hlow
    · rw [hmin] at hgreater
      exact absurd minExponent_le_maxExponent hgreater
    · exact hlow
  have hpower : (2 : ℚ) ^ (maxExponent + 1) ≤ 2 ^ scale :=
    zpow_le_zpow_right₀ (by norm_num) (by omega)
  have hdouble₁ := two_zpow_double (maxExponent + 1)
  have hdouble₂ := two_zpow_double maxExponent
  rw [add_sub_cancel_right] at hdouble₁
  rw [overflow] at hsmall
  have hstep : (0 : ℚ) < 2 ^ (maxExponent - 1) := by positivity
  linarith

/-- A mantissa that is rounded up to 54 bits leaves room for the next exponent. -/
theorem scale_lt_maxExponent {q : ℚ} {scale : Int} (hsmall : q < overflow)
    (hmax : scale ≤ maxExponent) (hclose : |2 ^ 53 * 2 ^ scale - q| ≤ 2 ^ (scale - 1)) :
    scale < maxExponent := by
  refine lt_of_le_of_ne hmax fun heq => ?_
  have hfar := (abs_le.1 hclose).2
  rw [heq, two_zpow_double maxExponent] at hfar
  rw [overflow] at hsmall
  linarith

/-- The double that stands for a mantissa of 54 bits. -/
theorem magnitude_carried (negative : Bool) (scale : Int) :
    (⟨negative, twoTo 52, scale + 1⟩ : Double).magnitude = 2 ^ 53 * 2 ^ scale := by
  rw [magnitude, cast_twoTo, two_zpow_double (scale + 1), add_sub_cancel_right]
  ring

theorem near_zero (negative : Bool) :
    (⟨negative, 0, minExponent⟩ : Double).Near 0 minExponent := by
  have hzero : (⟨negative, 0, minExponent⟩ : Double).magnitude = 0 := by simp [magnitude]
  exact ⟨by positivity, .inl rfl, ⟨0, by rw [hzero]; simp⟩,
    by rw [hzero, sub_zero, abs_zero]; positivity⟩

/-- A quotient that does not lie beyond the largest double has a nearest double. -/
theorem exists_nearest (negative : Bool) {num den : Nat} (hden : 0 < den)
    (hsmall : (num : ℚ) / den < overflow) :
    ∃ y scale, nearest? negative num den = some y ∧ y.InRange ∧ y.Near (num / den) scale := by
  by_cases hnum : num = 0
  · refine ⟨⟨negative, 0, minExponent⟩, minExponent, by rw [nearest?, if_pos hnum],
      ⟨by norm_num, minExponent_le_maxExponent⟩, ?_⟩
    rw [hnum, Nat.cast_zero, zero_div]
    exact near_zero negative
  · obtain ⟨hhigh, hlow⟩ := exponentOf_spec hnum hden
    generalize hexponent : exponentOf num den = scale at hhigh hlow
    obtain ⟨hscaled, hratio⟩ := scaleTo_spec num hden scale
    rcases hscale : scaleTo num den scale with ⟨n, d⟩
    rw [hscale] at hscaled hratio
    have hround := @abs_roundHalfEven_sub_le n d hscaled
    rw [hratio] at hround
    rw [nearest?_eq negative hnum hexponent hscale]
    -- of the rounded mantissa only its distance from the quotient matters from here on
    generalize roundHalfEven n d = m at hround ⊢
    have hclose := abs_magnitude_sub_le hround
    have hle := rounded_le hhigh hround
    have hmax := scale_le_maxExponent hsmall hlow
    by_cases hfull : m = twoTo 53
    · -- the mantissa has grown to 54 bits; the next exponent is not too large either
      rw [hfull, cast_twoTo] at hclose
      have hless := scale_lt_maxExponent hsmall hmax hclose
      have hmagnitude := magnitude_carried negative scale
      refine ⟨⟨negative, twoTo 52, scale + 1⟩, scale, ?_, ⟨?_, ?_⟩, hhigh, hlow,
        ⟨2 ^ 53, by rw [hmagnitude]; norm_num⟩, by rw [hmagnitude]; exact hclose⟩
      · rw [if_pos hfull, if_neg (by omega)]
      · show twoTo 52 < 2 ^ 53
        rw [twoTo_eq]
        norm_num
      · show scale + 1 ≤ maxExponent
        omega
    · refine ⟨⟨negative, m, scale⟩, scale, ?_, ⟨?_, hmax⟩, hhigh, hlow, ⟨m, rfl⟩, hclose⟩
      · rw [if_neg hfull, if_neg (by omega)]
      · rw [twoTo_eq] at hfull
        exact lt_of_le_of_ne hle hfull

namespace Near

variable {y : Double} {q : ℚ} {n : Nat} {scale : Int}

/-- A whole number is met up to a factor next to one. -/
theorem magnitude_le (h : y.Near n scale) (hn : 0 < n) :
    y.magnitude ≤ n * (1 + 1 / 2 ^ 53) := by
  have hstep : (2 : ℚ) ^ (scale - 1) ≤ n / 2 ^ 53 := by
    rcases h.low with hmin | hlow
    · have hone : (1 : ℚ) ≤ n := by exact_mod_cast hn
      calc (2 : ℚ) ^ (scale - 1) ≤ 2 ^ (-53 : Int) := by
            refine zpow_le_zpow_right₀ (by norm_num) ?_
            rw [hmin, minExponent]
            norm_num
        _ = 1 / 2 ^ 53 := by norm_num
        _ ≤ n / 2 ^ 53 := by gcongr
    · rw [two_zpow_double] at hlow
      rw [le_div_iff₀ (by positivity)]
      linarith
  have hclose := (abs_le.1 h.close).2
  linarith

/-- A whole number of 53 bits is met exactly. -/
theorem eq_of_lt (h : y.Near n scale) (hn : n < 2 ^ 53) : y.magnitude = n := by
  obtain ⟨m, hm⟩ := h.steps
  have hcast : (n : ℚ) < 2 ^ 53 := by exact_mod_cast hn
  have hscale : scale ≤ 0 := by
    by_contra hgreater
    have hlow : 2 ^ 52 * 2 ^ scale ≤ (n : ℚ) := by
      rcases h.low with hmin | hlow
      · rw [hmin, minExponent] at hgreater
        exact absurd (by norm_num) hgreater
      · exact hlow
    have hpower : (2 : ℚ) ^ (1 : Int) ≤ 2 ^ scale :=
      zpow_le_zpow_right₀ (by norm_num) (by omega)
    rw [zpow_one] at hpower
    linarith
  -- at such a scale the number itself is a whole number of steps
  have hsteps : (n : ℚ) = (n * 2 ^ (-scale).toNat : Nat) * 2 ^ scale := by
    rw [zpow_neg_toNat hscale]
    push_cast
    field_simp
  have hpow : (0 : ℚ) < 2 ^ scale := by positivity
  have hclose := h.close
  rw [hm, hsteps, ← sub_mul, abs_mul, abs_of_pos hpow] at hclose
  have hhalf : |(m : ℚ) - (n * 2 ^ (-scale).toNat : Nat)| ≤ 1 / 2 := by
    have hdouble := two_zpow_double scale
    rw [hdouble] at hclose
    have hstep : (0 : ℚ) < 2 ^ (scale - 1) := by positivity
    by_contra hgreater
    have := mul_lt_mul_of_pos_right (not_le.1 hgreater) (mul_pos two_pos hstep)
    linarith
  have hequal : m = n * 2 ^ (-scale).toNat := by
    have hbounds := abs_le.1 hhalf
    have hless : (m : ℚ) < (n * 2 ^ (-scale).toNat : Nat) + 1 := by linarith [hbounds.2]
    have hless' : ((n * 2 ^ (-scale).toNat : Nat) : ℚ) < m + 1 := by linarith [hbounds.1]
    have hnat : m < n * 2 ^ (-scale).toNat + 1 := by exact_mod_cast hless
    have hnat' : n * 2 ^ (-scale).toNat < m + 1 := by exact_mod_cast hless'
    omega
  rw [hm, hsteps, hequal]

/-- A whole number of 54 bits is met up to one. -/
theorem magnitude_le_add_one (h : y.Near n scale) (hn : n < 2 ^ 54) : y.magnitude ≤ n + 1 := by
  have hcast : (n : ℚ) < 2 ^ 54 := by exact_mod_cast hn
  have hscale : scale - 1 ≤ 0 := by
    by_contra hgreater
    have hlow : 2 ^ 52 * 2 ^ scale ≤ (n : ℚ) := by
      rcases h.low with hmin | hlow
      · rw [hmin, minExponent] at hgreater
        exact absurd (by norm_num) hgreater
      · exact hlow
    have hpower : (2 : ℚ) ^ (2 : Int) ≤ 2 ^ scale :=
      zpow_le_zpow_right₀ (by norm_num) (by omega)
    norm_num at hpower
    linarith
  have hstep : (2 : ℚ) ^ (scale - 1) ≤ 2 ^ (0 : Int) := zpow_le_zpow_right₀ (by norm_num) hscale
  rw [zpow_zero] at hstep
  have hclose := (abs_le.1 h.close).2
  linarith

end Near

end Double

end PropertyGraph.Decimal
