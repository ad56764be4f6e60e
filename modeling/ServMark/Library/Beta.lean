import Mathlib.Analysis.SpecialFunctions.Gamma.BohrMollerup
import Mathlib.Analysis.SpecialFunctions.Integrals.Basic
import Mathlib.Probability.Distributions.Beta
import Mathlib.Tactic

/-! The regularized incomplete beta function, its values at both ends, and how it and the beta function
with 1/2 lie between powers. -/
namespace Special
open ProbabilityTheory (beta beta_pos)

noncomputable def betaDensity (a b t : ℝ) : ℝ := t ^ (a - 1) * (1 - t) ^ (b - 1)

noncomputable def incompleteBeta (a b x : ℝ) : ℝ := (∫ t in (0 : ℝ)..x, betaDensity a b t) / beta a b

section Ends
variable {a b : ℝ}

theorem incompleteBeta_zero : incompleteBeta a b 0 = 0 := by simp [incompleteBeta]

theorem betaDensity_whole (a_pos : 0 < a) (b_pos : 0 < b) : ∫ t in (0 : ℝ)..1, betaDensity a b t = beta a b := by
  have complex : ∫ t in (0 : ℝ)..1, ((betaDensity a b t : ℝ) : ℂ) = Complex.betaIntegral a b := by
    apply intervalIntegral.integral_congr
    intro t inside
    rw [Set.uIcc_of_le zero_le_one] at inside
    have left : ((t ^ (a - 1) : ℝ) : ℂ) = (t : ℂ) ^ ((a : ℂ) - 1) := by
      rw [Complex.ofReal_cpow inside.1, Complex.ofReal_sub, Complex.ofReal_one]
    have right : (((1 - t) ^ (b - 1) : ℝ) : ℂ) = (1 - (t : ℂ)) ^ ((b : ℂ) - 1) := by
      rw [Complex.ofReal_cpow (sub_nonneg.mpr inside.2), Complex.ofReal_sub, Complex.ofReal_one, Complex.ofReal_sub,
        Complex.ofReal_one]
    simp only [betaDensity, Complex.ofReal_mul, left, right]
  rw [ProbabilityTheory.beta_eq_betaIntegralReal a b a_pos b_pos, ← complex, intervalIntegral.integral_ofReal,
    Complex.ofReal_re]

theorem incompleteBeta_one (a_pos : 0 < a) (b_pos : 0 < b) : incompleteBeta a b 1 = 1 := by
  rw [incompleteBeta, betaDensity_whole a_pos b_pos, div_self (beta_pos a_pos b_pos).ne']

end Ends

section Between
variable {a b x : ℝ} (a_pos : 0 < a) (b_pos : 0 < b) (b_high : b ≤ 1) (low : 0 ≤ x) (high : x < 1)

include a_pos in
theorem power_integral : ∫ t in (0 : ℝ)..x, t ^ (a - 1) = x ^ a / a := by
  rw [integral_rpow (Or.inl (by linarith)), sub_add_cancel, Real.zero_rpow a_pos.ne', sub_zero]

include a_pos in
theorem power_integrable : IntervalIntegrable (fun t : ℝ => t ^ (a - 1)) MeasureTheory.volume 0 x :=
  intervalIntegral.intervalIntegrable_rpow' (by linarith)

include a_pos low high in
theorem betaDensity_integrable : IntervalIntegrable (betaDensity a b) MeasureTheory.volume 0 x := by
  apply (power_integrable a_pos).mul_continuousOn
  intro t inside
  rw [Set.uIcc_of_le low] at inside
  have positive : 1 - t ≠ 0 := (sub_pos.mpr (inside.2.trans_lt high)).ne'
  exact ((continuous_const.sub continuous_id).continuousAt.rpow_const (Or.inl positive)).continuousWithinAt

include a_pos b_high low high in
theorem betaDensity_between : x ^ a / a ≤ ∫ t in (0 : ℝ)..x, betaDensity a b t ∧
    ∫ t in (0 : ℝ)..x, betaDensity a b t ≤ x ^ a / a * (1 - x) ^ (b - 1) := by
  have whole := betaDensity_integrable (b := b) a_pos low high
  constructor
  · rw [← power_integral a_pos]
    apply intervalIntegral.integral_mono_on low (power_integrable a_pos) whole
    intro t inside
    have room : 0 < 1 - t := sub_pos.mpr (inside.2.trans_lt high)
    apply le_mul_of_one_le_right (Real.rpow_nonneg inside.1 _)
    exact Real.one_le_rpow_of_pos_of_le_one_of_nonpos room (by linarith [inside.1]) (by linarith)
  · rw [← power_integral a_pos, ← intervalIntegral.integral_mul_const]
    apply intervalIntegral.integral_mono_on low whole ((power_integrable a_pos).mul_const _)
    intro t inside
    apply mul_le_mul_of_nonneg_left _ (Real.rpow_nonneg inside.1 _)
    exact Real.rpow_le_rpow_of_nonpos (sub_pos.mpr high) (by linarith [inside.2]) (by linarith)

include a_pos b_pos b_high low high in
theorem incompleteBeta_between : x ^ a / a / beta a b ≤ incompleteBeta a b x ∧
    incompleteBeta a b x ≤ x ^ a / a * (1 - x) ^ (b - 1) / beta a b := by
  have positive := beta_pos a_pos b_pos
  obtain ⟨lower, upper⟩ := betaDensity_between a_pos b_high low high
  exact ⟨div_le_div_of_nonneg_right lower positive.le, div_le_div_of_nonneg_right upper positive.le⟩

end Between

theorem beta_half (a : ℝ) : beta a (1 / 2) = Real.Gamma a * √Real.pi / Real.Gamma (a + 1 / 2) := by
  rw [beta, Real.Gamma_one_half_eq]

section Half
variable {a : ℝ} (a_pos : 0 < a)
include a_pos

/-- The middle of two arguments of the gamma function. -/
theorem gamma_middle {y : ℝ} (y_pos : 0 < y) : Real.Gamma ((a + y) / 2) ≤ √(Real.Gamma a * Real.Gamma y) := by
  have convex := Real.Gamma_mul_add_mul_le_rpow_Gamma_mul_rpow_Gamma a_pos y_pos (by norm_num : (0 : ℝ) < 1 / 2)
    (by norm_num : (0 : ℝ) < 1 / 2) (by norm_num)
  have middle : 1 / 2 * a + 1 / 2 * y = (a + y) / 2 := by ring
  rwa [middle, ← Real.mul_rpow (Real.Gamma_pos_of_pos a_pos).le (Real.Gamma_pos_of_pos y_pos).le,
    ← Real.sqrt_eq_rpow] at convex

theorem beta_half_low : √(Real.pi / a) ≤ beta a (1 / 2) := by
  have gamma := Real.Gamma_pos_of_pos a_pos
  have half := Real.Gamma_pos_of_pos (by linarith : 0 < a + 1 / 2)
  have middle := gamma_middle a_pos (by linarith : 0 < a + 1)
  have point : (a + (a + 1)) / 2 = a + 1 / 2 := by ring
  have square : Real.Gamma a * (a * Real.Gamma a) = a * Real.Gamma a ^ 2 := by ring
  rw [point, Real.Gamma_add_one a_pos.ne', square, Real.sqrt_mul a_pos.le, Real.sqrt_sq gamma.le] at middle
  rw [beta_half a, le_div_iff₀ half, Real.sqrt_div Real.pi_pos.le]
  calc √Real.pi / √a * Real.Gamma (a + 1 / 2) ≤ √Real.pi / √a * (√a * Real.Gamma a) :=
        mul_le_mul_of_nonneg_left middle (by positivity)
    _ = Real.Gamma a * √Real.pi := by field_simp

theorem beta_half_high : beta a (1 / 2) ≤ √(Real.pi * (a + 1 / 2)) / a := by
  have gamma := Real.Gamma_pos_of_pos a_pos
  have room : 0 < a + 1 / 2 := by linarith
  have half := Real.Gamma_pos_of_pos room
  have middle := gamma_middle room (by linarith : 0 < a + 1 / 2 + 1)
  have point : (a + 1 / 2 + (a + 1 / 2 + 1)) / 2 = a + 1 := by ring
  have square : Real.Gamma (a + 1 / 2) * ((a + 1 / 2) * Real.Gamma (a + 1 / 2)) =
      (a + 1 / 2) * Real.Gamma (a + 1 / 2) ^ 2 := by ring
  rw [point, Real.Gamma_add_one a_pos.ne', Real.Gamma_add_one room.ne', square, Real.sqrt_mul room.le,
    Real.sqrt_sq half.le] at middle
  rw [beta_half a, div_le_div_iff₀ half a_pos, Real.sqrt_mul Real.pi_pos.le]
  calc Real.Gamma a * √Real.pi * a = √Real.pi * (a * Real.Gamma a) := by ring
    _ ≤ √Real.pi * (√(a + 1 / 2) * Real.Gamma (a + 1 / 2)) := mul_le_mul_of_nonneg_left middle (Real.sqrt_nonneg _)
    _ = √Real.pi * √(a + 1 / 2) * Real.Gamma (a + 1 / 2) := by ring

end Half
end Special
