import Mathlib.Analysis.SpecialFunctions.Gaussian.GaussianIntegral
import Mathlib.Analysis.SpecialFunctions.Gamma.Basic
import Mathlib.Tactic

/-! Two functions of the C mathematics library over the reals: the error function, by its integral,
and the logarithm of the absolute gamma function. -/
namespace Special

noncomputable def erf (x : ℝ) : ℝ := (2 : Nat) / √Real.pi * ∫ t in (0 : ℝ)..x, Real.exp (-t ^ 2)

noncomputable def lgamma (x : ℝ) : ℝ := Real.log |Real.Gamma x|

theorem bell_continuous : Continuous (fun t : ℝ => Real.exp (-t ^ 2)) := by fun_prop

theorem bell_integrable (x y : ℝ) :
    IntervalIntegrable (fun t : ℝ => Real.exp (-t ^ 2)) MeasureTheory.volume x y :=
  bell_continuous.intervalIntegrable x y

theorem erf_strictMono : StrictMono erf := by
  intro x y less
  have scale : 0 < ((2 : Nat) : ℝ) / √Real.pi := by positivity
  have area : 0 < ∫ t in x..y, Real.exp (-t ^ 2) :=
    intervalIntegral.intervalIntegral_pos_of_pos (bell_integrable x y) (fun t => Real.exp_pos _) less
  have split := intervalIntegral.integral_add_adjacent_intervals (bell_integrable 0 x) (bell_integrable x y)
  apply mul_lt_mul_of_pos_left _ scale
  rw [← split]
  exact lt_add_of_pos_right _ area

theorem erf_zero : erf 0 = 0 := by simp [erf]

theorem erf_nonneg {x : ℝ} (nonneg : 0 ≤ x) : 0 ≤ erf x := by
  rw [← erf_zero]
  exact erf_strictMono.monotone nonneg

theorem exp_lgamma {x : ℝ} (positive : 0 < x) : Real.exp (lgamma x) = Real.Gamma x := by
  have gamma := Real.Gamma_pos_of_pos positive
  rw [lgamma, abs_of_pos gamma, Real.exp_log gamma]

end Special
