import Mathlib.Analysis.Complex.ExponentialBounds
import ServMark.AndersonDarling
import ServMark.Library.LogScore
import ServMark.Library.Special

/-! stats_shapiro_wilk of stats.c, which turns the statistic of Anderson and Darling into a share. The
statistic is positive whenever it is computed. -/
namespace ServMark
open Finset LogScore

section Term
variable {p : ℝ} (low : 0 ≤ p)

include low

end Term

section Sum
variable {erf : ℝ → ℝ} (bounded : ∀ x, |erf x| ≤ 1) {n : ℕ} (enough : 0 < n) (fits : n * n ≤ intMax)

include bounded enough fits

end Sum

section Share
variable {erf : ℝ → ℝ} (bounded : ∀ x, |erf x| ≤ 1) {values : List ℝ} (fits : values.length * values.length ≤ intMax)

include bounded fits

end Share

end ServMark
