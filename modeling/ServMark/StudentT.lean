import Mathlib.Analysis.Real.Pi.Bounds
import Mathlib.Analysis.SpecialFunctions.Trigonometric.ArctanDeriv
import Mathlib.Analysis.SpecialFunctions.Trigonometric.Bounds
import ServMark.Types
import ServMark.Library.Bisection

/-! The t distribution of stats.c: the incomplete beta function by a continued fraction, the
distribution function from it, and the quantile by bisection. How far the bisection is the inverse of
the function it is given. -/
namespace ServMark

section Code
variable {α : Type} [Field α] [LinearOrder α]

/-- A denominator next to zero is replaced. -/
def lentzGuard (d : α) : α := if |d| < ratio 1 (10 ^ 30) then ratio 1 (10 ^ 30) else d

structure Lentz (α : Type) where
  c : α
  d : α
  h : α

/-- One coefficient aa of the fraction. -/
def Lentz.take (s : Lentz α) (aa : α) : Lentz α :=
  let d := lentzGuard (1 + aa * s.d)
  let c := lentzGuard (1 + aa / s.c)
  ⟨c, 1 / d, s.h * (1 / d * c)⟩

def evenCoefficient (a b x : α) (m : Nat) : α := m * (b - m) * x / ((a + (2 * m : Nat) - 1) * (a + (2 * m : Nat)))

def oddCoefficient (a b x : α) (m : Nat) : α := -(a + m) * (a + b + m) * x / ((a + (2 * m : Nat)) * (a + (2 * m : Nat) + 1))

def lentzRound (a b x : α) (m : Nat) (s : Lentz α) : Lentz α :=
  (s.take (evenCoefficient a b x m)).take (oddCoefficient a b x m)

/-- The rounds from m on, so many at most, and whether the factor of the last is next to one. -/
def lentzLoop (a b x : α) : Nat → Nat → Lentz α → Lentz α × Bool
  | 0, _, s => (s, false)
  | rounds + 1, m, s =>
    let next := lentzRound a b x m s
    if |next.d * next.c - 1| < ratio 3 (10 ^ 7) then (next, true) else lentzLoop a b x rounds (m + 1) next

def lentzStart (a b x : α) : Lentz α :=
  let d := 1 / lentzGuard (1 - (a + b) * x / (a + 1))
  ⟨1, d, d⟩

def lentz (a b x : α) : Lentz α × Bool := lentzLoop a b x 200 1 (lentzStart a b x)

variable [Libm α] (lgamma : α → α)

def betaFront (a b x : α) : α :=
  let logBeta := lgamma a + lgamma b - lgamma (a + b)
  Libm.exp (Libm.log a + Libm.log x + b * Libm.log (1 - x) - Libm.log a - logBeta)

def betaInc (a b x : α) : α :=
  if x < 0 ∨ x > 1 then 0
  else if x = 0 ∨ x = 1 then x
  else betaFront lgamma a b x * ((lentz a b x).1.h - 1)

def tDistCdf (t df : α) : α :=
  let ib := betaInc lgamma (df / (2 : Nat)) (ratio 1 2) (df / (df + t * t))
  if t ≥ 0 then 1 - ratio 1 2 * ib else ratio 1 2 * ib

/-- The quantile for any function in the place of t_dist_cdf. The expansion that the code computes
first is not used by the search. -/
def tDistQuantileBy (cdf : α → α → α) (alpha df : α) : α :=
  if df ≤ 0 then ratio 196 100
  else
    let ends := Bisection.search (fun mid => decide (cdf mid df < 1 - alpha / (2 : Nat))) (ratio 1 (10 ^ 6)) 50 0 (10 : Nat)
    (ends.1 + ends.2) / (2 : Nat)

def tDistQuantile (alpha df : α) : α := tDistQuantileBy (tDistCdf lgamma) alpha df

end Code

/-- The upper half of the distribution function of a continuous distribution about zero. -/
structure UpperHalf (F : ℝ → ℝ) : Prop where
  continuous : ContinuousOn F (Set.Ici 0)
  increasing : StrictMonoOn F (Set.Ici 0)
  half : F 0 = 1 / 2
  limit : Filter.Tendsto F Filter.atTop (nhds 1)

/-- The number returned is next to the t with F(t) = 1 - alpha/2. -/
def FindsQuantile (F : ℝ → ℝ) (alpha df : ℝ) : Prop :=
  ∃ t, 0 ≤ t ∧ F t = 1 - alpha / (2 : Nat) ∧ |tDistQuantileBy (fun x _ => F x) alpha df - t| ≤ ratio 1 (10 ^ 6)

theorem tDistQuantileBy_eq (cdf : ℝ → ℝ → ℝ) (alpha : ℝ) {df : ℝ} (positive : 0 < df) :
    tDistQuantileBy cdf alpha df =
      ((Bisection.search (fun mid => decide (cdf mid df < 1 - alpha / 2)) (1 / 10 ^ 6) 50 0 10).1 +
        (Bisection.search (fun mid => decide (cdf mid df < 1 - alpha / 2)) (1 / 10 ^ 6) 50 0 10).2) / 2 := by
  simp only [tDistQuantileBy, if_neg positive.not_ge, ratio]
  norm_num

theorem findsQuantile_def (F : ℝ → ℝ) (alpha df : ℝ) : FindsQuantile F alpha df ↔
    ∃ t, 0 ≤ t ∧ F t = 1 - alpha / 2 ∧ |tDistQuantileBy (fun x _ => F x) alpha df - t| ≤ 1 / 10 ^ 6 := by
  simp only [FindsQuantile, ratio]
  norm_num

section Quantile
variable {F : ℝ → ℝ} (upper : UpperHalf F)

include upper in
theorem quantile_exists {p : ℝ} (low : 1 / 2 < p) (high : p < 1) : ∃ t, 0 ≤ t ∧ F t = p := by
  obtain ⟨top, reached, nonneg⟩ := ((upper.limit.eventually (lt_mem_nhds high)).and (Filter.eventually_ge_atTop 0)).exists
  have between : p ∈ Set.Icc (F 0) (F top) := ⟨by rw [upper.half]; exact low.le, reached.le⟩
  obtain ⟨t, inside, same⟩ := intermediate_value_Icc nonneg (upper.continuous.mono Set.Icc_subset_Ici_self) between
  exact ⟨t, inside.1, same⟩

/-- The halvings of the bracket from 0 to 10 that bring it under the tolerance. -/
theorem bracket_width (below : ℝ → Bool) :
    (Bisection.search below (1 / 10 ^ 6) 50 0 10).2 - (Bisection.search below (1 / 10 ^ 6) 50 0 10).1 = 10 / 2 ^ 24 := by
  have long (j : Nat) (last : j ≤ 23) : (1 : ℝ) / 10 ^ 6 ≤ (10 - 0) / 2 ^ j := by
    have power : (2 : ℝ) ^ j ≤ 2 ^ 23 := pow_le_pow_right₀ one_le_two last
    rw [sub_zero, le_div_iff₀ (by positivity)]
    norm_num at power ⊢
    linarith
  have width : (Bisection.search below (1 / 10 ^ 6) 50 (0 : ℝ) 10).2 -
      (Bisection.search below (1 / 10 ^ 6) 50 (0 : ℝ) 10).1 = (10 - 0) / 2 ^ (23 + 1) :=
    Bisection.search_width below 50 (by norm_num) (by norm_num) (fun j _ last => long j last)
  rw [width, sub_zero]

variable {alpha df t : ℝ} (positive : 0 < df) (knows : ∀ x, 0 ≤ x → (F x < 1 - alpha / 2 ↔ x < t))

include positive knows in
theorem quantile_inside (nonneg : 0 ≤ t) (inside : t ≤ 10) :
    |tDistQuantileBy (fun x _ => F x) alpha df - t| ≤ 1 / 10 ^ 6 := by
  let below : ℝ → Bool := fun mid => decide (F mid < 1 - alpha / 2)
  have tests (x : ℝ) (proper : 0 ≤ x) : below x = true ↔ x < t := by
    rw [decide_eq_true_eq]
    exact knows x proper
  obtain ⟨left, right⟩ : (Bisection.search below (1 / 10 ^ 6) 50 0 10).1 ≤ t ∧
      t ≤ (Bisection.search below (1 / 10 ^ 6) 50 0 10).2 :=
    Bisection.search_brackets 50 ⟨nonneg, inside⟩ (fun x proper _ => tests x proper)
  have width := bracket_width below
  have value : tDistQuantileBy (fun x _ => F x) alpha df = ((Bisection.search below (1 / 10 ^ 6) 50 0 10).1 +
      (Bisection.search below (1 / 10 ^ 6) 50 0 10).2) / 2 := tDistQuantileBy_eq _ alpha positive
  rw [value, abs_le]
  constructor
  · norm_num at width left right ⊢
    linarith
  · norm_num at width left right ⊢
    linarith

include positive knows in
/-- A goal beyond the bracket leaves the search at its upper end. -/
theorem quantile_beyond (outside : 10 < t) : tDistQuantileBy (fun x _ => F x) alpha df = 10 - 10 / 2 ^ 25 := by
  let below : ℝ → Bool := fun mid => decide (F mid < 1 - alpha / 2)
  have climbs : (Bisection.search below (1 / 10 ^ 6) 50 0 10).2 = 10 := by
    apply Bisection.search_climbs 50 (by norm_num)
    intro x proper less
    exact decide_eq_true ((knows x proper).mpr (less.trans outside))
  have width := bracket_width below
  have value : tDistQuantileBy (fun x _ => F x) alpha df = ((Bisection.search below (1 / 10 ^ 6) 50 0 10).1 +
      (Bisection.search below (1 / 10 ^ 6) 50 0 10).2) / 2 := tDistQuantileBy_eq _ alpha positive
  rw [climbs] at width value
  rw [value]
  linarith

end Quantile

section Found
variable {F : ℝ → ℝ} (upper : UpperHalf F) {alpha df t : ℝ} (nonneg : 0 ≤ t) (same : F t = 1 - alpha / 2)
include upper nonneg same

theorem finds_iff : FindsQuantile F alpha df ↔ |tDistQuantileBy (fun x _ => F x) alpha df - t| ≤ 1 / 10 ^ 6 := by
  rw [findsQuantile_def]
  constructor
  · rintro ⟨r, other, equal, close⟩
    rwa [upper.increasing.injOn other nonneg (equal.trans same.symm)] at close
  · exact fun close => ⟨t, nonneg, same, close⟩

theorem finds_with_degrees (positive : 0 < df) :
    FindsQuantile F alpha df ↔ t ≤ 10 - 10 / 2 ^ 25 + 1 / 10 ^ 6 := by
  have knows (x : ℝ) (proper : 0 ≤ x) : F x < 1 - alpha / 2 ↔ x < t := by
    rw [← same]
    exact upper.increasing.lt_iff_lt proper nonneg
  rw [finds_iff upper nonneg same]
  by_cases inside : t ≤ 10
  · exact iff_of_true (quantile_inside positive knows nonneg inside) (inside.trans (by norm_num))
  · have outside := not_le.mp inside
    rw [quantile_beyond positive knows outside, abs_le]
    constructor
    · rintro ⟨lower, _⟩
      linarith
    · intro close
      refine ⟨by linarith, ?_⟩
      norm_num
      linarith

theorem finds_without_degrees (none : df ≤ 0) :
    FindsQuantile F alpha df ↔ 196 / 100 - 1 / 10 ^ 6 ≤ t ∧ t ≤ 196 / 100 + 1 / 10 ^ 6 := by
  have constant : tDistQuantileBy (fun x _ => F x) alpha df = 196 / 100 := by
    simp only [tDistQuantileBy, if_pos none, ratio, Nat.cast_ofNat]
  rw [finds_iff upper nonneg same, constant, abs_le]
  constructor
  · rintro ⟨lower, higher⟩
    constructor <;> linarith
  · rintro ⟨lower, higher⟩
    constructor <;> linarith

end Found

/-- The quantile is found exactly if it does not lie beyond the bracket, or where there are no degrees
of freedom, if it is next to the constant for that case. -/
theorem quantile_found_iff (F : ℝ → ℝ) (upper : UpperHalf F) (alpha df : ℝ) (low : 0 < alpha) (high : alpha < 1) :
    FindsQuantile F alpha df ↔
      (0 < df ∧ 1 - alpha / 2 ≤ F (10 - 10 / 2 ^ 25 + 1 / 10 ^ 6)) ∨
      (df ≤ 0 ∧ F (196 / 100 - 1 / 10 ^ 6) ≤ 1 - alpha / 2 ∧ 1 - alpha / 2 ≤ F (196 / 100 + 1 / 10 ^ 6)) := by
  obtain ⟨t, nonneg, same⟩ := quantile_exists upper (by linarith : 1 / 2 < 1 - alpha / 2) (by linarith)
  have order {x y : ℝ} (first : 0 ≤ x) (second : 0 ≤ y) : F x ≤ F y ↔ x ≤ y :=
    upper.increasing.le_iff_le first second
  rw [← same]
  rcases lt_or_ge 0 df with positive | none
  · have bound : (0 : ℝ) ≤ 10 - 10 / 2 ^ 25 + 1 / 10 ^ 6 := by norm_num
    rw [finds_with_degrees upper nonneg same positive, order nonneg bound]
    simp only [positive, positive.not_ge, true_and, false_and, or_false]
  · have left : (0 : ℝ) ≤ 196 / 100 - 1 / 10 ^ 6 := by norm_num
    have right : (0 : ℝ) ≤ 196 / 100 + 1 / 10 ^ 6 := by norm_num
    rw [finds_without_degrees upper nonneg same none, order left nonneg, order nonneg right]
    simp only [none, none.not_gt, true_and, false_and, false_or]

/-- The distribution function of t with one degree of freedom. -/
noncomputable def cauchyCdf (t : ℝ) : ℝ := ratio 1 2 + Real.arctan t / Real.pi

theorem cauchyCdf_eq (t : ℝ) : cauchyCdf t = 1 / 2 + Real.arctan t / Real.pi := by
  rw [cauchyCdf, ratio, Nat.cast_one, Nat.cast_ofNat]

theorem cauchy_upper : UpperHalf cauchyCdf := by
  constructor
  · unfold cauchyCdf
    fun_prop
  · intro x _ y _ less
    have angle := Real.arctan_strictMono less
    unfold cauchyCdf
    gcongr
  · simp [cauchyCdf_eq]
  · have angle : Filter.Tendsto Real.arctan Filter.atTop (nhds (Real.pi / 2)) :=
      Real.tendsto_arctan_atTop.mono_right nhdsWithin_le_nhds
    have whole : 1 / 2 + Real.pi / 2 / Real.pi = 1 := by
      field_simp
      norm_num
    have sum := (angle.div_const Real.pi).const_add (1 / 2)
    simp only [← cauchyCdf_eq, whole] at sum
    exact sum

theorem cauchy_quantile_found : FindsQuantile cauchyCdf (1 / 2) 1 := by
  refine (quantile_found_iff cauchyCdf cauchy_upper (1 / 2) 1 (by norm_num) (by norm_num)).mpr (Or.inl ⟨one_pos, ?_⟩)
  have quarter : (1 : ℝ) - 1 / 2 / 2 = cauchyCdf 1 := by
    rw [cauchyCdf_eq, Real.arctan_one]
    field_simp
    norm_num
  rw [quarter]
  exact (cauchy_upper.increasing.le_iff_le (by norm_num) (by norm_num)).mpr (by norm_num)

theorem cauchy_eleven : cauchyCdf 11 < 1 - 5 / 100 / 2 := by
  have small : Real.pi / 40 < 1 / 12 := by linarith [Real.pi_lt_d2]
  have positive : 0 < Real.pi / 40 := by positivity
  have sine : Real.sin (Real.pi / 40) < 1 / 12 := (Real.sin_lt positive).trans small
  have cosine : 11 / 12 < Real.cos (Real.pi / 40) := by
    have bound := Real.one_sub_sq_div_two_le_cos (x := Real.pi / 40)
    nlinarith
  have tangent : 11 < Real.tan (Real.pi / 2 - Real.pi / 40) := by
    have sine_pos : 0 < Real.sin (Real.pi / 40) := Real.sin_pos_of_pos_of_lt_pi positive (by linarith [Real.pi_pos])
    rw [Real.tan_pi_div_two_sub, Real.tan_eq_sin_div_cos, inv_div, lt_div_iff₀ sine_pos]
    linarith
  have angle : Real.arctan 11 < Real.pi / 2 - Real.pi / 40 := by
    rw [← Real.arctan_tan (by linarith : -(Real.pi / 2) < Real.pi / 2 - Real.pi / 40) (by linarith)]
    exact Real.arctan_strictMono tangent
  have share : Real.arctan 11 / Real.pi < (Real.pi / 2 - Real.pi / 40) / Real.pi :=
    div_lt_div_of_pos_right angle Real.pi_pos
  have value : (Real.pi / 2 - Real.pi / 40) / Real.pi = 19 / 40 := by
    field_simp
    norm_num
  rw [cauchyCdf_eq]
  linarith

/-- At the level 0.05 the quantile is above 11, and the search returns no more than 10. -/
theorem cauchy_quantile_missed : UpperHalf cauchyCdf ∧ ¬ FindsQuantile cauchyCdf (5 / 100) 1 := by
  refine ⟨cauchy_upper, ?_⟩
  rw [findsQuantile_def]
  rintro ⟨t, nonneg, same, close⟩
  have far : 11 < t := by
    have level := cauchy_eleven
    rw [← same] at level
    exact (cauchy_upper.increasing.lt_iff_lt (by norm_num) nonneg).mp level
  have knows (x : ℝ) (proper : 0 ≤ x) : cauchyCdf x < 1 - 5 / 100 / 2 ↔ x < t := by
    rw [← same]
    exact cauchy_upper.increasing.lt_iff_lt proper nonneg
  rw [quantile_beyond one_pos knows (by linarith), abs_le] at close
  norm_num at close
  linarith [close.1]

end ServMark
