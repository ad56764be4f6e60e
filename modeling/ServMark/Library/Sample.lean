import Mathlib.Analysis.SpecialFunctions.Sqrt
import Mathlib.Tactic
import ServMark.Library.Ordered

/-! A sample of real numbers: its mean, its standard error, the standard error relative to the mean,
which takes every value from zero on, and its standard scores, which have no unit and no order. -/
namespace Sample

noncomputable def mean (xs : List ℝ) : ℝ := xs.sum / xs.length

noncomputable def variance (xs : List ℝ) : ℝ := (xs.map (fun x => (x - mean xs) ^ 2)).sum / (xs.length - 1)

noncomputable def standardError (xs : List ℝ) : ℝ := √(variance xs) / √xs.length

/-- One where the mean is zero. -/
noncomputable def relativeError (xs : List ℝ) : ℝ := if mean xs = 0 then 1 else standardError xs / |mean xs|

theorem variance_few {xs : List ℝ} (few : xs.length < 2) : variance xs = 0 := by
  match xs with
  | [] => simp [variance]
  | [x] => simp [variance]
  | x :: y :: rest => simp at few

theorem mean_affine (k c : ℝ) {xs : List ℝ} (some_ : xs ≠ []) : mean (xs.map (fun x => k * x + c)) = k * mean xs + c := by
  have size : (xs.length : ℝ) ≠ 0 := by
    have := List.length_pos_iff.mpr some_
    positivity
  have total : (xs.map (fun x => k * x + c)).sum = k * xs.sum + xs.length * c := by
    rw [List.sum_map_add, List.sum_map_mul_left, List.map_id', List.map_const', List.sum_replicate, nsmul_eq_mul]
  simp only [mean, List.length_map, total]
  field_simp

theorem variance_affine (k c : ℝ) (xs : List ℝ) : variance (xs.map (fun x => k * x + c)) = k ^ 2 * variance xs := by
  by_cases none : xs = []
  · simp [none, variance]
  · have square (x : ℝ) : (k * x + c - (k * mean xs + c)) ^ 2 = k ^ 2 * (x - mean xs) ^ 2 := by ring
    simp only [variance, mean_affine k c none, List.map_map, Function.comp_def, square, List.length_map,
      List.sum_map_mul_left, mul_div_assoc]

theorem variance_flat {xs : List ℝ} (flat : ∀ x ∈ xs, x = mean xs) : variance xs = 0 := by
  have squares : xs.map (fun x => (x - mean xs) ^ 2) = List.replicate xs.length 0 := by
    refine List.eq_replicate_iff.mpr ⟨List.length_map _, fun d member => ?_⟩
    obtain ⟨x, among, rfl⟩ := List.mem_map.mp member
    have zero : x - mean xs = 0 := sub_eq_zero.mpr (flat x among)
    simp only [zero, ne_eq, OfNat.ofNat_ne_zero, not_false_eq_true, zero_pow]
  rw [variance, squares, List.sum_replicate, smul_zero, zero_div]

theorem mean_perm {xs ys : List ℝ} (same : xs.Perm ys) : mean xs = mean ys := by
  rw [mean, mean, same.sum_eq, same.length_eq]

theorem variance_perm {xs ys : List ℝ} (same : xs.Perm ys) : variance xs = variance ys := by
  rw [variance, variance, mean_perm same, (same.map _).sum_eq, same.length_eq]

/-- The sample in order, each number as its distance from the mean in standard deviations. -/
noncomputable def scores (xs : List ℝ) : List ℝ :=
  (Ordered.inOrder xs).map (fun x => (x - mean xs) / √(variance xs))

@[simp] theorem scores_length (xs : List ℝ) : (scores xs).length = xs.length := by
  rw [scores, List.length_map, Ordered.inOrder_length]

theorem scores_perm {xs ys : List ℝ} (same : xs.Perm ys) : scores xs = scores ys := by
  rw [scores, scores, mean_perm same, variance_perm same, Ordered.inOrder_congr same]

/-- Another unit and another zero move the mean and the deviation with the numbers and keep their order. -/
theorem scores_affine {k : ℝ} (pos : 0 < k) (c : ℝ) {xs : List ℝ} (some_ : xs ≠ []) :
    scores (xs.map (fun x => k * x + c)) = scores xs := by
  have mono : Monotone (fun x => k * x + c) := fun x y le => by
    have scaled := mul_le_mul_of_nonneg_left le pos.le
    dsimp only
    linarith
  have unit : √(k ^ 2 * variance xs) = k * √(variance xs) := by
    rw [Real.sqrt_mul (sq_nonneg k), Real.sqrt_sq pos.le]
  have score (x : ℝ) : (k * x + c - (k * mean xs + c)) / (k * √(variance xs)) = (x - mean xs) / √(variance xs) := by
    rw [add_sub_add_right_eq_sub, ← mul_sub, mul_div_mul_left _ _ pos.ne']
  simp only [scores, mean_affine k c some_, variance_affine, Ordered.inOrder_map mono, List.map_map, Function.comp_def,
    unit, score]

/-- How many standard errors of their difference two means are apart. -/
noncomputable def separation (xs ys : List ℝ) : ℝ :=
  |mean xs - mean ys| / √(standardError xs ^ 2 + standardError ys ^ 2)

/-- The degrees of freedom of that difference. -/
noncomputable def freedom (xs ys : List ℝ) : ℝ :=
  (standardError xs ^ 2 + standardError ys ^ 2) ^ 2 /
    (standardError xs ^ 4 / (xs.length - 1) + standardError ys ^ 4 / (ys.length - 1))

theorem freedom_bounds {xs ys : List ℝ} (left : 2 ≤ xs.length) (right : 2 ≤ ys.length)
    (varies : 0 < standardError xs ^ 2 + standardError ys ^ 2) :
    1 ≤ freedom xs ys ∧ freedom xs ys ≤ xs.length + ys.length - 2 := by
  have p_low : (1 : ℝ) ≤ xs.length - 1 := by
    have : (2 : ℝ) ≤ xs.length := by exact_mod_cast left
    linarith
  have q_low : (1 : ℝ) ≤ ys.length - 1 := by
    have : (2 : ℝ) ≤ ys.length := by exact_mod_cast right
    linarith
  have degrees : (xs.length : ℝ) + ys.length - 2 = (xs.length - 1) + (ys.length - 1) := by ring
  have fourth (e : ℝ) : e ^ 4 = e ^ 2 * e ^ 2 := by ring
  rw [freedom, degrees, fourth, fourth]
  set p := (xs.length : ℝ) - 1
  set q := (ys.length : ℝ) - 1
  have u_nonneg := sq_nonneg (standardError xs)
  have v_nonneg := sq_nonneg (standardError ys)
  set u := standardError xs ^ 2
  set v := standardError ys ^ 2
  have p_pos : 0 < p := by linarith
  have q_pos : 0 < q := by linarith
  have products : 0 ≤ u * v := mul_nonneg u_nonneg v_nonneg
  have common : u * u / p + v * v / q = (u * u * q + v * v * p) / (p * q) := by
    field_simp
  have numerator : 0 < u * u * q + v * v * p := by
    rcases u_nonneg.eq_or_lt with zero | some_
    · rw [← zero, zero_add] at varies
      rw [← zero]
      positivity
    · positivity
  rw [common]
  constructor
  · have first : u * u / p ≤ u * u := div_le_self (mul_self_nonneg u) p_low
    have second : v * v / q ≤ v * v := div_le_self (mul_self_nonneg v) q_low
    rw [le_div_iff₀ (by positivity), ← common]
    linarith
  · rw [div_div_eq_mul_div, div_le_iff₀ numerator]
    linarith [sq_nonneg (u * q - v * p)]

theorem standardError_shift (c : ℝ) (xs : List ℝ) : standardError (xs.map (fun x => x + c)) = standardError xs := by
  have variance := variance_affine 1 c xs
  simp only [one_mul, one_pow] at variance
  rw [standardError, variance, List.length_map, standardError]

theorem mean_shift (c : ℝ) {xs : List ℝ} (some_ : xs ≠ []) : mean (xs.map (fun x => x + c)) = mean xs + c := by
  have mean := mean_affine 1 c some_
  simpa only [one_mul] using mean

/-- A sample around one whose first two numbers lie apart. -/
def spread (d : ℝ) : Nat → ℝ
  | 0 => 1 + d
  | 1 => 1 - d
  | _ => 1

theorem spread_list (d : ℝ) (n : Nat) :
    (List.range (n + 2)).map (spread d) = (1 + d) :: (1 - d) :: List.replicate n 1 := by
  have rest : (List.range n).map (spread d ∘ Nat.succ ∘ Nat.succ) = List.replicate n 1 := by
    refine List.eq_replicate_iff.mpr ⟨by simp, fun x member => ?_⟩
    obtain ⟨k, _, rfl⟩ := List.mem_map.mp member
    rfl
  rw [List.range_succ_eq_map, List.range_succ_eq_map]
  simp only [List.map_cons, List.map_map, spread, rest]

theorem spread_mean (d : ℝ) (n : Nat) : mean ((1 + d) :: (1 - d) :: List.replicate n 1) = 1 := by
  have size : (n : ℝ) + 1 + 1 ≠ 0 := by positivity
  simp only [mean, List.sum_cons, List.sum_replicate, List.length_cons, List.length_replicate, nsmul_eq_mul, mul_one]
  push_cast
  rw [div_eq_one_iff_eq size]
  ring

theorem spread_variance (d : ℝ) (n : Nat) :
    variance ((1 + d) :: (1 - d) :: List.replicate n 1) = 2 * d ^ 2 / (n + 1) := by
  simp only [variance, spread_mean, List.map_cons, List.map_replicate, List.sum_cons, List.sum_replicate,
    List.length_cons, List.length_replicate]
  push_cast
  rw [add_sub_cancel_right, sub_self]
  congr 1
  simp only [ne_eq, OfNat.ofNat_ne_zero, not_false_eq_true, zero_pow, smul_zero]
  ring

/-- Every number that is not negative is the relative error of a sample of each size from two on. -/
theorem relativeError_attained {v : ℝ} (nonneg : 0 ≤ v) {n : Nat} (enough : 2 ≤ n) :
    ∃ d, relativeError ((List.range n).map (spread d)) = v := by
  obtain ⟨m, rfl⟩ : ∃ m, n = m + 2 := ⟨n - 2, by omega⟩
  have size : (0 : ℝ) < m + 2 := by positivity
  have degrees : (0 : ℝ) < m + 1 := by positivity
  have square : (v * √((m + 1) * (m + 2) / 2)) ^ 2 = v ^ 2 * ((m + 1) * (m + 2) / 2) := by
    rw [mul_pow, Real.sq_sqrt (by positivity)]
  have scaled : 2 * (v ^ 2 * ((m + 1) * (m + 2) / 2)) / (m + 1) = v ^ 2 * (m + 2) := by
    field_simp
  have length : (((m + 2 : Nat)) : ℝ) = m + 2 := by push_cast; ring
  refine ⟨v * √((m + 1) * (m + 2) / 2), ?_⟩
  rw [spread_list, relativeError, spread_mean, if_neg one_ne_zero, abs_one, div_one, standardError, spread_variance,
    square, scaled, List.length_cons, List.length_cons, List.length_replicate, length, Real.sqrt_mul (sq_nonneg v),
    Real.sqrt_sq nonneg, mul_div_assoc, div_self (Real.sqrt_ne_zero'.mpr size), mul_one]

end Sample
