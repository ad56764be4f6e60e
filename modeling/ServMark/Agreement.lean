import ServMark.BetaInc
import ServMark.Welch

/-! Where the p-value of Welch's test and its interval tell the same story. Both are made of the same share
of the tails, at the statistic and in the search for the critical value; that share is not the one of
Student's distribution, and next to t = 0 and beyond the bracket of the search they part. -/
namespace ServMark
open ProbabilityTheory (beta beta_pos)

/-- The share of both tails beyond t, as the code has it. -/
noncomputable def tailShare (df t : ℝ) : ℝ := betaInc Special.lgamma (df / (2 : Nat)) (ratio 1 2) (df / (df + t * t))

theorem tailShare_eq (df t : ℝ) : tailShare df t = betaInc Special.lgamma (df / 2) (1 / 2) (df / (df + t * t)) := by
  simp only [tailShare, ratio, Nat.cast_one, Nat.cast_ofNat]

theorem tDistCdf_eq {t : ℝ} (nonneg : 0 ≤ t) (df : ℝ) : tDistCdf Special.lgamma t df = 1 - 1 / 2 * tailShare df t := by
  simp only [tDistCdf, tailShare, ge_iff_le, nonneg, if_true, ratio, Nat.cast_one, Nat.cast_ofNat]

theorem welchTail_eq (erf : ℝ → ℝ) {df : ℝ} (positive : 0 < df) (t : ℝ) :
    welchTail erf Special.lgamma t df = tailShare df |t| := by
  rw [welchTail, if_pos positive, tDistCdf_eq (abs_nonneg t), Nat.cast_ofNat]
  ring

theorem tailShare_zero {df : ℝ} (positive : 0 < df) : tailShare df 0 = 1 := by
  have whole : df / (df + 0 * 0) = 1 := by
    rw [mul_zero, add_zero, div_self positive.ne']
  rw [tailShare_eq, whole]
  norm_num [betaInc]

section Argument
variable {df t : ℝ} (positive : 0 < df)
include positive

theorem size_pos (t : ℝ) : 0 < df + t * t := add_pos_of_pos_of_nonneg positive (mul_self_nonneg t)

theorem argument_pos (t : ℝ) : 0 < df / (df + t * t) := div_pos positive (size_pos positive t)

theorem one_sub_argument (t : ℝ) : 1 - df / (df + t * t) = t * t / (df + t * t) := by
  rw [one_sub_div (size_pos positive t).ne', add_sub_cancel_left]

theorem argument_ge {y : ℝ} (near : y * (t * t) ≤ (1 - y) * df) : y ≤ df / (df + t * t) := by
  rw [le_div_iff₀ (size_pos positive t)]
  linarith

theorem argument_le {y : ℝ} (away : (1 - y) * df ≤ y * (t * t)) : df / (df + t * t) ≤ y := by
  rw [div_le_iff₀ (size_pos positive t)]
  linarith

theorem argument_antitone {s : ℝ} (nonneg : 0 ≤ s) (order : s ≤ t) : df / (df + t * t) ≤ df / (df + s * s) := by
  apply div_le_div_of_nonneg_left positive.le (size_pos positive s)
  linarith [mul_self_le_mul_self nonneg order]

/-- From a third on, and as far as the counts of two samples reach, the argument keeps clear of one. -/
theorem argument_unguarded (third : 1 / 3 ≤ t) (fits : df ≤ 2 ^ 32) : Unguarded (df / (df + t * t)) := by
  refine ⟨(argument_pos positive t).le, ?_⟩
  have square := mul_self_le_mul_self (by norm_num) third
  rw [one_sub_argument positive, div_le_div_iff₀ (by positivity) (size_pos positive t)]
  norm_num at square fits ⊢
  linarith

end Argument

section First

/-- The first term alone, with the beta function estimated; r is the root of (a + 1/2)(1 - x). -/
theorem first_term {a x : ℝ} (a_pos : 0 < a) (positive : 0 < x) (unguarded : Unguarded x) :
    x * x * a * √((a + 1 / 2) * (1 - x)) / (√Real.pi * ((a + 1 / 2) * (1 - x) + 1 / 2)) ≤
      betaInc Special.lgamma a (1 / 2) x := by
  have b_pos := beta_pos a_pos one_half_pos
  have b_high := Special.beta_half_high a_pos
  have size : 0 < a + 1 / 2 := by linarith
  have room : 0 ≤ 1 - x := (sub_pos.mpr unguarded.inside.2).le
  have below : 0 < (a + 1 / 2) * (1 - x) + 1 / 2 := by positivity
  have root : √(a + 1 / 2) * √(a + 1 / 2) = a + 1 / 2 := Real.mul_self_sqrt size.le
  have root_pos : 0 < √(a + 1 / 2) := Real.sqrt_pos.mpr size
  apply le_trans _ (betaInc_low a_pos positive unguarded)
  have inverse : a / (√Real.pi * √(a + 1 / 2)) ≤ 1 / beta a (1 / 2) := by
    rw [← Real.sqrt_mul Real.pi_pos.le, ← one_div_div]
    exact one_div_le_one_div_of_le b_pos b_high
  have factor : 0 ≤ x * √(1 - x) * (x * (a + 1 / 2) / ((a + 1 / 2) * (1 - x) + 1 / 2)) := by positivity
  calc x * x * a * √((a + 1 / 2) * (1 - x)) / (√Real.pi * ((a + 1 / 2) * (1 - x) + 1 / 2))
      = x * √(1 - x) * (x * (a + 1 / 2) / ((a + 1 / 2) * (1 - x) + 1 / 2)) * (a / (√Real.pi * √(a + 1 / 2))) := by
        rw [Real.sqrt_mul size.le]
        set w := √(a + 1 / 2)
        set d := (a + 1 / 2) * (1 - x) + 1 / 2
        rw [← root]
        field_simp
    _ ≤ x * √(1 - x) * (x * (a + 1 / 2) / ((a + 1 / 2) * (1 - x) + 1 / 2)) * (1 / beta a (1 / 2)) :=
        mul_le_mul_of_nonneg_left inverse factor
    _ = _ := by ring

/-- Where the argument is at least y and at most 1 - s², the first term is above p. -/
theorem first_term_above {a x y s r p k : ℝ} (a_low : 1 / 2 ≤ a) (positive : 0 < x) (unguarded : Unguarded x)
    (y_nonneg : 0 ≤ y) (above : y ≤ x) (root : √(1 - x) ≤ s) (r_pos : 0 < r) (r_low : r ≤ √((a + 1 / 2) * (1 - x)))
    (scale : p * √Real.pi ≤ k) (k_pos : 0 < k) (enough : k ≤ (y * y - 2 * s * k) * r) :
    p ≤ betaInc Special.lgamma a (1 / 2) x := by
  have a_pos : 0 < a := by linarith
  apply le_trans _ (first_term a_pos positive unguarded)
  set q := √((a + 1 / 2) * (1 - x)) with q_def
  have size : 0 ≤ (a + 1 / 2) * (1 - x) := mul_nonneg (by linarith) (sub_pos.mpr unguarded.inside.2).le
  have square : q * q = (a + 1 / 2) * (1 - x) := Real.mul_self_sqrt size
  have q_pos : 0 < q := r_pos.trans_le r_low
  have q_high : q ≤ 2 * a * s := by
    have wide : √(a + 1 / 2) ≤ 2 * a := by
      rw [Real.sqrt_le_left (by linarith)]
      nlinarith
    rw [q_def, Real.sqrt_mul (by linarith)]
    exact mul_le_mul wide root (Real.sqrt_nonneg _) (by linarith)
  have gain : 0 < y * y - 2 * s * k := pos_of_mul_pos_left (k_pos.trans_le enough) r_pos.le
  rw [← square, le_div_iff₀ (by positivity)]
  calc p * (√Real.pi * (q * q + 1 / 2)) = p * √Real.pi * (q * q + 1 / 2) := by ring
    _ ≤ k * (q * q + 1 / 2) := mul_le_mul_of_nonneg_right scale (by positivity)
    _ ≤ k * (2 * a * s * q) + (y * y - 2 * s * k) * r * (1 / 2) := by
      have first : k * (q * q) ≤ k * (2 * a * s * q) :=
        mul_le_mul_of_nonneg_left (mul_le_mul_of_nonneg_right q_high q_pos.le) k_pos.le
      linarith
    _ ≤ k * (2 * a * s * q) + (y * y - 2 * s * k) * (a * q) := by
      have second : (y * y - 2 * s * k) * (r * (1 / 2)) ≤ (y * y - 2 * s * k) * (a * q) := by
        apply mul_le_mul_of_nonneg_left _ gain.le
        rw [mul_comm a]
        exact mul_le_mul r_low a_low one_half_pos.le q_pos.le
      linarith
    _ = y * y * a * q := by ring
    _ ≤ x * x * a * q := by
      have squares := mul_self_le_mul_self y_nonneg above
      exact mul_le_mul_of_nonneg_right (mul_le_mul_of_nonneg_right squares a_pos.le) q_pos.le

theorem root_pi : √Real.pi ≤ 1775 / 1000 := by
  rw [Real.sqrt_le_left (by norm_num)]
  linarith [Real.pi_lt_d2]

section Band
variable {a x : ℝ} (a_low : 1 / 2 ≤ a) (unguarded : Unguarded x)
include a_low unguarded

/-- The interval between two arguments, the bounds taken at its ends. -/
theorem band_above {y s r p k : ℝ} (y_pos : 0 < y) (above : y ≤ x) (s_nonneg : 0 ≤ s)
    (root : 1 - y ≤ s * s) (r_pos : 0 < r) (r_low : r * r ≤ (a + 1 / 2) * (1 - x)) (p_nonneg : 0 ≤ p)
    (scale : p * (1775 / 1000) ≤ k) (k_pos : 0 < k) (enough : k ≤ (y * y - 2 * s * k) * r) :
    p ≤ betaInc Special.lgamma a (1 / 2) x := by
  apply first_term_above a_low (y_pos.trans_le above) unguarded y_pos.le above _ r_pos _ _ k_pos enough
  · rw [Real.sqrt_le_left s_nonneg]
    linarith
  · apply Real.le_sqrt_of_sq_le
    rwa [sq]
  · exact (mul_le_mul_of_nonneg_left root_pi p_nonneg).trans scale

/-- The three intervals down to 3/5. -/
theorem share_above (start : 1 / 18 ≤ (a + 1 / 2) * (1 - x)) (above : 3 / 5 ≤ x) :
    6 / 100 ≤ betaInc Special.lgamma a (1 / 2) x := by
  have grows : 1 - x ≤ (a + 1 / 2) * (1 - x) :=
    le_mul_of_one_le_left (sub_pos.mpr unguarded.inside.2).le (by linarith)
  rcases le_total (4 / 5) x with near | far
  · exact band_above (s := 448 / 1000) (r := 235 / 1000) (k := 1065 / 10000) a_low unguarded (by norm_num) near
      (by norm_num) (by norm_num) (by norm_num) (by linarith) (by norm_num) (by norm_num) (by norm_num) (by norm_num)
  · rcases le_total (7 / 10) x with middle | low
    · exact band_above (s := 548 / 1000) (r := 447 / 1000) (k := 1065 / 10000) a_low unguarded (by norm_num) middle
        (by norm_num) (by norm_num) (by norm_num) (by linarith) (by norm_num) (by norm_num) (by norm_num)
        (by norm_num)
    · exact band_above (s := 633 / 1000) (r := 547 / 1000) (k := 1065 / 10000) a_low unguarded (by norm_num) above
        (by norm_num) (by norm_num) (by norm_num) (by linarith) (by norm_num) (by norm_num) (by norm_num)
        (by norm_num)

theorem share_edge (start : 1 / 18 ≤ (a + 1 / 2) * (1 - x)) (above : 11 / 20 ≤ x) :
    1 / 20 < betaInc Special.lgamma a (1 / 2) x := by
  rcases le_total (3 / 5) x with near | far
  · exact lt_of_lt_of_le (by norm_num) (share_above a_low unguarded start near)
  · have grows : 1 - x ≤ (a + 1 / 2) * (1 - x) :=
      le_mul_of_one_le_left (sub_pos.mpr unguarded.inside.2).le (by linarith)
    apply lt_of_lt_of_le (by norm_num : (1 : ℝ) / 20 < 51 / 1000)
    exact band_above (s := 671 / 1000) (r := 632 / 1000) (k := 906 / 10000) a_low unguarded (by norm_num) above
      (by norm_num) (by norm_num) (by norm_num) (by linarith) (by norm_num) (by norm_num) (by norm_num) (by norm_num)

end Band

section Tail
variable {df t : ℝ} (one_le : 1 ≤ df) (third : 1 / 3 ≤ t) (fits : df ≤ 2 ^ 32)
include one_le third

theorem argument_start : 1 / 18 ≤ (df / 2 + 1 / 2) * (1 - df / (df + t * t)) := by
  have positive : 0 < df := by linarith
  have square := mul_self_le_mul_self (by norm_num) third
  have scaled := mul_le_mul_of_nonneg_right square (by linarith : 0 ≤ df / 2 + 4 / 9)
  rw [one_sub_argument positive, mul_div_assoc', le_div_iff₀ (size_pos positive t)]
  linarith

include fits

theorem tail_above (near : t * t ≤ 2 / 3 * df) : 6 / 100 ≤ tailShare df t := by
  have positive : 0 < df := by linarith
  rw [tailShare_eq]
  exact share_above (by linarith) (argument_unguarded positive third fits) (argument_start one_le third)
    (argument_ge positive (by linarith))

theorem tail_edge (near : t * t ≤ 9 / 11 * df) : 1 / 20 < tailShare df t := by
  have positive : 0 < df := by linarith
  rw [tailShare_eq]
  exact share_edge (by linarith) (argument_unguarded positive third fits) (argument_start one_le third)
    (argument_ge positive (by linarith))

end Tail
end First

section Far
variable {df t : ℝ} (one_le : 1 ≤ df) (beyond : 10 < t) (far : 100 * df ^ 5 ≤ t ^ 8)
include one_le beyond far

theorem far_argument : df ≤ t * t := by
  have w_pos : 0 < t * t := by positivity
  by_contra more
  have less : t * t < df := not_le.mp more
  have power : (t * t) ^ 4 < df ^ 4 := pow_lt_pow_left₀ less w_pos.le four_ne_zero
  have same : (t * t) ^ 4 = t ^ 8 := by ring
  have fifth : df ^ 4 ≤ df ^ 5 := pow_le_pow_right₀ one_le (by norm_num)
  have positive : 0 < df ^ 5 := by positivity
  linarith

/-- Far out the share is small whatever the rounds add. -/
theorem tail_far : tailShare df t < 6 / 100 := by
  have positive : 0 < df := by linarith
  have w_pos : 0 < t * t := by positivity
  have order := far_argument one_le beyond far
  have half : df / (df + t * t) ≤ 1 / 2 := argument_le positive (by linarith)
  have share : df / (df + t * t) ≤ df / (t * t) := div_le_div_of_nonneg_left positive.le w_pos (by linarith)
  have a_pos : 0 < df / 2 := by linarith
  have x_pos := argument_pos positive t
  rw [tailShare_eq]
  set x := df / (df + t * t)
  have u_pos : 0 < 1 - x := by linarith
  have b_pos := beta_pos a_pos one_half_pos
  apply (betaInc_high a_pos x_pos (unguarded_half x_pos half)).trans_lt
  have root_pos : 0 < √(1 - x) := Real.sqrt_pos.mpr u_pos
  have form : x * √(1 - x) / beta (df / 2) (1 / 2) * (x / (1 - x)) = x * x / (beta (df / 2) (1 / 2) * √(1 - x)) := by
    have root : √(1 - x) * √(1 - x) = 1 - x := Real.mul_self_sqrt u_pos.le
    nth_rewrite 2 [← root]
    field_simp
  have below : √(Real.pi / df) ≤ beta (df / 2) (1 / 2) * √(1 - x) := by
    apply le_trans _ (mul_le_mul_of_nonneg_right (Special.beta_half_low a_pos) root_pos.le)
    rw [← Real.sqrt_mul (by positivity)]
    apply Real.sqrt_le_sqrt
    have split : Real.pi / (df / 2) * (1 - x) = Real.pi / df * (2 * (1 - x)) := by
      field_simp
    rw [split]
    exact le_mul_of_one_le_right (by positivity) (by linarith)
  have fourth : (x * x) * (x * x) * df ≤ 1 / 100 := by
    have square : x * x ≤ df / (t * t) * (df / (t * t)) := mul_self_le_mul_self x_pos.le share
    have power := mul_self_le_mul_self (mul_self_nonneg x) square
    have scaled := mul_le_mul_of_nonneg_right power positive.le
    apply scaled.trans
    have collected : df / (t * t) * (df / (t * t)) * (df / (t * t) * (df / (t * t))) * df = df ^ 5 / t ^ 8 := by
      field_simp
    rw [collected, div_le_iff₀ (by positivity)]
    linarith
  rw [form, div_lt_iff₀ (mul_pos b_pos root_pos)]
  apply lt_of_lt_of_le _ (mul_le_mul_of_nonneg_left below (by norm_num))
  rw [← div_lt_iff₀' (by norm_num), Real.lt_sqrt (by positivity), lt_div_iff₀ positive]
  have pi := Real.pi_gt_d2
  calc (x * x / (6 / 100)) ^ 2 * df = (x * x) * (x * x) * df * (2500 / 9) := by ring
    _ ≤ 1 / 100 * (2500 / 9) := mul_le_mul_of_nonneg_right fourth (by norm_num)
    _ < Real.pi := by linarith

end Far

/-- Next to t = 0, where the prefactor vanishes and the value is bounded, the share goes to zero. -/
theorem tail_near {df : ℝ} (positive : 0 < df) : ∃ ε, 0 < ε ∧ ∀ t, 0 < t → t < ε → tailShare df t < 4 / 100 := by
  have a_pos : 0 < df / 2 := half_pos positive
  have b_pos := beta_pos a_pos one_half_pos
  have root_pos : 0 < √df := Real.sqrt_pos.mpr positive
  obtain ⟨bound, bound_pos, bounded⟩ := lentz_bounded a_pos half_unit
  refine ⟨4 / 100 * (√df * beta (df / 2) (1 / 2)) / bound, by positivity, fun t t_pos close => ?_⟩
  have x_pos := argument_pos positive t
  have one_sub := one_sub_argument positive t
  have square_pos : 0 < t * t := mul_pos t_pos t_pos
  have u_pos : 0 < t * t / (df + t * t) := div_pos square_pos (size_pos positive t)
  have root : √(t * t / (df + t * t)) ≤ t / √df := by
    have less : t * t / (df + t * t) ≤ t * t / df := div_le_div_of_nonneg_left square_pos.le positive (by linarith)
    have form : √(t * t / df) = t / √df := by rw [Real.sqrt_div square_pos.le, Real.sqrt_mul_self t_pos.le]
    exact (Real.sqrt_le_sqrt less).trans form.le
  rw [tailShare_eq, betaInc_half a_pos x_pos (by linarith), one_sub]
  set x := df / (df + t * t)
  have x_high : x ≤ 1 := by linarith
  have value := (le_abs_self _).trans (bounded x ⟨x_pos.le, x_high⟩)
  have front : x * √(t * t / (df + t * t)) / beta (df / 2) (1 / 2) ≤ t / √df / beta (df / 2) (1 / 2) := by
    apply div_le_div_of_nonneg_right _ b_pos.le
    exact (mul_le_of_le_one_left (Real.sqrt_nonneg _) x_high).trans root
  have front_pos : 0 ≤ x * √(t * t / (df + t * t)) / beta (df / 2) (1 / 2) := by positivity
  rw [lt_div_iff₀ bound_pos] at close
  calc x * √(t * t / (df + t * t)) / beta (df / 2) (1 / 2) * ((lentz (df / 2) (1 / 2) x).1.h - 1)
      ≤ x * √(t * t / (df + t * t)) / beta (df / 2) (1 / 2) * bound :=
        mul_le_mul_of_nonneg_left (by linarith) front_pos
    _ ≤ t / √df / beta (df / 2) (1 / 2) * bound := mul_le_mul_of_nonneg_right front bound_pos.le
    _ = t * bound / (√df * beta (df / 2) (1 / 2)) := by field_simp
    _ < 4 / 100 := by
      rw [div_lt_iff₀ (mul_pos root_pos b_pos)]
      exact close

/- The share of all rounds, which grows with the argument up to 5/8, and the share that the loop gives. -/
section Full
variable {a x : ℝ}

noncomputable def fullShare (a x : ℝ) : ℝ :=
  x * √(1 - x) / beta a (ratio 1 2) * (Chain.value x (lentzTerms a (ratio 1 2)) - 1)

theorem fullShare_eq (a x : ℝ) : fullShare a x =
    x * √(1 - x) / beta a (1 / 2) * (Chain.value x (lentzTerms a (1 / 2)) - 1) := by
  simp only [fullShare, ratio, Nat.cast_one, Nat.cast_ofNat]

theorem unguarded_five (positive : 0 < x) (five : x ≤ 5 / 8) : Unguarded x :=
  ⟨positive.le, by norm_num; linarith⟩

theorem front_mono {y : ℝ} (nonneg : 0 ≤ x) (order : x ≤ y) (five : y ≤ 5 / 8) : x * √(1 - x) ≤ y * √(1 - y) := by
  have square {z : ℝ} (z_nonneg : 0 ≤ z) : z * √(1 - z) = √(z ^ 2 * (1 - z)) := by
    rw [Real.sqrt_mul (sq_nonneg z), Real.sqrt_sq z_nonneg]
  rw [square nonneg, square (nonneg.trans order)]
  apply Real.sqrt_le_sqrt
  have room : 0 ≤ (y - x) * (y + x - (y * y + x * y + x * x)) := by
    apply mul_nonneg (sub_nonneg.mpr order)
    have first := mul_le_mul_of_nonneg_right five (nonneg.trans order)
    have second := mul_le_mul_of_nonneg_right (order.trans five) nonneg
    have third := mul_le_mul_of_nonneg_left five nonneg
    linarith
  linarith

section Bounds
variable (a_low : 1 / 2 ≤ a) (a_high : a ≤ 500)
include a_low a_high

theorem beta_inverse : 1 / beta a (1 / 2) ≤ 13 := by
  have a_pos : 0 < a := by linarith
  have low : 1 / 13 ≤ beta a (1 / 2) := by
    apply le_trans _ (Special.beta_half_low a_pos)
    apply Real.le_sqrt_of_sq_le
    rw [le_div_iff₀ a_pos]
    have pi := Real.pi_gt_three
    linarith
  rw [one_div_le (beta_pos a_pos one_half_pos) (by norm_num)]
  exact low

section At
variable (positive : 0 < x) (five : x ≤ 5 / 8)
include positive five

theorem front_high : x * √(1 - x) / beta a (1 / 2) ≤ 65 / 8 := by
  have root : √(1 - x) ≤ 1 := Real.sqrt_le_one.mpr (by linarith)
  have inverse := beta_inverse a_low a_high
  have product := mul_le_mul five root (Real.sqrt_nonneg _) (by norm_num)
  rw [div_eq_mul_one_div]
  calc x * √(1 - x) * (1 / beta a (1 / 2)) ≤ 5 / 8 * 1 * 13 :=
        mul_le_mul product inverse (one_div_nonneg.mpr (beta_pos (by linarith) one_half_pos).le) (by norm_num)
    _ = 65 / 8 := by norm_num

omit a_high in
theorem share_le_full : betaInc Special.lgamma a (1 / 2) x ≤ fullShare a x := by
  have a_pos : 0 < a := by linarith
  have unguarded := unguarded_five positive five
  have value := (lentz_value a_pos half_unit unguarded).1
  rw [fullShare_eq, betaInc_half a_pos positive unguarded.inside.2]
  exact mul_le_mul_of_nonneg_left (by linarith) (front_nonneg a_pos positive)

theorem full_le_share : fullShare a x ≤ betaInc Special.lgamma a (1 / 2) x + 2 / 10 ^ 5 := by
  have a_pos : 0 < a := by linarith
  have unguarded := unguarded_five positive five
  have room : 0 < 1 - x := sub_pos.mpr unguarded.inside.2
  have next := (lentz_value a_pos half_unit unguarded).2
  have value : (lentz a (1 / 2) x).1.h ≤ 8 / 3 := by
    apply (lentz_high a_pos half_unit unguarded).trans
    rw [div_le_iff₀ room]
    linarith
  have rate : x / (1 - x) ≤ 5 / 3 := by
    rw [div_le_iff₀ room]
    linarith
  have ratio_nonneg : 0 ≤ x / (1 - x) := div_nonneg positive.le room.le
  have product := mul_le_mul value rate ratio_nonneg (by norm_num)
  have apart : Chain.value x (lentzTerms a (1 / 2)) - (lentz a (1 / 2) x).1.h ≤ 14 / 10 ^ 7 := by
    norm_num at product ⊢
    linarith
  have front := mul_le_mul_of_nonneg_left apart (front_nonneg a_pos positive)
  have scaled := mul_le_mul_of_nonneg_right (front_high a_low a_high positive five)
    (by norm_num : (0 : ℝ) ≤ 14 / 10 ^ 7)
  rw [fullShare_eq, betaInc_half a_pos positive unguarded.inside.2]
  norm_num at front scaled ⊢
  linarith

end At

variable {y : ℝ} (positive : 0 < x) (order : x ≤ y) (five : y ≤ 5 / 8)
include positive order five

omit a_high in
theorem full_mono : fullShare a x ≤ fullShare a y := by
  have a_pos : 0 < a := by linarith
  have b_pos := beta_pos a_pos one_half_pos
  have high : y < 1 := by linarith
  have proper := lentzTerms_proper a_pos half_unit
  have value := Chain.value_mono positive.le order high proper
  have one := Chain.one_le_value (x := x) ⟨positive.le, order.trans_lt high⟩ proper
  rw [fullShare_eq, fullShare_eq]
  apply mul_le_mul _ (sub_le_sub_right value 1) (sub_nonneg.mpr one) (front_nonneg a_pos (positive.trans_le order))
  exact div_le_div_of_nonneg_right (front_mono positive.le order five) b_pos.le

omit a_high in
theorem value_grows : Chain.value y (lentzTerms a (1 / 2)) - Chain.value x (lentzTerms a (1 / 2)) ≤ 64 / 3 * (y - x) := by
  have gap : 0 ≤ y - x := sub_nonneg.mpr order
  have rate : 1 + 3 / (4 * (1 - y)) ≤ 3 := by
    have share : 3 / (4 * (1 - y)) ≤ 2 := by
      rw [div_le_iff₀ (by linarith)]
      linarith
    linarith
  have proper := lentzTerms_proper (by linarith : 0 < a) half_unit
  apply (Chain.value_lipschitz (by norm_num) rate positive.le order (by linarith) proper).trans
  have room : 3 / 8 ≤ 1 - y := by linarith
  have square := mul_self_le_mul_self (by norm_num) room
  rw [div_le_iff₀ (mul_pos (by linarith) (by linarith))]
  have scaled := mul_le_mul_of_nonneg_left square (mul_nonneg (by norm_num : (0 : ℝ) ≤ 64 / 3) gap)
  linarith

theorem front_grows : y * √(1 - y) / beta a (1 / 2) - x * √(1 - x) / beta a (1 / 2) ≤ 13 * (y - x) := by
  have gap : 0 ≤ y - x := sub_nonneg.mpr order
  have root : √(1 - y) ≤ √(1 - x) := Real.sqrt_le_sqrt (by linarith)
  have root_one : √(1 - x) ≤ 1 := Real.sqrt_le_one.mpr (by linarith)
  have grows : y * √(1 - y) - x * √(1 - x) ≤ (y - x) * 1 := by
    have first := mul_le_mul_of_nonneg_left root (positive.le.trans order)
    have second := mul_le_mul_of_nonneg_left root_one gap
    linarith
  rw [← sub_div, div_eq_mul_one_div]
  calc (y * √(1 - y) - x * √(1 - x)) * (1 / beta a (1 / 2)) ≤ (y - x) * 1 * (1 / beta a (1 / 2)) :=
        mul_le_mul_of_nonneg_right grows (one_div_nonneg.mpr (beta_pos (by linarith) one_half_pos).le)
    _ ≤ (y - x) * 1 * 13 := mul_le_mul_of_nonneg_left (beta_inverse a_low a_high) (by linarith)
    _ = 13 * (y - x) := by ring

theorem full_lipschitz : fullShare a y - fullShare a x ≤ 200 * (y - x) := by
  have gap : 0 ≤ y - x := sub_nonneg.mpr order
  have high : y < 1 := by linarith
  have proper := lentzTerms_proper (by linarith : 0 < a) half_unit
  have one := Chain.one_le_value (x := x) ⟨positive.le, order.trans_lt high⟩ proper
  have least : Chain.value x (lentzTerms a (1 / 2)) - 1 ≤ 5 / 3 := by
    have above := Chain.value_le (x := x) ⟨positive.le, order.trans_lt high⟩ proper
    have eight : 1 / (1 - x) ≤ 8 / 3 := by
      rw [div_le_iff₀ (by linarith)]
      linarith
    linarith
  have more := sub_nonneg.mpr (Chain.value_mono positive.le order high proper)
  have first := mul_le_mul (front_high a_low a_high (positive.trans_le order) five)
    (value_grows a_low positive order five) more (by norm_num)
  have second := mul_le_mul (front_grows a_low a_high positive order five) least (sub_nonneg.mpr one) (by linarith)
  rw [fullShare_eq, fullShare_eq]
  linarith

end Bounds
end Full

/-- What the search for the critical value keeps of its two ends. -/
structure CriticalEnds (df lo hi : ℝ) : Prop where
  low : 0 ≤ lo
  order : lo ≤ hi
  high : hi ≤ 10
  lower : lo = 0 ∨ 1 / 20 < tailShare df lo
  upper : hi = 10 ∨ tailShare df hi ≤ 1 / 20 ∧ 9 / 11 * df < hi * hi

theorem CriticalEnds.half_third {df lo hi : ℝ} (one_le : 1 ≤ df) (ends : CriticalEnds df lo hi) :
    1 / 3 ≤ (lo + hi) / 2 := by
  have low := ends.low
  rcases ends.upper with rfl | ⟨_, beyond⟩
  · linarith
  · have least : 9 / 10 ≤ hi := (mul_self_le_mul_self_iff (by norm_num) (low.trans ends.order)).mpr (by linarith)
    linarith

theorem critical_ends {df : ℝ} (one_le : 1 ≤ df) (small : df < 1000) :
    ∃ lo hi, CriticalEnds df lo hi ∧ hi - lo = 10 / 2 ^ 24 ∧ welchCritical Special.lgamma df = (lo + hi) / 2 := by
  have positive : 0 < df := by linarith
  let below : ℝ → Bool := fun mid => decide (tDistCdf Special.lgamma mid df < 1 - ratio 5 100 / 2)
  have test {mid : ℝ} (nonneg : 0 ≤ mid) : below mid = true ↔ 1 / 20 < tailShare df mid := by
    rw [decide_eq_true_eq, tDistCdf_eq nonneg, ratio, Nat.cast_ofNat, Nat.cast_ofNat]
    constructor <;> intro _ <;> linarith
  have ends : CriticalEnds df (Bisection.search below (1 / 10 ^ 6) 50 0 10).1
      (Bisection.search below (1 / 10 ^ 6) 50 0 10).2 := by
    apply Bisection.search_invariant below (1 / 10 ^ 6) (p := CriticalEnds df)
    · intro lo hi ends held
      have nonneg : 0 ≤ (lo + hi) / 2 := by linarith [ends.low, ends.order]
      exact ⟨nonneg, by linarith [ends.order], ends.high, Or.inr ((test nonneg).mp held), ends.upper⟩
    · intro lo hi ends failed
      have third := ends.half_third one_le
      have nonneg : 0 ≤ (lo + hi) / 2 := by linarith
      have share : tailShare df ((lo + hi) / 2) ≤ 1 / 20 := by
        rw [← not_lt, ← test nonneg, failed]
        exact Bool.false_ne_true
      have beyond : 9 / 11 * df < (lo + hi) / 2 * ((lo + hi) / 2) := by
        by_contra near
        exact absurd (tail_edge one_le third (by linarith) (not_lt.mp near)) share.not_gt
      refine ⟨ends.low, ?_, ?_, ends.lower, Or.inr ⟨share, beyond⟩⟩
      · linarith [ends.order]
      · linarith [ends.order, ends.high]
    · exact ⟨le_rfl, by norm_num, le_rfl, Or.inl rfl, Or.inl rfl⟩
  refine ⟨_, _, ends, bracket_width below, ?_⟩
  have guard : df > 0 ∧ df < (1000 : Nat) := ⟨positive, by exact_mod_cast small⟩
  rw [welchCritical, if_pos guard]
  exact tDistQuantileBy_eq (tDistCdf Special.lgamma) (ratio 5 100) positive

theorem critical_large {df : ℝ} (large : 1000 ≤ df) : welchCritical Special.lgamma df = 196 / 100 := by
  have guard : ¬ (df > 0 ∧ df < (1000 : Nat)) := by
    rintro ⟨_, less⟩
    norm_num at less
    linarith
  rw [welchCritical, if_neg guard, ratio, Nat.cast_ofNat, Nat.cast_ofNat]

/-- The p-value and the interval made of the share at t agree. -/
def Agree (df t : ℝ) : Prop :=
  (ratio 6 100 ≤ tailShare df t → t ≤ welchCritical Special.lgamma df) ∧
    (tailShare df t ≤ ratio 4 100 → welchCritical Special.lgamma df < t)

/-- The greatest value that the critical value can have. -/
noncomputable def criticalLimit (df : ℝ) : ℝ :=
  if df < (1000 : Nat) then (10 : Nat) - ratio 10 (2 ^ 25) else ratio 196 100

theorem agree_def (df t : ℝ) : Agree df t ↔ (6 / 100 ≤ tailShare df t → t ≤ welchCritical Special.lgamma df) ∧
    (tailShare df t ≤ 4 / 100 → welchCritical Special.lgamma df < t) := by
  simp only [Agree, ratio, Nat.cast_ofNat]

theorem limit_small {df : ℝ} (small : df < 1000) : criticalLimit df = 10 - 10 / 2 ^ 25 := by
  rw [criticalLimit, if_pos (by exact_mod_cast small)]
  simp only [ratio, Nat.cast_ofNat, Nat.cast_pow]

theorem limit_large {df : ℝ} (large : 1000 ≤ df) : criticalLimit df = 196 / 100 := by
  have guard : ¬ df < (1000 : Nat) := by
    rw [not_lt]
    exact_mod_cast large
  rw [criticalLimit, if_neg guard, ratio, Nat.cast_ofNat, Nat.cast_ofNat]

section Middle
variable {df : ℝ} (one_le : 1 ≤ df) (small : df < 1000)
include one_le

theorem lower_end {r : ℝ} (high : r ≤ 10) (away : 2 / 3 * df ≤ r * r) :
    6 / 10 * df ≤ (r - 10 / 2 ^ 24) * (r - 10 / 2 ^ 24) := by
  norm_num
  linarith

/-- The shares of all rounds at two t, the second no smaller and both in the part where they fall. -/
theorem full_falls {s t : ℝ} (s_nonneg : 0 ≤ s) (order : s ≤ t) (away : 6 / 10 * df ≤ s * s) :
    fullShare (df / 2) (df / (df + t * t)) ≤ fullShare (df / 2) (df / (df + s * s)) := by
  have positive : 0 < df := by linarith
  exact full_mono (by linarith) (argument_pos positive t) (argument_antitone positive s_nonneg order)
    (argument_le positive (by linarith))

include small

/-- Between the ends of the search they fall by little. -/
theorem full_between {lo hi : ℝ} (ends : CriticalEnds df lo hi) (width : hi - lo = 10 / 2 ^ 24)
    (away : 6 / 10 * df ≤ lo * lo) :
    fullShare (df / 2) (df / (df + lo * lo)) ≤ fullShare (df / 2) (df / (df + hi * hi)) + 25 / 10 ^ 4 := by
  have positive : 0 < df := by linarith
  have order := argument_antitone positive ends.low ends.order
  have lipschitz := full_lipschitz (a := df / 2) (by linarith) (by linarith) (argument_pos positive hi) order
    (argument_le positive (by linarith))
  have close : df / (df + lo * lo) - df / (df + hi * hi) ≤ 20 * (10 / 2 ^ 24) := by
    have lo_size := size_pos positive lo
    have hi_size := size_pos positive hi
    have difference : df / (df + lo * lo) - df / (df + hi * hi) =
        df / (df + lo * lo) * ((hi - lo) * (hi + lo) / (df + hi * hi)) := by
      field_simp
      ring
    have first : df / (df + lo * lo) ≤ 1 := by
      rw [div_le_one lo_size]
      linarith [mul_self_nonneg lo]
    have second : (hi - lo) * (hi + lo) / (df + hi * hi) ≤ 20 * (10 / 2 ^ 24) := by
      rw [div_le_iff₀ hi_size, width]
      have sum : hi + lo ≤ 20 := by linarith [ends.high, ends.order]
      have size : 1 ≤ df + hi * hi := by linarith [mul_self_nonneg hi]
      have scaled := mul_le_mul_of_nonneg_left sum (by norm_num : (0 : ℝ) ≤ 10 / 2 ^ 24)
      have whole := mul_le_mul_of_nonneg_left size (by norm_num : (0 : ℝ) ≤ 20 * (10 / 2 ^ 24))
      linarith
    have nonneg : 0 ≤ (hi - lo) * (hi + lo) / (df + hi * hi) :=
      div_nonneg (mul_nonneg (by linarith [ends.order]) (by linarith [ends.low, ends.order])) hi_size.le
    rw [difference]
    exact (mul_le_of_le_one_left nonneg first).trans second
  norm_num at close ⊢
  linarith

section Ends
variable {lo hi t : ℝ} (ends : CriticalEnds df lo hi) (width : hi - lo = 10 / 2 ^ 24) (away : 2 / 3 * df ≤ t * t)
include ends width away

/-- A share at 0.06 or more lies before the upper end, if the search has moved it. -/
theorem share_beyond (moved : hi ≠ 10) (beyond : lo ≤ t) : tailShare df t < 6 / 100 := by
  have positive : 0 < df := by linarith
  have a_low : 1 / 2 ≤ df / 2 := by linarith
  have low : lo = hi - 10 / 2 ^ 24 := by linarith
  obtain ⟨hi_share, hi_away⟩ := ends.upper.resolve_left moved
  have lo_away : 6 / 10 * df ≤ lo * lo := by
    rw [low]
    exact lower_end one_le ends.high (by linarith)
  have falls := full_falls one_le ends.low beyond lo_away
  have between := full_between one_le small ends width lo_away
  have upper := full_le_share a_low (by linarith) (argument_pos positive hi) (argument_le positive (by linarith))
  have lower := share_le_full a_low (argument_pos positive t) (argument_le positive (by linarith))
  rw [← tailShare_eq] at upper lower
  norm_num at upper between
  linarith

/-- A share at 0.04 or less lies beyond the upper end. -/
theorem share_before (t_pos : 0 < t) (before : t ≤ hi) : 4 / 100 < tailShare df t := by
  have positive : 0 < df := by linarith
  have a_low : 1 / 2 ≤ df / 2 := by linarith
  have least : 8 / 10 ≤ t := (mul_self_le_mul_self_iff (by norm_num) t_pos.le).mpr (by linarith)
  have lo_t : t - 10 / 2 ^ 24 ≤ lo := by linarith
  have back_pos : 0 ≤ t - 10 / 2 ^ 24 := by
    norm_num
    linarith
  have lo_away : 6 / 10 * df ≤ lo * lo :=
    (lower_end one_le (before.trans ends.high) away).trans (mul_self_le_mul_self back_pos lo_t)
  have lo_share : 1 / 20 < tailShare df lo := by
    apply ends.lower.resolve_left
    rintro rfl
    linarith
  have falls := full_falls one_le t_pos.le before (by linarith)
  have between := full_between one_le small ends width lo_away
  have upper := full_le_share a_low (by linarith) (argument_pos positive t) (argument_le positive (by linarith))
  have lower := share_le_full a_low (argument_pos positive lo) (argument_le positive (by linarith))
  rw [← tailShare_eq] at upper lower
  norm_num at upper between
  linarith

end Ends

/-- Outside the part next to zero, up to the limit, the shares at t and in the search are so much the
same that they decide alike. -/
theorem middle_agree {t : ℝ} (t_pos : 0 < t) (away : 2 / 3 * df ≤ t * t) (inside : t ≤ 10 - 10 / 2 ^ 25) :
    Agree df t := by
  obtain ⟨lo, hi, ends, width, value⟩ := critical_ends one_le small
  have order := ends.order
  rw [agree_def, value]
  constructor
  · intro share
    by_contra beyond
    have moved : hi ≠ 10 := by
      rintro rfl
      norm_num at width inside beyond
      linarith
    exact absurd (share_beyond one_le small ends width away moved (by linarith)) share.not_gt
  · intro share
    by_contra before
    exact absurd (share_before one_le small ends width away t_pos (by linarith)) share.not_gt

end Middle

section Decided
variable {df : ℝ} (one_le : 1 ≤ df)
include one_le

theorem critical_bounds : 0 < welchCritical Special.lgamma df ∧ welchCritical Special.lgamma df ≤ criticalLimit df := by
  rcases lt_or_ge df 1000 with small | large
  · obtain ⟨lo, hi, ends, width, value⟩ := critical_ends one_le small
    have low := ends.low
    have high := ends.high
    rw [value, limit_small small]
    norm_num at width ⊢
    constructor <;> linarith
  · rw [critical_large large, limit_large large]
    norm_num

omit one_le in
theorem limit_low (df : ℝ) : 196 / 100 ≤ criticalLimit df := by
  rcases lt_or_ge df 1000 with small | large
  · rw [limit_small small]
    norm_num
  · exact (limit_large large).ge

/-- Where the share is certainly large, the critical value is reached up to the limit. -/
theorem critical_reached {t : ℝ} (third : 1 / 3 ≤ t) (near : t * t ≤ 2 / 3 * df) (inside : t ≤ criticalLimit df) :
    t ≤ welchCritical Special.lgamma df := by
  rcases lt_or_ge df 1000 with small | large
  · obtain ⟨lo, hi, ends, width, value⟩ := critical_ends one_le small
    have middle : (lo + hi) / 2 = hi - 10 / 2 ^ 25 := by
      norm_num at width ⊢
      linarith
    rw [limit_small small] at inside
    rw [value, middle]
    rcases ends.upper with rfl | ⟨_, away⟩
    · exact inside
    · by_contra beyond
      have less : hi ≤ t + 10 / 2 ^ 25 := by linarith
      have square := mul_self_le_mul_self (ends.low.trans ends.order) less
      have part := mul_le_mul_of_nonneg_right third (by linarith : 0 ≤ t)
      norm_num at square
      linarith
  · rw [critical_large large]
    rwa [limit_large large] at inside

theorem agree_far {t : ℝ} (beyond : 10 < t) (far : 100 * df ^ 5 ≤ t ^ 8) : Agree df t := by
  have small := tail_far one_le beyond far
  have above : criticalLimit df < t := by
    rcases lt_or_ge df 1000 with small | large
    · rw [limit_small small]
      linarith [(by positivity : (0 : ℝ) < 10 / 2 ^ 25)]
    · rw [limit_large large]
      linarith
  rw [agree_def]
  exact ⟨fun share => absurd small share.not_gt, fun _ => (critical_bounds one_le).2.trans_lt above⟩

theorem agree_zero : Agree df 0 := by
  rw [agree_def, tailShare_zero (by linarith)]
  exact ⟨fun _ => (critical_bounds one_le).1.le, fun small => by norm_num at small⟩

theorem disagree_near : ∃ ε, 0 < ε ∧ ∀ t, 0 < t → t < ε → ¬ Agree df t := by
  obtain ⟨ε, ε_pos, small⟩ := tail_near (by linarith : 0 < df)
  have critical := (critical_bounds one_le).1
  refine ⟨min ε (welchCritical Special.lgamma df), lt_min ε_pos critical, fun t t_pos close agree => ?_⟩
  obtain ⟨left, right⟩ := lt_min_iff.mp close
  rw [agree_def] at agree
  exact absurd (agree.2 (small t t_pos left).le) right.not_gt

variable (fits : df ≤ 2 ^ 32)
include fits

theorem agree_inside {t : ℝ} (third : 1 / 3 ≤ t) (inside : t ≤ criticalLimit df) : Agree df t := by
  rcases le_total (t * t) (2 / 3 * df) with near | away
  · have large := tail_above one_le third fits near
    rw [agree_def]
    exact ⟨fun _ => critical_reached one_le third near inside, fun small => by linarith⟩
  · rcases lt_or_ge df 1000 with small | many
    · rw [limit_small small] at inside
      exact middle_agree one_le small (by linarith) away inside
    · rw [limit_large many] at inside
      have square := mul_self_le_mul_self (by linarith) inside
      linarith

theorem disagree_beyond {t : ℝ} (beyond : criticalLimit df < t) (near : t * t ≤ 2 / 3 * df) : ¬ Agree df t := by
  have low := limit_low df
  have large := tail_above one_le (by linarith) fits near
  rw [agree_def]
  intro agree
  exact absurd ((agree.1 large).trans (critical_bounds one_le).2) beyond.not_ge

end Decided

section Story
variable (a b : List ℝ)

theorem squaredError_eq (xs : List ℝ) : squaredError xs = Sample.standardError xs ^ 2 := by
  have size : (0 : ℝ) ≤ xs.length := Nat.cast_nonneg _
  rw [squaredError, meanStddev_eq, Sample.standardError, div_pow, Real.sq_sqrt size, sq]

theorem welchSe_eq : welchSe a b = √(Sample.standardError a ^ 2 + Sample.standardError b ^ 2) := by
  rw [welchSe, squaredError_eq, squaredError_eq]
  rfl

theorem clampUnit_bounds (p : ℝ) : (6 / 100 ≤ clampUnit p ↔ 6 / 100 ≤ p) ∧ (clampUnit p ≤ 4 / 100 ↔ p ≤ 4 / 100) := by
  by_cases high : p > 1
  · have value : clampUnit p = 1 := by simp [clampUnit, high]
    rw [value]
    constructor <;> constructor <;> intro _ <;> linarith
  · by_cases low : p < 0
    · have value : clampUnit p = 0 := by simp [clampUnit, high, low]
      rw [value]
      constructor <;> constructor <;> intro _ <;> linarith
    · have value : clampUnit p = p := by simp [clampUnit, high, low]
      rw [value]
      exact ⟨Iff.rfl, Iff.rfl⟩

/-- A p-value of 0.06 or more goes with an interval around zero, one of 0.04 or less with another. -/
def TellsOneStory (w : Welch ℝ) : Prop :=
  (ratio 6 100 ≤ w.pValue → w.ciLower ≤ 0 ∧ 0 ≤ w.ciUpper) ∧
    (w.pValue ≤ ratio 4 100 → ¬ (w.ciLower ≤ 0 ∧ 0 ≤ w.ciUpper))

theorem interval_iff {d r : ℝ} : d - r ≤ 0 ∧ 0 ≤ d + r ↔ |d| ≤ r := by
  rw [abs_le]
  constructor
  · rintro ⟨lower, upper⟩
    constructor <;> linarith
  · rintro ⟨lower, upper⟩
    constructor <;> linarith

/-- The two numbers that both outputs are made of. -/
theorem story_def (erf : ℝ → ℝ) (positive : 0 < welchDf a b) :
    TellsOneStory (statsWelchTtest erf Special.lgamma a b) ↔
      (6 / 100 ≤ tailShare (welchDf a b) |welchT a b| →
        |Sample.mean a - Sample.mean b| ≤ welchCritical Special.lgamma (welchDf a b) * welchSe a b) ∧
      (tailShare (welchDf a b) |welchT a b| ≤ 4 / 100 →
        ¬ |Sample.mean a - Sample.mean b| ≤ welchCritical Special.lgamma (welchDf a b) * welchSe a b) := by
  simp only [TellsOneStory, statsWelchTtest, interval_iff, welchTail_eq erf positive, ratio, Nat.cast_ofNat,
    (clampUnit_bounds _).1, (clampUnit_bounds _).2, meanStddev_eq]

/-- With no variance the statistic is zero and the interval is a point. -/
theorem flat_story (erf : ℝ → ℝ) {a b : List ℝ} (left : 2 ≤ a.length) (right : 2 ≤ b.length)
    (flat : Sample.standardError a ^ 2 + Sample.standardError b ^ 2 = 0) :
    TellsOneStory (statsWelchTtest erf Special.lgamma a b) ↔ Sample.mean a = Sample.mean b := by
  have first := sq_nonneg (Sample.standardError a)
  have second := sq_nonneg (Sample.standardError b)
  have a_zero : squaredError a = 0 := by
    rw [squaredError_eq]
    linarith
  have b_zero : squaredError b = 0 := by
    rw [squaredError_eq]
    linarith
  have se : welchSe a b = 0 := by rw [welchSe_eq, flat, Real.sqrt_zero]
  have t : welchT a b = 0 := by simp [welchT, se]
  have df : welchDf a b = a.length + b.length - 2 := by simp [welchDf, a_zero, b_zero]
  have positive : 0 < welchDf a b := by
    have a_size : (2 : ℝ) ≤ a.length := by exact_mod_cast left
    have b_size : (2 : ℝ) ≤ b.length := by exact_mod_cast right
    rw [df]
    linarith
  rw [story_def a b erf positive, t, abs_zero, tailShare_zero positive, se, mul_zero, abs_nonpos_iff, sub_eq_zero]
  constructor
  · exact fun story => story.1 (by norm_num)
  · exact fun same => ⟨fun _ => same, fun small => by norm_num at small⟩

section Varied
variable {a b} (left : 2 ≤ a.length) (right : 2 ≤ b.length)
variable (varies : 0 < Sample.standardError a ^ 2 + Sample.standardError b ^ 2)
include left right varies

theorem welchDf_eq : welchDf a b = Sample.freedom a b := by
  have positive := zero_lt_one.trans_le (Sample.freedom_bounds left right varies).1
  have fourth (e : ℝ) : e ^ 2 * e ^ 2 = e ^ 4 := by ring
  rw [Sample.freedom] at positive
  have denominator := (div_pos_iff_of_pos_left (pow_pos varies 2)).mp positive
  simp only [welchDf, squaredError_eq, fourth, gt_iff_lt, denominator, if_true, ← sq, Sample.freedom]

theorem story_iff_agree (erf : ℝ → ℝ) : TellsOneStory (statsWelchTtest erf Special.lgamma a b) ↔
    Agree (Sample.freedom a b) (Sample.separation a b) := by
  have positive := zero_lt_one.trans_le (Sample.freedom_bounds left right varies).1
  have same := welchDf_eq left right varies
  have se_pos : 0 < √(Sample.standardError a ^ 2 + Sample.standardError b ^ 2) := Real.sqrt_pos.mpr varies
  have t : |welchT a b| = Sample.separation a b := by
    simp only [welchT, welchSe_eq, gt_iff_lt, se_pos, if_true, abs_div, abs_of_pos se_pos, meanStddev_eq,
      Sample.separation]
  rw [← same] at positive
  rw [story_def a b erf positive, agree_def, t, same, welchSe_eq, ← div_le_iff₀ se_pos, not_le]
  exact Iff.rfl

end Varied

/-- The means a third of a standard error apart at least, and at most the limit of the critical value; or
so far that the share is small in any case. -/
def FarOrMiddle (df t : ℝ) : Prop :=
  (ratio 1 3 ≤ t ∧ t ≤ criticalLimit df) ∨ ((10 : Nat) < t ∧ (100 : Nat) * df ^ 5 ≤ t ^ 8)

theorem farOrMiddle_def (df t : ℝ) : FarOrMiddle df t ↔
    (1 / 3 ≤ t ∧ t ≤ criticalLimit df) ∨ (10 < t ∧ 100 * df ^ 5 ≤ t ^ 8) := by
  simp only [FarOrMiddle, ratio, Nat.cast_one, Nat.cast_ofNat]

section Samples
variable (erf : ℝ → ℝ) {a b} (left : 2 ≤ a.length) (right : 2 ≤ b.length)

theorem varies_or_flat : Sample.standardError a ^ 2 + Sample.standardError b ^ 2 = 0 ∨
    0 < Sample.standardError a ^ 2 + Sample.standardError b ^ 2 :=
  (add_nonneg (sq_nonneg _) (sq_nonneg _)).eq_or_lt.imp_left Eq.symm

include left right

theorem story_equal_means (same : Sample.mean a = Sample.mean b) :
    TellsOneStory (statsWelchTtest erf Special.lgamma a b) := by
  rcases varies_or_flat (a := a) (b := b) with flat | varies
  · exact (flat_story erf left right flat).mpr same
  · have zero : Sample.separation a b = 0 := by rw [Sample.separation, same, sub_self, abs_zero, zero_div]
    rw [story_iff_agree left right varies, zero]
    exact agree_zero (Sample.freedom_bounds left right varies).1

/-- Next to equal means only equal means tell one story. -/
theorem story_next_to_equal : ∃ ε, 0 < ε ∧ ∀ c, |Sample.mean a + c - Sample.mean b| < ε →
    (TellsOneStory (statsWelchTtest erf Special.lgamma (a.map (fun x => x + c)) b) ↔
      Sample.mean a + c = Sample.mean b) := by
  have some_ : a ≠ [] := List.ne_nil_of_length_pos (by omega)
  have longer (c : ℝ) : 2 ≤ (a.map (fun x => x + c)).length := by rwa [List.length_map]
  rcases varies_or_flat (a := a) (b := b) with flat | varies
  · refine ⟨1, one_pos, fun c _ => ?_⟩
    rw [flat_story erf (longer c) right (by rwa [Sample.standardError_shift]), Sample.mean_shift c some_]
  · obtain ⟨ε, ε_pos, apart⟩ := disagree_near (Sample.freedom_bounds left right varies).1
    have se_pos : 0 < √(Sample.standardError a ^ 2 + Sample.standardError b ^ 2) := Real.sqrt_pos.mpr varies
    refine ⟨ε * √(Sample.standardError a ^ 2 + Sample.standardError b ^ 2), mul_pos ε_pos se_pos, fun c close => ?_⟩
    constructor
    · intro story
      by_contra differ
      have varies' : 0 < Sample.standardError (a.map (fun x => x + c)) ^ 2 + Sample.standardError b ^ 2 := by
        rwa [Sample.standardError_shift]
      rw [story_iff_agree (longer c) right varies'] at story
      have freedom : Sample.freedom (a.map (fun x => x + c)) b = Sample.freedom a b := by
        rw [Sample.freedom, Sample.standardError_shift, List.length_map, Sample.freedom]
      have separation : Sample.separation (a.map (fun x => x + c)) b = |Sample.mean a + c - Sample.mean b| /
          √(Sample.standardError a ^ 2 + Sample.standardError b ^ 2) := by
        rw [Sample.separation, Sample.standardError_shift, Sample.mean_shift c some_]
      rw [freedom, separation] at story
      exact apart _ (div_pos (abs_pos.mpr (sub_ne_zero.mpr differ)) se_pos) ((div_lt_iff₀ se_pos).mpr close) story
    · intro same
      exact story_equal_means erf (longer c) right (by rw [Sample.mean_shift c some_, same])

variable (fits : a.length + b.length ≤ 2 ^ 32)
include fits

theorem freedom_fits (varies : 0 < Sample.standardError a ^ 2 + Sample.standardError b ^ 2) :
    Sample.freedom a b ≤ 2 ^ 32 := by
  have size : (a.length : ℝ) + b.length ≤ 2 ^ 32 := by exact_mod_cast fits
  linarith [(Sample.freedom_bounds left right varies).2]

theorem story_decided (decided : FarOrMiddle (Sample.freedom a b) (Sample.separation a b)) :
    TellsOneStory (statsWelchTtest erf Special.lgamma a b) := by
  rw [farOrMiddle_def] at decided
  rcases varies_or_flat (a := a) (b := b) with flat | varies
  · have zero : Sample.separation a b = 0 := by rw [Sample.separation, flat, Real.sqrt_zero, div_zero]
    rw [zero] at decided
    norm_num at decided
  · have one_le := (Sample.freedom_bounds left right varies).1
    rw [story_iff_agree left right varies]
    rcases decided with ⟨third, inside⟩ | ⟨beyond, far⟩
    · exact agree_inside one_le (freedom_fits left right fits varies) third inside
    · exact agree_far one_le beyond far

theorem story_beyond (beyond : criticalLimit (Sample.freedom a b) < Sample.separation a b)
    (near : Sample.separation a b ^ 2 ≤ 2 / 3 * Sample.freedom a b) :
    ¬ TellsOneStory (statsWelchTtest erf Special.lgamma a b) := by
  rcases varies_or_flat (a := a) (b := b) with flat | varies
  · have zero : Sample.separation a b = 0 := by rw [Sample.separation, flat, Real.sqrt_zero, div_zero]
    have low := limit_low (Sample.freedom a b)
    linarith
  · rw [story_iff_agree left right varies]
    rw [sq] at near
    exact disagree_beyond (Sample.freedom_bounds left right varies).1 (freedom_fits left right fits varies) beyond near

end Samples
end Story

/-- For two samples whose sizes are C ints the two outputs tell one story when the means are equal, and when
they are a third of a standard error apart or more but not beyond what the search for the critical value can
reach, or very far apart. They do not when the means differ and no value varies, when the means are beyond
that reach though the share is still large, and for different means next to each other. -/
theorem one_story (erf : ℝ → ℝ) (a b : List ℝ) (left : 2 ≤ a.length) (right : 2 ≤ b.length)
    (fits : a.length + b.length ≤ 2 ^ 32) :
    (Sample.mean a = Sample.mean b ∨ FarOrMiddle (Sample.freedom a b) (Sample.separation a b) →
      TellsOneStory (statsWelchTtest erf Special.lgamma a b)) ∧
    (Sample.standardError a ^ 2 + Sample.standardError b ^ 2 = 0 → Sample.mean a ≠ Sample.mean b →
      ¬ TellsOneStory (statsWelchTtest erf Special.lgamma a b)) ∧
    (criticalLimit (Sample.freedom a b) < Sample.separation a b →
      Sample.separation a b ^ 2 ≤ 2 / 3 * Sample.freedom a b →
      ¬ TellsOneStory (statsWelchTtest erf Special.lgamma a b)) ∧
    ∃ ε, 0 < ε ∧ ∀ c, |Sample.mean a + c - Sample.mean b| < ε →
      (TellsOneStory (statsWelchTtest erf Special.lgamma (a.map (fun x => x + c)) b) ↔
        Sample.mean a + c = Sample.mean b) := by
  refine ⟨?_, ?_, story_beyond erf left right fits, story_next_to_equal erf left right⟩
  · rintro (same | decided)
    · exact story_equal_means erf left right same
    · exact story_decided erf left right fits decided
  · exact fun flat differ story => differ ((flat_story erf left right flat).mp story)

theorem pair_mean (x y : ℝ) : Sample.mean [x, y] = (x + y) / 2 := by norm_num [Sample.mean]

theorem pair_error (x y : ℝ) : Sample.standardError [x, y] ^ 2 = (x - y) ^ 2 / 4 := by
  have variance : Sample.variance [x, y] = (x - y) ^ 2 / 2 := by
    simp only [Sample.variance, pair_mean, List.map_cons, List.map_nil, List.sum_cons, List.sum_nil, List.length_cons,
      List.length_nil]
    push_cast
    ring
  rw [← squaredError_eq, squaredError, meanStddev_eq, variance, ← sq, Real.sq_sqrt (by positivity)]
  norm_num
  ring

theorem two_pairs_one_story : TellsOneStory (statsWelchTtest Special.erf Special.lgamma [0, 2] [2, 4]) := by
  apply (one_story Special.erf [0, 2] [2, 4] (by decide) (by decide) (by norm_num)).1
  have apart : Sample.separation [0, 2] [2, 4] = √2 := by
    rw [Sample.separation, pair_mean, pair_mean, pair_error, pair_error]
    norm_num
  have high : √2 ≤ (3 / 2 : ℝ) := by
    rw [Real.sqrt_le_left (by norm_num)]
    norm_num
  have low : 1 ≤ √2 := Real.one_le_sqrt.mpr one_le_two
  have limit := limit_low (Sample.freedom [0, 2] [2, 4])
  right
  rw [farOrMiddle_def, apart]
  left
  constructor <;> linarith

/-- Two samples that do not vary: the statistic is taken for zero and the interval is a point off zero. -/
theorem constant_samples_two_stories : ¬ TellsOneStory (statsWelchTtest Special.erf Special.lgamma [1, 1] [2, 2]) := by
  have flat : Sample.standardError [1, 1] ^ 2 + Sample.standardError [2, 2] ^ 2 = 0 := by
    rw [pair_error, pair_error]
    norm_num
  rw [flat_story Special.erf (by decide) (by decide) flat, pair_mean, pair_mean]
  norm_num

end ServMark
