import ServMark.Library.Special
import ServMark.Stats

/-! The normality statistic of stats.c: stats_anderson_darling with any functions in the places of
erf and log. It sees its values through their standard scores alone. -/
namespace ServMark

section Code
variable {α : Type} [Field α] [LinearOrder α] [Libm α] (erf log : α → α)

/-- The distance that a probability keeps from zero and from one. -/
def cdfMargin : α := ratio 1 (10 ^ 15)

def normalCdf (x : α) : α := ratio 1 2 * (1 + erf x)

def clampBelow (p : α) : α := if p < cdfMargin then cdfMargin else p

def clampAbove (p : α) : α := if p > 1 - cdfMargin then 1 - cdfMargin else p

/-- What index i adds to S. The probability from the other end is kept from one only. -/
def andersonDarlingTerm (sorted : List α) (mean stddev : α) (i : Nat) : α :=
  let zi := (sorted.getD i 0 - mean) / stddev
  let cdf := clampAbove (clampBelow (normalCdf erf (zi / Libm.sqrt ((2 : Nat) : α))))
  let back := sorted.getD (sorted.length - 1 - i) 0 - mean
  let cdfRev := clampAbove (normalCdf erf (back / (stddev * Libm.sqrt ((2 : Nat) : α))))
  ((2 : Nat) * (i : α) + 1) * (log cdf + log (1 - cdfRev))

/-- A2 of a number of values and the sum S over them, and its correction for a small sample. -/
def andersonDarlingAdjusted (count : Nat) (s : α) : α :=
  let a2 := -(count : α) - s / (count : α)
  a2 * (1 + ratio 75 100 / (count : α) + ratio 225 100 / (intMul count count : α))

def statsAndersonDarling (values : List α) : α :=
  if values.length < 3 then 0
  else
    let mean := (statsMeanStddev values).1
    let stddev := (statsMeanStddev values).2
    if stddev < cdfMargin then 0
    else
      let sorted := statsSort values
      andersonDarlingAdjusted values.length
        (accumulate (andersonDarlingTerm erf log sorted mean stddev) (List.range values.length))

end Code

section Scores
variable (erf log : ℝ → ℝ)

/-- What index i adds, from the standard scores. -/
noncomputable def scoreTerm (scores : List ℝ) (i : Nat) : ℝ :=
  ((2 : Nat) * (i : ℝ) + 1) * (log (clampAbove (clampBelow (normalCdf erf (scores.getD i 0 / √((2 : Nat) : ℝ))))) +
    log (1 - clampAbove (normalCdf erf (scores.getD (scores.length - 1 - i) 0 / √((2 : Nat) : ℝ)))))

/-- The statistic of the standard scores. -/
noncomputable def scoreStatistic (scores : List ℝ) : ℝ :=
  andersonDarlingAdjusted scores.length ((List.range scores.length).map (scoreTerm erf log scores)).sum

/-- Both ends of a term read a standard score. -/
theorem term_scores {values : List ℝ} {i : Nat} (inside : i < values.length) :
    andersonDarlingTerm erf log (statsSort values) (Sample.mean values) √(Sample.variance values) i =
      scoreTerm erf log (Sample.scores values) i := by
  have length : (statsSort values).length = values.length := Ordered.inOrder_length values
  have score : ∀ j < values.length, (Sample.scores values).getD j 0 =
      ((statsSort values).getD j 0 - Sample.mean values) / √(Sample.variance values) := by
    intro j below
    rw [List.getD_eq_getElem _ _ (by rwa [Sample.scores_length]), List.getD_eq_getElem _ _ (by rwa [length])]
    exact List.getElem_map _
  have root : Libm.sqrt ((2 : Nat) : ℝ) = √((2 : Nat) : ℝ) := rfl
  simp only [andersonDarlingTerm, scoreTerm, Sample.scores_length, length, score i inside,
    score (values.length - 1 - i) (by omega), root, div_div]

/-- On values that are enough and that differ the code computes the statistic of their standard scores. -/
theorem andersonDarling_scores {values : List ℝ} (enough : 3 ≤ values.length)
    (differ : cdfMargin ≤ (statsMeanStddev values).2) :
    statsAndersonDarling erf log values = scoreStatistic erf log (Sample.scores values) := by
  have terms : (List.range values.length).map (andersonDarlingTerm erf log (statsSort values) (statsMeanStddev values).1
      (statsMeanStddev values).2) = (List.range values.length).map (scoreTerm erf log (Sample.scores values)) := by
    refine List.map_congr_left (fun i member => ?_)
    rw [meanStddev_eq]
    exact term_scores erf log (List.mem_range.mp member)
  unfold statsAndersonDarling scoreStatistic
  dsimp only
  rw [if_neg (not_lt.mpr enough), if_neg (not_lt.mpr differ), accumulate_eq_sum, terms, Sample.scores_length]

theorem margin_eq : (cdfMargin : ℝ) = 1e-15 := by
  unfold cdfMargin ratio
  norm_num

/-- Neither the unit and the zero of the values nor their order counts. -/
theorem anderson_darling_standard {values : List ℝ} (enough : 3 ≤ values.length) {k : ℝ} (pos : 0 < k) (c : ℝ)
    (differ : 1e-15 ≤ (statsMeanStddev values).2)
    (differ_ : 1e-15 ≤ (statsMeanStddev (values.map (fun x => k * x + c))).2) :
    statsAndersonDarling erf log (values.map (fun x => k * x + c)) = statsAndersonDarling erf log values ∧
      ∀ others : List ℝ, others.Perm values →
        statsAndersonDarling erf log others = statsAndersonDarling erf log values := by
  rw [← margin_eq] at differ differ_
  have here := andersonDarling_scores erf log enough differ
  constructor
  · rw [here, andersonDarling_scores erf log (by rwa [List.length_map]) differ_,
      Sample.scores_affine pos c (List.ne_nil_of_length_pos (by omega))]
  · intro others same
    have stddev : (statsMeanStddev others).2 = (statsMeanStddev values).2 := by
      rw [meanStddev_eq, meanStddev_eq, Sample.variance_perm same]
    rw [here, andersonDarling_scores erf log (by rwa [same.length_eq]) (stddev ▸ differ), Sample.scores_perm same]

end Scores

theorem degrees_stddev : (statsMeanStddev [0, 10, (20 : ℝ)]).2 = 10 := by
  have variance : Sample.variance [0, 10, (20 : ℝ)] = 10 ^ 2 := by norm_num [Sample.variance, Sample.mean]
  rw [meanStddev_eq, variance, Real.sqrt_sq (by norm_num)]

/-- Three temperatures, in degrees Celsius and Fahrenheit. -/
theorem anderson_darling_standard_degrees :
    statsAndersonDarling Special.erf Real.log ([0, 10, 20].map (fun x => 9 / 5 * x + 32)) =
      statsAndersonDarling Special.erf Real.log [0, 10, 20] := by
  have fahrenheit : (statsMeanStddev ([0, 10, (20 : ℝ)].map (fun x => 9 / 5 * x + 32))).2 = 18 := by
    rw [meanStddev_affine (by norm_num) 32 (by simp), degrees_stddev]
    norm_num
  exact (anderson_darling_standard _ Real.log (by decide) (by norm_num) 32 (by rw [degrees_stddev]; norm_num)
    (by rw [fahrenheit]; norm_num)).1

end ServMark
