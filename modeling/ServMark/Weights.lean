import ServMark.Scoring

/-! The category weights of scoring.c, and the pillars as weighted means. -/
namespace ServMark
open GeometricMean

structure CategoryWeight where
  id : String
  weight : ℚ

/-- The table _categories without the names and groups. -/
def categories : List CategoryWeight :=
  [⟨"C1", 12 / 100⟩, ⟨"C2", 10 / 100⟩, ⟨"C3", 8 / 100⟩, ⟨"C4", 8 / 100⟩, ⟨"C5", 5 / 100⟩, ⟨"C6", 8 / 100⟩,
    ⟨"C7", 7 / 100⟩, ⟨"C8", 5 / 100⟩, ⟨"C9", 5 / 100⟩, ⟨"C10", 10 / 100⟩, ⟨"C11", 5 / 100⟩, ⟨"C12", 5 / 100⟩,
    ⟨"C13", 7 / 100⟩, ⟨"C14", 3 / 100⟩, ⟨"C15", 2 / 100⟩]

/-- The weight of a category; 1 is the default of scoring_compute_pillars. -/
def categoryWeight (category : String) : ℚ :=
  ((categories.find? (fun c => c.id == category)).map CategoryWeight.weight).getD 1

theorem categories_pos : ∀ c ∈ categories, 0 < c.weight := by
  simp only [categories, List.forall_mem_cons, List.not_mem_nil, false_implies, implies_true, and_true]
  norm_num

theorem categoryWeight_pos (category : String) : 0 < categoryWeight category := by
  unfold categoryWeight
  cases found : categories.find? (fun c => c.id == category) with
  | none => exact one_pos
  | some c => exact categories_pos c (List.mem_of_find?_eq_some found)

/- The weight of a subtest and the logarithm of its score. -/

def subtestWeight (sr : SubtestResult ℝ) : ℝ := categoryWeight sr.bench.category

noncomputable def logScore (sr : SubtestResult ℝ) : ℝ := Real.log sr.normalizedScore

/-- A pillar as README.md and the comment above the three loops describe it. -/
noncomputable def weightedPillar (cats : List String) (subtests : List (SubtestResult ℝ)) : ℝ :=
  weightedMean (subtests.filter (counted cats)) subtestWeight SubtestResult.normalizedScore

noncomputable def weightedPillars (subtests : List (SubtestResult ℝ)) : Pillars ℝ :=
  ⟨weightedPillar tCats subtests, weightedPillar lCats subtests, weightedPillar eCats subtests⟩

theorem pillars_eq {r : RunResult ℝ} (few : r.subtests.length ≤ scoreCells) :
    scoringComputePillars r = some (pillarsOf r.subtests) := by
  have both := scores_eq few
  simp only [scores, Option.map_eq_some_iff] at both
  obtain ⟨pillars, computed, eq⟩ := both
  exact computed.trans (congrArg some (congrArg Prod.fst eq))

theorem pillar_weighted_iff (cats : List String) {subtests : List (SubtestResult ℝ)}
    (positive : ∀ sr ∈ subtests, 0 < sr.normalizedScore) :
    pillarOf cats subtests = weightedPillar cats subtests ↔
      Uncorrelated (subtests.filter (counted cats)) subtestWeight logScore := by
  have unchanged : countedScores cats subtests =
      (subtests.filter (counted cats)).map SubtestResult.normalizedScore := by
    apply List.map_congr_left
    intro sr member
    exact if_neg (positive sr (List.mem_of_mem_filter member)).not_ge
  simp only [pillarOf, unchanged]
  exact weightedMean_eq_iff _ (fun sr _ => Rat.cast_pos.mpr (categoryWeight_pos sr.bench.category))

/-- The pillars are the weighted means exactly if, among the subtests counted for each of
them, the weights are uncorrelated with the logarithms of the scores. -/
theorem weighted_pillars_iff {r : RunResult ℝ} (few : r.subtests.length ≤ scoreCells)
    (positive : ∀ sr ∈ r.subtests, 0 < sr.normalizedScore) :
    scoringComputePillars r = some (weightedPillars r.subtests) ↔
      ∀ cats ∈ [tCats, lCats, eCats], Uncorrelated (r.subtests.filter (counted cats)) subtestWeight logScore := by
  simp only [pillars_eq few, Option.some.injEq, List.forall_mem_cons, List.not_mem_nil, false_implies, implies_true,
    and_true, ← pillar_weighted_iff _ positive, pillarsOf, weightedPillars, Pillars.mk.injEq]

/- A run of two throughput subtests, the categories of which have different weights. -/

noncomputable def weightedSubtest (category : String) (score : ℝ) : SubtestResult ℝ :=
  ⟨{ plainBenchmark ℝ with category := category, higherIsBetter := true },
    { BenchmarkStats.zeroed ℝ with mean := score, iterations := 5 }, score, "completed"⟩

noncomputable def weightedRun (first second : ℝ) : RunResult ℝ :=
  ⟨mainConfig, [weightedSubtest "C1" first, weightedSubtest "C2" second]⟩

theorem equal_weighted_iff :
    scoringComputePillars (weightedRun 3 3) = some (weightedPillars (weightedRun 3 3).subtests) ↔
    ∀ cats ∈ [tCats, lCats, eCats],
      Uncorrelated ((weightedRun 3 3).subtests.filter (counted cats)) subtestWeight logScore :=
  weighted_pillars_iff (by decide) (by simp [weightedRun, weightedSubtest])

/- The scores 4 and 1: their pillar is the plain mean of 2. -/
theorem unequal_unweighted : (∀ sr ∈ (weightedRun 4 1).subtests, 0 < sr.normalizedScore) ∧
    scoringComputePillars (weightedRun 4 1) ≠ some (weightedPillars (weightedRun 4 1).subtests) := by
  have positive : ∀ sr ∈ (weightedRun 4 1).subtests, 0 < sr.normalizedScore := by simp [weightedRun, weightedSubtest]
  refine ⟨positive, fun weighted => ?_⟩
  rw [pillars_eq (by decide), Option.some.injEq] at weighted
  have throughput := (pillar_weighted_iff tCats positive).mp (congrArg Pillars.throughput weighted)
  have stable : (0 : ℝ) < ssbCvHigh := by norm_num [ssbCvHigh]
  have both : (weightedRun 4 1).subtests.filter (counted tCats) = (weightedRun 4 1).subtests := by
    simp [weightedRun, weightedSubtest, counted, tCats, BenchmarkStats.zeroed, stable]
  have first : categoryWeight "C1" = 12 / 100 := by decide +kernel
  have second : categoryWeight "C2" = 10 / 100 := by decide +kernel
  rw [both, weightedRun, uncorrelated_pair] at throughput
  rcases throughput with weights | logs
  · simp only [subtestWeight, weightedSubtest, first, second] at weights
    norm_num at weights
  · simp only [logScore, weightedSubtest, Real.log_one] at logs
    exact absurd logs (Real.log_pos (by norm_num)).ne'

end ServMark
