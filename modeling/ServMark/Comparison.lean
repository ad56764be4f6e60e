import ServMark.Scoring

/-! Two runs of the same subtests: a run that is nowhere slower has no lower score, and no
reference machine changes which of two runs scores higher. -/
namespace ServMark
open GeometricMean

/-- The same subtest measured twice, the second time no slower. -/
structure Improves (x y : SubtestResult ℝ) : Prop where
  category : x.bench.category = y.bench.category
  direction : x.bench.higherIsBetter = y.bench.higherIsBetter
  cv : x.stats.cv = y.stats.cv
  left : 0 < x.stats.mean
  right : 0 < y.stats.mean
  better : if x.bench.higherIsBetter then x.stats.mean ≤ y.stats.mean else y.stats.mean ≤ x.stats.mean

/- A subtest that is not cut for its variation is scored by its mean or the inverse of it. -/
theorem score_stable {config : RunConfig} {sr : SubtestResult ℝ} (stable : sr.stats.cv < ssbCvHigh)
    (positive : 0 < sr.stats.mean) : countedScore (assignScore config sr) =
      if sr.bench.higherIsBetter then sr.stats.mean else 1 / sr.stats.mean := by
  have inverse : 0 < 1 / sr.stats.mean := one_div_pos.mpr positive
  unfold assignScore
  rw [if_neg (fun cut => not_le.mpr stable cut.2)]
  cases direction : sr.bench.higherIsBetter with
  | true => simp [countedScore, positive.not_ge]
  | false =>
    rw [if_pos ⟨rfl, positive⟩, countedScore, if_neg inverse.not_ge]
    rfl

section Improvement
variable {x y : SubtestResult ℝ} (improves : Improves x y)
include improves

theorem improves_counted (config : RunConfig) (cats : List String) :
    counted cats (assignScore config x) = counted cats (assignScore config y) := by
  obtain ⟨benchX, statsX, _⟩ := assignScore_keeps config x
  obtain ⟨benchY, statsY, _⟩ := assignScore_keeps config y
  rw [counted, counted, benchX, statsX, benchY, statsY, improves.category, improves.cv]

theorem improves_score {config : RunConfig} {cats : List String}
    (counts : counted cats (assignScore config x) = true) :
    0 < countedScore (assignScore config x) ∧
      countedScore (assignScore config x) ≤ countedScore (assignScore config y) := by
  refine ⟨countedScore_pos _, ?_⟩
  simp only [counted, Bool.and_eq_true, decide_eq_true_eq, (assignScore_keeps config x).2.1] at counts
  have better := improves.better
  rw [score_stable counts.1 improves.left, score_stable (improves.cv ▸ counts.1) improves.right,
    ← improves.direction]
  split
  · rename_i higher
    rwa [if_pos higher] at better
  · rename_i lower
    rw [if_neg lower] at better
    exact one_div_le_one_div_of_le improves.right better

end Improvement

theorem pillar_mono (config : RunConfig) (cats : List String) {xs ys : List (SubtestResult ℝ)}
    (improves : List.Forall₂ Improves xs ys) :
    pillarOf cats (xs.map (assignScore config)) ≤ pillarOf cats (ys.map (assignScore config)) := by
  apply geomMean_mono
  have assigned : List.Forall₂ (fun x y => ∃ x' y', Improves x' y' ∧ x = assignScore config x' ∧
      y = assignScore config y') (xs.map (assignScore config)) (ys.map (assignScore config)) := by
    rw [List.forall₂_map_left_iff, List.forall₂_map_right_iff]
    exact improves.imp (fun x y pair => ⟨x, y, pair, rfl, rfl⟩)
  apply Related.filter_map assigned
  · rintro _ _ ⟨x, y, pair, rfl, rfl⟩
    exact improves_counted pair config cats
  · rintro _ _ ⟨x, y, pair, rfl, rfl⟩ counts
    exact improves_score pair counts

/-- Every pillar and the overall score of the run that is nowhere slower are no lower. -/
theorem scores_mono (config : RunConfig) {xs ys : List (SubtestResult ℝ)} (few : xs.length ≤ scoreCells)
    (improves : List.Forall₂ Improves xs ys) :
    ∃ p q, scores ⟨config, xs.map (assignScore config)⟩ = some p ∧
      scores ⟨config, ys.map (assignScore config)⟩ = some q ∧ p.1.throughput ≤ q.1.throughput ∧
      p.1.latency ≤ q.1.latency ∧ p.1.efficiency ≤ q.1.efficiency ∧ p.2 ≤ q.2 := by
  have few' : ys.length ≤ scoreCells := improves.length_eq ▸ few
  refine ⟨_, _, scores_eq (by simpa using few), scores_eq (by simpa using few'), pillar_mono config tCats improves,
    pillar_mono config lCats improves, pillar_mono config eCats improves, geomMean_mono ?_⟩
  have entry : ∀ cats, 0 < pillarOf cats (xs.map (assignScore config)) ∧
      pillarOf cats (xs.map (assignScore config)) ≤ pillarOf cats (ys.map (assignScore config)) :=
    fun cats => ⟨pillarOf_pos _ _, pillar_mono config cats improves⟩
  exact .cons (entry tCats) (.cons (entry lCats) (.cons (entry eCats) .nil))

/- A completed subtest without variation. -/
noncomputable def steady (category : String) (higherIsBetter : Bool) (mean score : ℝ) : SubtestResult ℝ :=
  ⟨{ plainBenchmark ℝ with category := category, higherIsBetter := higherIsBetter },
    { BenchmarkStats.zeroed ℝ with mean := mean }, score, "completed"⟩

/- A throughput, a latency and an efficiency benchmark, with these means and scores. -/
noncomputable def threePillars (t l e : ℝ × ℝ) : List (SubtestResult ℝ) :=
  [steady "C1" true t.1 t.2, steady "C6" false l.1 l.2, steady "C14" true e.1 e.2]

theorem three_pillars_mono :
    ∃ p q, scores ⟨mainConfig, (threePillars (2, 0) (4, 0) (6, 0)).map (assignScore mainConfig)⟩ = some p ∧
      scores ⟨mainConfig, (threePillars (3, 0) (2, 0) (6, 0)).map (assignScore mainConfig)⟩ = some q ∧
      p.1.throughput ≤ q.1.throughput ∧ p.1.latency ≤ q.1.latency ∧ p.1.efficiency ≤ q.1.efficiency ∧ p.2 ≤ q.2 := by
  have throughput : Improves (steady "C1" true 2 0) (steady "C1" true 3 0) :=
    ⟨rfl, rfl, rfl, by norm_num [steady], by norm_num [steady], by norm_num [steady]⟩
  have latency : Improves (steady "C6" false 4 0) (steady "C6" false 2 0) :=
    ⟨rfl, rfl, rfl, by norm_num [steady], by norm_num [steady], by norm_num [steady]⟩
  have efficiency : Improves (steady "C14" true 6 0) (steady "C14" true 6 0) :=
    ⟨rfl, rfl, rfl, by norm_num [steady], by norm_num [steady], by norm_num [steady]⟩
  exact scores_mono mainConfig (by decide) (.cons throughput (.cons latency (.cons efficiency .nil)))

/-- The scores relative to a reference machine. -/
def RunResult.referenced {α : Type} [Field α] [LinearOrder α] (r : RunResult α) (baseline : Nat → α) : RunResult α :=
  { r with subtests := r.subtests.zipIdx.map (fun p =>
      { p.1 with normalizedScore := scoringNormalize p.1.normalizedScore (baseline p.2) }) }

/-- What the normalisation divides a pillar by. -/
noncomputable def referencePillar (cats : List String) (baseline : Nat → ℝ) (subtests : List (SubtestResult ℝ)) : ℝ :=
  geomMean ((subtests.zipIdx.filter (fun p => counted cats p.1)).map (fun p => baseline p.2))

theorem countedScores_numbered (cats : List String) (subtests : List (SubtestResult ℝ)) :
    countedScores cats subtests =
      (subtests.zipIdx.filter (fun p => counted cats p.1)).map (fun p => countedScore p.1) := by
  conv_lhs => rw [← List.zipIdx_map_fst 0 subtests, countedScores, List.filter_map, List.map_map]
  rfl

theorem pillar_referenced {r : RunResult ℝ} (cats : List String) {baseline : Nat → ℝ}
    (scored : ∀ sr ∈ r.subtests, 0 < sr.normalizedScore) (machine : ∀ i, i < r.subtests.length → 0 < baseline i) :
    pillarOf cats (r.referenced baseline).subtests =
      pillarOf cats r.subtests / referencePillar cats baseline r.subtests := by
  have below : ∀ p ∈ r.subtests.zipIdx, 0 < baseline p.2 := fun p member =>
    machine p.2 (by simpa using List.snd_lt_of_mem_zipIdx member)
  have divided : countedScores cats (r.referenced baseline).subtests =
      (r.subtests.zipIdx.filter (fun p => counted cats p.1)).map (fun p => countedScore p.1 / baseline p.2) := by
    rw [countedScores, RunResult.referenced, List.filter_map, List.map_map]
    apply List.map_congr_left
    intro p member
    have within := List.mem_of_mem_filter member
    have positive := scored p.1 (List.fst_mem_of_mem_zipIdx within)
    have quotient := div_pos positive (below p within)
    simp [countedScore, scoringNormalize, below p within, positive.not_ge, quotient.not_ge]
  rw [pillarOf, pillarOf, referencePillar, divided, countedScores_numbered]
  exact geomMean_div _ (fun p _ => countedScore_pos p.1) (fun p member => below p (List.mem_of_mem_filter member))

theorem overall_referenced {r : RunResult ℝ} {baseline : Nat → ℝ}
    (scored : ∀ sr ∈ r.subtests, 0 < sr.normalizedScore) (machine : ∀ i, i < r.subtests.length → 0 < baseline i) :
    overallOf (r.referenced baseline).subtests = overallOf r.subtests /
      geomMean ([tCats, lCats, eCats].map (fun cats => referencePillar cats baseline r.subtests)) := by
  have quotient := geomMean_div [tCats, lCats, eCats] (f := fun cats => pillarOf cats r.subtests)
    (g := fun cats => referencePillar cats baseline r.subtests) (fun cats _ => pillarOf_pos cats r.subtests)
    (fun cats _ => geomMean_pos _)
  simp only [← pillar_referenced _ scored machine] at quotient
  exact quotient

/-- The same subtests on two machines, none of them unstable. -/
structure Comparable (x y : SubtestResult ℝ) : Prop where
  category : x.bench.category = y.bench.category
  left : x.stats.cv < ssbCvHigh
  right : y.stats.cv < ssbCvHigh

theorem referencePillar_same {xs ys : List (SubtestResult ℝ)} (cats : List String) (baseline : Nat → ℝ)
    (same : List.Forall₂ Comparable xs ys) :
    referencePillar cats baseline xs = referencePillar cats baseline ys := by
  have indices := Related.filter_map (S := Eq) (p := fun p => counted cats p.1) (q := fun p => counted cats p.1)
    (f := fun p => baseline p.2) (g := fun p => baseline p.2) (Related.zipIdx same 0)
    (fun x y pair => by simp [counted, pair.1.category, pair.1.left, pair.1.right]) (fun x y pair _ => by rw [pair.2])
  rw [List.forall₂_eq_eq_eq] at indices
  rw [referencePillar, referencePillar, indices]

/-- Two values compare as two others do: the same quotient and the same order. -/
structure SameComparison (a b a' b' : ℝ) : Prop where
  ratio : a' / b' = a / b
  order : b' < a' ↔ b < a

theorem sameComparison_div (a b : ℝ) {m : ℝ} (positive : 0 < m) : SameComparison a b (a / m) (b / m) :=
  ⟨div_div_div_cancel_right₀ positive.ne' a b, div_lt_div_iff_of_pos_right positive⟩

/-- For each pillar and for the overall score, two runs compare as they do without the
reference machine. -/
theorem comparison_referenced {A B : RunResult ℝ} {baseline : Nat → ℝ} (few : A.subtests.length ≤ scoreCells)
    (same : List.Forall₂ Comparable A.subtests B.subtests) (scoredA : ∀ sr ∈ A.subtests, 0 < sr.normalizedScore)
    (scoredB : ∀ sr ∈ B.subtests, 0 < sr.normalizedScore)
    (machine : ∀ i, i < A.subtests.length → 0 < baseline i) :
    ∃ a b a' b', scores A = some a ∧ scores B = some b ∧ scores (A.referenced baseline) = some a' ∧
      scores (B.referenced baseline) = some b' ∧
      SameComparison a.1.throughput b.1.throughput a'.1.throughput b'.1.throughput ∧
      SameComparison a.1.latency b.1.latency a'.1.latency b'.1.latency ∧
      SameComparison a.1.efficiency b.1.efficiency a'.1.efficiency b'.1.efficiency ∧
      SameComparison a.2 b.2 a'.2 b'.2 := by
  have length := same.length_eq
  have machineB : ∀ i, i < B.subtests.length → 0 < baseline i := length ▸ machine
  have numbered : ∀ r : RunResult ℝ, r.subtests.length ≤ scoreCells →
      (r.referenced baseline).subtests.length ≤ scoreCells := fun r few => by simpa [RunResult.referenced] using few
  have fewB : B.subtests.length ≤ scoreCells := length ▸ few
  have pillar : ∀ cats, SameComparison (pillarOf cats A.subtests) (pillarOf cats B.subtests)
      (pillarOf cats (A.referenced baseline).subtests) (pillarOf cats (B.referenced baseline).subtests) := by
    intro cats
    rw [pillar_referenced cats scoredA machine, pillar_referenced cats scoredB machineB,
      referencePillar_same cats baseline same]
    exact sameComparison_div _ _ (geomMean_pos _)
  refine ⟨_, _, _, _, scores_eq few, scores_eq fewB, scores_eq (numbered A few), scores_eq (numbered B fewB),
    pillar tCats, pillar lCats, pillar eCats, ?_⟩
  rw [overall_referenced scoredA machine, overall_referenced scoredB machineB]
  simp only [referencePillar_same _ baseline same]
  exact sameComparison_div _ _ (geomMean_pos _)

theorem three_pillars_referenced :
    ∃ a b a' b', scores ⟨mainConfig, threePillars (2, 2) (4, 3) (6, 1)⟩ = some a ∧
      scores ⟨mainConfig, threePillars (3, 3) (2, 5) (6, 2)⟩ = some b ∧
      scores (RunResult.referenced ⟨mainConfig, threePillars (2, 2) (4, 3) (6, 1)⟩ (fun i => i + 7)) = some a' ∧
      scores (RunResult.referenced ⟨mainConfig, threePillars (3, 3) (2, 5) (6, 2)⟩ (fun i => i + 7)) = some b' ∧
      SameComparison a.1.throughput b.1.throughput a'.1.throughput b'.1.throughput ∧
      SameComparison a.1.latency b.1.latency a'.1.latency b'.1.latency ∧
      SameComparison a.1.efficiency b.1.efficiency a'.1.efficiency b'.1.efficiency ∧
      SameComparison a.2 b.2 a'.2 b'.2 := by
  have stable : (0 : ℝ) < ssbCvHigh := by norm_num [ssbCvHigh]
  have comparable (category : String) (higherIsBetter : Bool) (mean score mean' score' : ℝ) :
      Comparable (steady category higherIsBetter mean score) (steady category higherIsBetter mean' score') :=
    ⟨rfl, stable, stable⟩
  have pairs : List.Forall₂ Comparable (threePillars (2, 2) (4, 3) (6, 1)) (threePillars (3, 3) (2, 5) (6, 2)) :=
    .cons (comparable ..) (.cons (comparable ..) (.cons (comparable ..) .nil))
  exact comparison_referenced (A := ⟨mainConfig, threePillars (2, 2) (4, 3) (6, 1)⟩)
    (B := ⟨mainConfig, threePillars (3, 3) (2, 5) (6, 2)⟩) (by decide) pairs (by simp [threePillars, steady])
    (by simp [threePillars, steady]) (fun i _ => by positivity)

end ServMark
