import ServMark.Scoring
import ServMark.Registry

/-! The score arrays of scoring_compute_pillars have fewer cells than the registry of benchmarks,
and no store into them is guarded. -/
namespace ServMark

/-- The arrays hold what is stored exactly if for each pillar at most 64 subtests count. -/
theorem pillars_stored_iff {α : Type} [Field α] [LinearOrder α] [Libm α] (r : RunResult α) :
    (scoringComputePillars r).isSome = true ↔
      ∀ cats ∈ [tCats, lCats, eCats], (r.subtests.filter (counted cats)).length ≤ scoreCells := by
  have fits : (ScoreArrays.after ⟨[], [], []⟩ r.subtests).Fits ↔
      ∀ cats ∈ [tCats, lCats, eCats], (r.subtests.filter (counted cats)).length ≤ scoreCells := by
    simp only [ScoreArrays.Fits, ScoreArrays.after, countedScores, List.nil_append, List.length_map,
      List.forall_mem_cons]
    simp
  simp only [← fits, scoringComputePillars, pillarLoop_eq r.subtests ⟨[], [], []⟩ empty_fits]
  by_cases room : (ScoreArrays.after ⟨[], [], []⟩ r.subtests).Fits
  · simp only [if_pos room, Option.isSome_some]
    exact iff_of_true trivial room
  · simp only [if_neg room, Option.isSome_none]
    exact iff_of_false Bool.false_ne_true room

theorem runLoop_replicate {α : Type} [Field α] [LinearOrder α] [Libm α] {config : RunConfig}
    {env : Nat → SubtestEnv α} {b : Benchmark α} {sr : SubtestResult α} (selects : config.selects b = true)
    (ran : ∀ i, runSubtest config b (env i) = .ok sr) (n i : Nat) (subtests : List (SubtestResult α)) :
    runLoop config env i (List.replicate n b) subtests = .ok (subtests ++ List.replicate n sr) := by
  induction n generalizing i subtests with
  | zero => simp [runLoop]
  | succ n ih =>
    rw [List.replicate_succ, runLoop, if_pos selects, ran]
    dsimp only
    simp only [ih, List.replicate_succ, List.append_assoc, List.singleton_append]

/-- One benchmark registered so many times. -/
def crowd (n : Nat) : List (Benchmark ℝ) := registered (List.replicate n (plainBenchmark ℝ))

noncomputable def slowResult : SubtestResult ℝ := assignScore mainConfig ⟨plainBenchmark ℝ, .zeroed ℝ, 0, "completed"⟩

theorem crowd_harnessRun {n : Nat} (room : n ≤ maxBenchmarks) :
    harnessRun mainConfig (crowd n) slowEnv = .ok ⟨mainConfig, List.replicate n slowResult⟩ := by
  have all : crowd n = List.replicate n (plainBenchmark ℝ) := by
    rw [crowd, registered_take, List.take_of_length_le]
    rwa [List.length_replicate]
  have loop := runLoop_replicate (by decide) slow_runSubtest n 0 []
  simp only [all, harnessRun_of_loop rfl rfl loop, List.nil_append, List.map_replicate]
  rfl

theorem slowResult_counted : counted lCats slowResult = true := by
  obtain ⟨bench, stats, _⟩ := assignScore_keeps mainConfig ⟨plainBenchmark ℝ, .zeroed ℝ, 0, "completed"⟩
  have quiet : slowResult.stats.cv < ssbCvHigh := by
    simp only [slowResult, stats]
    norm_num [ssbCvHigh, BenchmarkStats.zeroed]
  have latency : slowResult.bench.category ∈ lCats := by
    simp only [slowResult, bench]
    decide
  simp [counted, quiet, latency]

/-- Sixty-five benchmarks of one pillar: the registry takes them, the array does not. -/
theorem crowd_overflows : ∃ r, harnessRun mainConfig (crowd 65) slowEnv = .ok r ∧
    r.subtests.length ≤ maxBenchmarks ∧ scoringComputePillars r = none := by
  refine ⟨_, crowd_harnessRun (by decide), by simp [maxBenchmarks], ?_⟩
  have full : ¬ (ScoreArrays.after ⟨[], [], []⟩ (List.replicate 65 slowResult)).Fits := by
    rintro ⟨_, latency, _⟩
    have kept : (List.replicate 65 slowResult).filter (counted lCats) = List.replicate 65 slowResult :=
      List.filter_eq_self.mpr (fun sr member => List.eq_of_mem_replicate member ▸ slowResult_counted)
    simp only [ScoreArrays.after, List.nil_append, countedScores, kept, List.length_map, List.length_replicate]
      at latency
    exact absurd latency (by decide)
  simp only [scoringComputePillars, pillarLoop_eq _ _ empty_fits, if_neg full]

end ServMark
