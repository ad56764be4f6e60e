import ServMark.OutputFiles
import ServMark.Scoring
import Mathlib.Data.List.Perm.Basic

/-! What the outcome of a run does not depend on: the order in which the constructors register the benchmarks, and
the reportable flag of the configuration. -/
namespace ServMark
open GeometricMean

section Scores
variable {α : Type} [Field α] [LinearOrder α] [Libm α]

/-- The scores are read off the counted scores alone. -/
theorem scores_arrays {r r' : RunResult α}
    (same : ∀ cats, countedScores cats r.subtests = countedScores cats r'.subtests) : scores r = scores r' := by
  have arrays : ScoreArrays.after ⟨[], [], []⟩ r.subtests = ScoreArrays.after ⟨[], [], []⟩ r'.subtests := by
    simp only [ScoreArrays.after, same]
  rw [scores, scores, scoringComputePillars, scoringComputePillars, pillarLoop_eq _ _ empty_fits,
    pillarLoop_eq _ _ empty_fits, arrays]

end Scores

theorem logMean_perm {scores scores' : List ℝ} (perm : scores.Perm scores')
    (positive : ∀ score ∈ scores, 0 < score) : logMean scores = logMean scores' := by
  rw [logMean_eq positive, logMean_eq (fun score member => positive score (perm.mem_iff.mpr member)), geomMean,
    geomMean, (perm.map Real.log).sum_eq, perm.length_eq]

theorem scores_perm {r r' : RunResult ℝ} (perm : r.subtests.Perm r'.subtests) : scores r = scores r' := by
  have stored (cats : List String) : (countedScores cats r.subtests).Perm (countedScores cats r'.subtests) :=
    (perm.filter _).map _
  have mean (cats : List String) := logMean_perm (stored cats) (countedScores_pos cats r.subtests)
  have fits : (ScoreArrays.after ⟨[], [], []⟩ r.subtests).Fits ↔ (ScoreArrays.after ⟨[], [], []⟩ r'.subtests).Fits := by
    simp only [ScoreArrays.after, ScoreArrays.Fits, List.nil_append, (stored _).length_eq]
  rw [scores, scores, scoringComputePillars, scoringComputePillars, pillarLoop_eq _ _ empty_fits,
    pillarLoop_eq _ _ empty_fits]
  by_cases room : (ScoreArrays.after ⟨[], [], []⟩ r.subtests).Fits
  · rw [if_pos room, if_pos (fits.mp room)]
    simp only [ScoreArrays.after, List.nil_append, mean]
  · rw [if_neg room, if_neg (fun own => room (fits.mpr own))]

section Runs
variable {α : Type} [Field α] [LinearOrder α] [Libm α]

theorem runLoop_iff {config : RunConfig} {env : Nat → SubtestEnv α} {registry : List (Benchmark α)} {i : Nat}
    {subtests out : List (SubtestResult α)} : runLoop config env i registry subtests = .ok out ↔
      ∃ new, out = subtests ++ new ∧ List.Forall₂ (fun p sr => runSubtest config p.1 (env p.2) = .ok sr)
        ((registry.zipIdx i).filter (fun p => config.selects p.1)) new := by
  refine ⟨runLoop_spec, ?_⟩
  rintro ⟨new, rfl, related⟩
  induction registry generalizing i subtests new with
  | nil =>
    cases related
    rw [List.append_nil]
    rfl
  | cons b rest ih =>
    rw [List.zipIdx_cons] at related
    unfold runLoop
    cases selects : config.selects b with
    | true =>
      rw [List.filter_cons_of_pos (by exact selects)] at related
      obtain _ | ⟨ran, related⟩ := related
      simp only [if_true, ran]
      rw [ih _ related, List.append_assoc, List.singleton_append]
    | false =>
      rw [List.filter_cons_of_neg (by simp [selects])] at related
      exact ih _ related

/-- Each registered benchmark with what its subtest meets. -/
def meetings (registry : List (Benchmark α)) (env : RunEnv α) : List (Benchmark α × SubtestEnv α) :=
  registry.zipIdx.map (fun p => (p.1, env.subtest p.2))

/-- The two allocations of harness_run. -/
def RunEnv.Allocates (env : RunEnv α) (registry : List (Benchmark α)) : Prop :=
  env.callocResult = false ∧ (env.callocSubtests = true → registry = [])

theorem harnessRun_iff {config : RunConfig} {registry : List (Benchmark α)} {env : RunEnv α} {r : RunResult α} :
    harnessRun config registry env = .ok r ↔ env.Allocates registry ∧ ∃ measured,
      r = ⟨config, measured.map (assignScore config)⟩ ∧
        List.Forall₂ (fun p sr => runSubtest config p.1 p.2 = .ok sr)
          ((meetings registry env).filter (fun p => config.selects p.1)) measured := by
  have chosen : (meetings registry env).filter (fun p => config.selects p.1) =
      (registry.zipIdx.filter (fun p => config.selects p.1)).map (fun p => (p.1, env.subtest p.2)) := by
    rw [meetings, List.filter_map]
    rfl
  rw [chosen]
  simp only [List.forall₂_map_left_iff, RunEnv.Allocates]
  unfold harnessRun
  split_ifs with result array
  · simp [result]
  · simp [array]
  · have allocated : env.callocResult = false ∧ (env.callocSubtests = true → registry = []) :=
      ⟨Bool.not_eq_true _ ▸ result, fun failed => by_contra (fun some_ => array ⟨failed, some_⟩)⟩
    cases loop : runLoop config env.subtest 0 registry [] with
    | error fault =>
      refine iff_of_false nofun (fun ⟨_, measured, _, related⟩ => ?_)
      rw [runLoop_iff.mpr ⟨measured, rfl, related⟩] at loop
      cases loop
    | ok subtests =>
      obtain ⟨new, own, related⟩ := runLoop_iff.mp loop
      rw [List.nil_append] at own
      subst own
      constructor
      · rintro ⟨⟩
        exact ⟨allocated, subtests, rfl, related⟩
      · rintro ⟨_, measured, rfl, other⟩
        rw [runLoop_iff.mpr ⟨measured, rfl, other⟩, List.nil_append] at loop
        rw [Except.ok.inj loop]

end Runs

section Reportable
variable {α : Type} [Field α] [LinearOrder α] [Libm α]

def RunConfig.withReportable (config : RunConfig) (flag : Bool) : RunConfig := { config with reportable := flag }

omit [Libm α] in
theorem assignScore_only (config : RunConfig) (sr : SubtestResult α) :
    ∃ score, assignScore config sr = { sr with normalizedScore := score } := by
  unfold assignScore
  split_ifs <;> exact ⟨_, rfl⟩

omit [Libm α] in
/-- A score that the flag sets to zero is one that no pillar counts. -/
theorem countedScores_reportable (config : RunConfig) (flag : Bool) (cats : List String)
    (measured : List (SubtestResult α)) :
    countedScores cats (measured.map (assignScore (config.withReportable flag))) =
      countedScores cats (measured.map (assignScore config)) := by
  have kept (c : RunConfig) : counted cats ∘ assignScore c = (counted cats : SubtestResult α → Bool) := by
    funext sr
    obtain ⟨bench, stats, _⟩ := assignScore_keeps c sr
    simp only [Function.comp_apply, counted, bench, stats]
  rw [countedScores, countedScores, List.filter_map, List.filter_map, kept, kept, List.map_map, List.map_map]
  refine List.map_congr_left (fun sr member => ?_)
  have quiet : ¬ ssbCvHigh ≤ sr.stats.cv := by
    have counts := (List.mem_filter.mp member).2
    simp only [counted, Bool.and_eq_true, decide_eq_true_eq] at counts
    exact not_le.mpr counts.1
  have uncut (c : RunConfig) : ¬ (c.reportable = true ∧ ssbCvHigh ≤ sr.stats.cv) := fun cut => quiet cut.2
  simp only [Function.comp_apply, assignScore, if_neg (uncut _)]

omit [Libm α] in
theorem flatMap_assigned {β : Type} (config : RunConfig) (text : SubtestResult α → List β)
    (blind : ∀ sr score, text { sr with normalizedScore := score } = text sr) (measured : List (SubtestResult α)) :
    (measured.map (assignScore config)).flatMap text = measured.flatMap text := by
  rw [List.flatMap_map]
  refine List.flatMap_congr (fun sr _ => ?_)
  obtain ⟨score, eq⟩ := assignScore_only config sr
  rw [eq, blind]

section Files
variable [FloorRing α]

/-- The record with these subtests and this configuration. -/
def ProvenanceResult.holding (p : ProvenanceResult α) (r : RunResult α) : ProvenanceResult α :=
  { p with toRunResult := r }

def MainRun.holding (run : MainRun α) (r : RunResult α) : MainRun α := { run with result := run.result.holding r }

section Texts
omit [Libm α]

theorem subtestText_score (sr : SubtestResult α) (score : α) (more : Bool) :
    subtestText { sr with normalizedScore := score } more = subtestText sr more := by
  unfold subtestText
  with_reducible rfl

theorem provenance_assigned (p : ProvenanceResult α) (config : RunConfig) (measured : List (SubtestResult α)) :
    outputProvenance (p.holding ⟨config, measured.map (assignScore config)⟩) =
      outputProvenance (p.holding ⟨config, measured⟩) := by
  have rows (more : SubtestResult α × Nat → Bool) :
      (measured.zipIdx.map (Prod.map (assignScore config) id)).flatMap (fun p => subtestText p.1 (more p)) =
        measured.zipIdx.flatMap (fun p => subtestText p.1 (more (Prod.map (assignScore config) id p))) := by
    rw [List.flatMap_map]
    refine List.flatMap_congr (fun p _ => ?_)
    obtain ⟨score, eq⟩ := assignScore_only config p.1
    rw [Prod.map_fst, eq, subtestText_score]
  unfold outputProvenance ProvenanceResult.holding
  dsimp only
  rw [List.length_map, List.zipIdx_map, rows]
  dsimp only [Prod.map_snd, id_eq]

theorem reference_assigned (time : Ctime) (refpath : List Char) (config : RunConfig)
    (measured : List (SubtestResult α)) : referenceText time refpath ⟨config, measured.map (assignScore config)⟩ =
      referenceText time refpath ⟨config, measured⟩ := by
  have counted : (fun sr : SubtestResult α => decide (sr.stats.iterations > 0)) ∘ assignScore config =
      fun sr => decide (sr.stats.iterations > 0) := by
    funext sr
    rw [Function.comp_apply, (assignScore_keeps config sr).2.1]
  have written : referenceWritten ⟨config, measured.map (assignScore config)⟩ =
      (referenceWritten ⟨config, measured⟩).map (assignScore config) := by
    rw [referenceWritten, List.filter_map, counted]
    rfl
  rw [referenceText, written, flatMap_assigned config _ (fun _ _ => rfl)]
  rfl

theorem files_assigned (outputDir : List Char) (run : MainRun α) (config : RunConfig)
    (measured : List (SubtestResult α)) :
    outputFiles outputDir (run.holding ⟨config, measured.map (assignScore config)⟩) =
      outputFiles outputDir (run.holding ⟨config, measured⟩) := by
  have lines : outputJsonl (run.result.holding ⟨config, measured.map (assignScore config)⟩) =
      outputJsonl (run.result.holding ⟨config, measured⟩) :=
    flatMap_assigned config _ (fun _ _ => rfl) measured
  have report : outputHtmlReport (run.result.holding ⟨config, measured.map (assignScore config)⟩) =
      outputHtmlReport (run.result.holding ⟨config, measured⟩) := by
    unfold outputHtmlReport ProvenanceResult.holding
    dsimp only
    rw [flatMap_assigned config reportRow (fun _ _ => rfl)]
  have reference := reference_assigned run.startTime (referencePath outputDir run.result.runId) config measured
  unfold outputFiles MainRun.holding
  dsimp only
  rw [provenance_assigned, lines, report]
  unfold ProvenanceResult.holding
  dsimp only
  rw [reference]

end Texts

/-- The reportable flag changes neither the scores of a run nor a byte of its files. -/
theorem reportable_inert {config : RunConfig} {registry : List (Benchmark α)} {env : RunEnv α} {r : RunResult α}
    (ok : harnessRun config registry env = .ok r) (flag : Bool) :
    ∃ r', harnessRun (config.withReportable flag) registry env = .ok r' ∧ scores r' = scores r ∧
      ∀ outputDir (run : MainRun α),
        outputFiles outputDir (run.holding r') = outputFiles outputDir (run.holding r) := by
  obtain ⟨allocates, measured, rfl, related⟩ := harnessRun_iff.mp ok
  refine ⟨⟨config.withReportable flag, measured.map (assignScore (config.withReportable flag))⟩,
    harnessRun_iff.mpr ⟨allocates, measured, rfl, related⟩, ?_, fun outputDir run => ?_⟩
  · exact scores_arrays (fun cats => countedScores_reportable config flag cats measured)
  · rw [files_assigned, files_assigned]
    rfl

end Files
end Reportable

theorem mixed_reportable_inert :
    ∃ r', harnessRun (mainConfig.withReportable true) [plainBenchmark ℝ, plainBenchmark ℝ] (mixedEnv 2) = .ok r' ∧
      scores r' = scores (mixedRun 2) ∧ ∀ outputDir (run : MainRun ℝ),
        outputFiles outputDir (run.holding r') = outputFiles outputDir (run.holding (mixedRun 2)) :=
  reportable_inert (mixed_harnessRun two_pos) true

end ServMark
