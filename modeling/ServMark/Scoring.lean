import ServMark.Harness
import ServMark.Library.GeometricMean

/-! The three pillars and the overall score: scoring.c over the subtests of a run. An array
of scores is the list of the cells stored so far, and a store behind its last cell has no
result. -/
namespace ServMark
open GeometricMean

def tCats : List String := ["C1", "C2", "C3", "C4", "C10", "C13"]
def lCats : List String := ["C6", "C7", "C8", "C11", "C12"]
def eCats : List String := ["C5", "C14", "C15"]

def scoreCells : Nat := 64

structure ScoreArrays (α : Type) where
  t : List α
  l : List α
  e : List α

structure Pillars (α : Type) where
  throughput : α
  latency : α
  efficiency : α

section Arrays
variable {α : Type}

def storeScore (cats : List String) (category : String) (score : α) (scores : List α) : Option (List α) :=
  if cats.contains category then
    if scores.length < scoreCells then some (scores ++ [score]) else none
  else some scores

theorem storeScore_eq (cats : List String) (category : String) (score : α) {scores : List α}
    (fits : scores.length ≤ scoreCells) :
    storeScore cats category score scores =
      if (scores ++ if cats.contains category then [score] else []).length ≤ scoreCells then
        some (scores ++ if cats.contains category then [score] else [])
      else none := by
  unfold storeScore
  split
  · simp only [List.length_append, List.length_singleton, Nat.succ_le_iff]
  · simp only [List.append_nil, if_pos fits]

/-- Every store went into its array. -/
def ScoreArrays.Fits (arrays : ScoreArrays α) : Prop :=
  arrays.t.length ≤ scoreCells ∧ arrays.l.length ≤ scoreCells ∧ arrays.e.length ≤ scoreCells

theorem empty_fits : (⟨[], [], []⟩ : ScoreArrays α).Fits := ⟨Nat.zero_le _, Nat.zero_le _, Nat.zero_le _⟩

instance (arrays : ScoreArrays α) : Decidable arrays.Fits := inferInstanceAs (Decidable (_ ∧ _))

end Arrays

variable {α : Type} [Field α] [LinearOrder α] [Libm α]

def scoringNormalize (rawScore baseline : α) : α := if baseline > 0 then rawScore / baseline else 1

/-- The score as it is counted: one in place of a score that is not positive. -/
def countedScore (sr : SubtestResult α) : α := if sr.normalizedScore ≤ 0 then 1 else sr.normalizedScore

def pillarLoop : List (SubtestResult α) → ScoreArrays α → Option (ScoreArrays α)
  | [], arrays => some arrays
  | sr :: rest, arrays =>
    if ssbCvHigh ≤ sr.stats.cv then pillarLoop rest arrays
    else
      match storeScore tCats sr.bench.category (countedScore sr) arrays.t,
        storeScore lCats sr.bench.category (countedScore sr) arrays.l,
        storeScore eCats sr.bench.category (countedScore sr) arrays.e with
      | some t, some l, some e => pillarLoop rest ⟨t, l, e⟩
      | _, _, _ => none

/- The mean of one array. Each score has the weight 1: the loop over the table of category
weights has an empty body. -/
def logMean (scores : List α) : α :=
  if scores.length > 0 then
    let sums := scores.foldl (fun (sums : α × α) score =>
      if score > 0 then (sums.1 + 1 * Libm.log score, sums.2 + 1) else sums) (0, 0)
    if sums.2 > 0 then Libm.exp (sums.1 / sums.2) else 1
  else 1

def scoringComputePillars (r : RunResult α) : Option (Pillars α) :=
  match pillarLoop r.subtests ⟨[], [], []⟩ with
  | none => none
  | some arrays => some ⟨logMean arrays.t, logMean arrays.l, logMean arrays.e⟩

def scoringOverallScore (t l e : α) : α := statsGeometricMean [t, l, e]

def scores (r : RunResult α) : Option (Pillars α × α) :=
  (scoringComputePillars r).map (fun p => (p, scoringOverallScore p.throughput p.latency p.efficiency))

/- The scores that reach the array of a pillar. -/

def counted (cats : List String) (sr : SubtestResult α) : Bool :=
  decide (sr.stats.cv < ssbCvHigh) && cats.contains sr.bench.category

def countedScores (cats : List String) (subtests : List (SubtestResult α)) : List α :=
  (subtests.filter (counted cats)).map countedScore

omit [Libm α] in
theorem countedScores_cons (cats : List String) (sr : SubtestResult α) (rest : List (SubtestResult α)) :
    countedScores cats (sr :: rest) =
      (if counted cats sr then [countedScore sr] else []) ++ countedScores cats rest := by
  unfold countedScores
  cases h : counted cats sr <;> simp [h]

def ScoreArrays.after (arrays : ScoreArrays α) (subtests : List (SubtestResult α)) : ScoreArrays α :=
  ⟨arrays.t ++ countedScores tCats subtests, arrays.l ++ countedScores lCats subtests,
    arrays.e ++ countedScores eCats subtests⟩

omit [Libm α] in
theorem after_cons (arrays : ScoreArrays α) (sr : SubtestResult α) (rest : List (SubtestResult α)) :
    arrays.after (sr :: rest) = (arrays.after [sr]).after rest := by
  have split (cats : List String) (scores : List α) : scores ++ countedScores cats (sr :: rest) =
      scores ++ countedScores cats [sr] ++ countedScores cats rest := by
    simp only [countedScores_cons, List.append_assoc]
    rw [show countedScores cats [] = ([] : List α) from rfl, List.nil_append]
  simp only [ScoreArrays.after, split]

omit [Libm α] in
theorem fits_before {arrays : ScoreArrays α} {subtests : List (SubtestResult α)} (fits : (arrays.after subtests).Fits) :
    arrays.Fits := by
  simp only [ScoreArrays.Fits, ScoreArrays.after, List.length_append] at fits ⊢
  omega

omit [Libm α] in
/-- The loop stores the counted scores, in order, as long as they fit. -/
theorem pillarLoop_eq (subtests : List (SubtestResult α)) (arrays : ScoreArrays α) (fits : arrays.Fits) :
    pillarLoop subtests arrays = if (arrays.after subtests).Fits then some (arrays.after subtests) else none := by
  induction subtests generalizing arrays with
  | nil =>
    have same : arrays.after [] = arrays := by simp [ScoreArrays.after, countedScores]
    rw [same, if_pos fits]
    rfl
  | cons sr rest ih =>
    rw [after_cons]
    unfold pillarLoop
    split
    · rename_i cut
      have same : arrays.after [sr] = arrays := by
        simp [ScoreArrays.after, countedScores, counted, not_lt.mpr cut]
      rw [same, ih arrays fits]
    · rename_i kept
      have counts : ∀ cats, countedScores cats [sr] =
          if cats.contains sr.bench.category then [countedScore sr] else [] := by
        intro cats
        have decided : counted cats sr = cats.contains sr.bench.category := by simp [counted, not_le.mp kept]
        rw [countedScores_cons, decided]
        exact List.append_nil _
      have fits' := fits
      obtain ⟨t, l, e⟩ := fits'
      rw [storeScore_eq _ _ _ t, storeScore_eq _ _ _ l, storeScore_eq _ _ _ e]
      simp only [← counts]
      by_cases room : (arrays.after [sr]).Fits
      · have room' := room
        obtain ⟨t, l, e⟩ := room'
        simp only [ScoreArrays.after] at t l e
        rw [if_pos t, if_pos l, if_pos e]
        exact ih _ room
      · have full : ¬ ((arrays.after [sr]).after rest).Fits := fun own => room (fits_before own)
        rw [if_neg full]
        simp only [ScoreArrays.Fits, ScoreArrays.after, not_and_or] at room
        split
        · rename_i t l e
          split_ifs at t l e
          omega
        · rfl

omit [Libm α] in
theorem countedScore_pos [IsStrictOrderedRing α] (sr : SubtestResult α) : 0 < countedScore sr := by
  unfold countedScore
  split
  · exact one_pos
  · exact not_le.mp ‹_›

theorem countedScores_pos (cats : List String) (subtests : List (SubtestResult ℝ)) :
    ∀ score ∈ countedScores cats subtests, 0 < score := by
  intro score member
  obtain ⟨sr, _, rfl⟩ := List.mem_map.mp member
  exact countedScore_pos sr

theorem logMean_eq {scores : List ℝ} (positive : ∀ score ∈ scores, 0 < score) :
    logMean scores = geomMean scores := by
  have sums : ∀ start : ℝ × ℝ, scores.foldl (fun (sums : ℝ × ℝ) score =>
      if score > 0 then (sums.1 + 1 * Libm.log score, sums.2 + 1) else sums) start =
        (start.1 + (scores.map Real.log).sum, start.2 + scores.length) := by
    induction scores with
    | nil => simp
    | cons score rest ih =>
      intro start
      rw [List.foldl_cons, if_pos (positive score List.mem_cons_self),
        ih (fun s member => positive s (List.mem_cons_of_mem _ member))]
      have log : (Libm.log score : ℝ) = Real.log score := rfl
      refine Prod.ext ?_ ?_
      · rw [List.map_cons, List.sum_cons, log]
        ring
      · rw [List.length_cons, Nat.cast_succ]
        ring
  unfold logMean
  rw [sums]
  rcases scores.eq_nil_or_concat' with rfl | ⟨front, last, rfl⟩
  · simp
  · have some_ : ((front ++ [last]).length : ℝ) > 0 := by simp; positivity
    simp only [zero_add]
    rw [if_pos (by simp), if_pos some_]
    rfl

noncomputable def pillarOf (cats : List String) (subtests : List (SubtestResult ℝ)) : ℝ :=
  geomMean (countedScores cats subtests)

theorem pillarOf_pos (cats : List String) (subtests : List (SubtestResult ℝ)) : 0 < pillarOf cats subtests :=
  geomMean_pos _

theorem overall_eq {t l e : ℝ} (ht : 0 < t) (hl : 0 < l) (he : 0 < e) :
    scoringOverallScore t l e = geomMean [t, l, e] := by
  simp [scoringOverallScore, statsGeometricMean, logSum, ht.not_ge, hl.not_ge, he.not_ge, geomMean, Libm.log,
    Libm.exp, add_assoc]

noncomputable def pillarsOf (subtests : List (SubtestResult ℝ)) : Pillars ℝ :=
  ⟨pillarOf tCats subtests, pillarOf lCats subtests, pillarOf eCats subtests⟩

noncomputable def overallOf (subtests : List (SubtestResult ℝ)) : ℝ :=
  geomMean [pillarOf tCats subtests, pillarOf lCats subtests, pillarOf eCats subtests]

/-- With at most 64 subtests no array is full, and the scores are geometric means. -/
theorem scores_eq {r : RunResult ℝ} (few : r.subtests.length ≤ scoreCells) :
    scores r = some (pillarsOf r.subtests, overallOf r.subtests) := by
  have room (cats : List String) : (countedScores cats r.subtests).length ≤ scoreCells := by
    rw [countedScores, List.length_map]
    exact (List.length_filter_le _ _).trans few
  have fits : (ScoreArrays.after ⟨[], [], []⟩ r.subtests).Fits := ⟨room tCats, room lCats, room eCats⟩
  have loop := pillarLoop_eq r.subtests ⟨[], [], []⟩ empty_fits
  rw [if_pos fits] at loop
  simp only [ScoreArrays.after, List.nil_append] at loop
  simp only [scores, scoringComputePillars, loop, logMean_eq (countedScores_pos _ _), Option.map_some]
  rw [overall_eq (geomMean_pos _) (geomMean_pos _) (geomMean_pos _)]
  rfl

/- Failed subtests. -/

def RunResult.withoutFailed (r : RunResult α) : RunResult α :=
  { r with subtests := r.subtests.filter (fun sr => sr.status != "failed") }

omit [Field α] [LinearOrder α] [Libm α] in
theorem withoutFailed_few {r : RunResult α} {n : Nat} (few : r.subtests.length ≤ n) :
    r.withoutFailed.subtests.length ≤ n := (List.length_filter_le _ _).trans few

theorem failed_counts {config : RunConfig} {env : Nat → SubtestEnv ℝ} {p : Benchmark ℝ × Nat}
    {sr : SubtestResult ℝ} (origin : SubtestOf config env p sr) (failed : sr.status = "failed") :
    sr.stats.cv = 0 ∧ countedScore sr = 1 := by
  obtain ⟨measured, ran, rfl⟩ := origin
  obtain ⟨_, stats, status⟩ := assignScore_keeps config measured
  have zeroed := subtest_failed ran (status ▸ failed)
  have unscored : (assignScore config measured).normalizedScore = 0 := by
    unfold assignScore
    split_ifs with cut positive
    · rfl
    · rw [zeroed] at positive
      exact absurd positive.2 (lt_irrefl 0)
    · exact congrArg BenchmarkStats.mean zeroed
  rw [stats, zeroed, countedScore, unscored, if_pos (le_refl 0)]
  exact ⟨rfl, rfl⟩

theorem pillar_filter_iff {subtests : List (SubtestResult ℝ)} (cats : List String)
    (failed : ∀ sr ∈ subtests, sr.status = "failed" → sr.stats.cv = 0 ∧ countedScore sr = 1) :
    pillarOf cats (subtests.filter (fun sr => sr.status != "failed")) = pillarOf cats subtests ↔
      (∀ sr ∈ subtests, sr.status = "failed" → sr.bench.category ∉ cats) ∨
        (countedScores cats (subtests.filter (fun sr => sr.status != "failed"))).prod = 1 := by
  have swapped : countedScores cats (subtests.filter (fun sr => sr.status != "failed")) =
      ((subtests.filter (counted cats)).filter (fun sr => sr.status != "failed")).map countedScore := by
    rw [countedScores, List.filter_comm]
  have ones : ∀ sr ∈ subtests.filter (counted cats), (sr.status != "failed") = false → countedScore sr = 1 := by
    intro sr member status
    exact (failed sr (List.mem_of_mem_filter member) (by simpa using status)).2
  have absent : (∀ sr ∈ subtests.filter (counted cats), (sr.status != "failed") = true) ↔
      ∀ sr ∈ subtests, sr.status = "failed" → sr.bench.category ∉ cats := by
    constructor
    · intro completed sr member status within
      have quiet : sr.stats.cv < ssbCvHigh := by
        rw [(failed sr member status).1]
        norm_num [ssbCvHigh]
      have counts : counted cats sr = true := by simp [counted, quiet, within]
      have kept := completed sr (List.mem_filter.mpr ⟨member, counts⟩)
      simp [status] at kept
    · intro outside sr member
      rw [bne_iff_ne]
      intro status
      obtain ⟨within, counts⟩ := List.mem_filter.mp member
      simp only [counted, Bool.and_eq_true, List.contains_iff_mem] at counts
      exact outside sr within status counts.2
  rw [pillarOf, pillarOf, swapped, ← absent]
  exact geomMean_filter_iff _ _ _ (fun sr _ _ => countedScore_pos sr) ones

theorem scores_eq_iff {r r' : RunResult ℝ} (few : r.subtests.length ≤ scoreCells)
    (few' : r'.subtests.length ≤ scoreCells) :
    scores r = scores r' ↔ ∀ cats ∈ [tCats, lCats, eCats], pillarOf cats r.subtests = pillarOf cats r'.subtests := by
  rw [scores_eq few, scores_eq few', Option.some.injEq]
  simp only [List.forall_mem_cons, List.not_mem_nil, false_implies, implies_true, and_true]
  constructor
  · intro same
    have pillars : pillarsOf r.subtests = pillarsOf r'.subtests := congrArg Prod.fst same
    exact ⟨congrArg Pillars.throughput pillars, congrArg Pillars.latency pillars, congrArg Pillars.efficiency pillars⟩
  · rintro ⟨t, l, e⟩
    simp only [pillarsOf, overallOf, t, l, e]

theorem run_failed {config : RunConfig} {registry : List (Benchmark ℝ)} {env : RunEnv ℝ} {r : RunResult ℝ}
    (ok : harnessRun config registry env = .ok r) :
    ∀ sr ∈ r.subtests, sr.status = "failed" → sr.stats.cv = 0 ∧ countedScore sr = 1 := by
  intro sr member status
  obtain ⟨p, _, origin⟩ := Related.mem_right (harnessRun_spec ok).2 member
  exact failed_counts origin status

/-- Dropping the failed subtests leaves the scores alone exactly if, for each pillar, none
of them is in its categories or the scores of the others multiply to one. -/
theorem failed_inert_iff {config : RunConfig} {registry : List (Benchmark ℝ)} {env : RunEnv ℝ} {r : RunResult ℝ}
    (ok : harnessRun config registry env = .ok r) (few : r.subtests.length ≤ scoreCells) :
    scores r.withoutFailed = scores r ↔ ∀ cats ∈ [tCats, lCats, eCats],
      (∀ sr ∈ r.subtests, sr.status = "failed" → sr.bench.category ∉ cats) ∨
        (countedScores cats r.withoutFailed.subtests).prod = 1 := by
  rw [scores_eq_iff (withoutFailed_few few) few]
  exact forall₂_congr (fun cats _ => pillar_filter_iff cats (run_failed ok))

/- A run of two subtests. The first takes the same sample twice, the init of the other
fails. -/
section Mixed
variable (sample : ℝ)

noncomputable def mixedEnv : RunEnv ℝ :=
  ⟨false, false, fun i => ⟨if i = 0 then slowBehaviour 100 sample else { slowBehaviour 100 sample with init := 1 },
    fun _ => 0, noFaults, fun _ => .diesBefore, fun _ => 0⟩⟩

noncomputable def twiceStats : BenchmarkStats ℝ := (statsCompute (fun _ => 0) [sample, sample] (.zeroed ℝ)).2

noncomputable def mixedRun : RunResult ℝ :=
  ⟨mainConfig, [⟨plainBenchmark ℝ, twiceStats sample, 1 / sample, "completed"⟩,
    ⟨plainBenchmark ℝ, .zeroed ℝ, 0, "failed"⟩]⟩

theorem twiceStats_own :
    (twiceStats sample).mean = sample ∧ (twiceStats sample).cv = if sample ≠ 0 then 0 else 1 := by
  have mean : (statsMeanStddev [sample, sample]).1 = sample := by
    rw [mean_eq_sum]
    norm_num
  have stddev : (statsMeanStddev [sample, sample]).2 = 0 := by
    simp [statsMeanStddev, accumulate, Libm.sqrt]
  simp [twiceStats, statsCompute, mean, stddev]

theorem mixed_first : runSubtest mainConfig (plainBenchmark ℝ) ((mixedEnv sample).subtest 0) =
    .ok ⟨plainBenchmark ℝ, twiceStats sample, 0, "completed"⟩ := by
  have sequential : mainConfig.parallel (plainBenchmark ℝ) = false := by decide
  have first : FirstStop (plainBenchmark ℝ) (slowBehaviour 100 sample) 2 :=
    slow_first_stop sample (by decide) (by decide) (by decide)
  have single : harnessRunSingle (plainBenchmark ℝ) (slowBehaviour 100 sample) (.zeroed ℝ) (some mainConfig)
      (fun _ => 0) (fun _ => 0) = .ok ⟨runBenchmarkInstance (plainBenchmark ℝ) (slowBehaviour 100 sample),
        some [sample, sample], 0, twiceStats sample⟩ := by
    rw [harnessRunSingle, run_stopped first (slow_callbacks_ok 100 sample 4)]
    rfl
  simp [runSubtest, sequential, runInProcess, mixedEnv, single, copied]

theorem mixed_second : runSubtest mainConfig (plainBenchmark ℝ) ((mixedEnv sample).subtest 1) =
    .ok ⟨plainBenchmark ℝ, .zeroed ℝ, 0, "failed"⟩ := by
  have sequential : mainConfig.parallel (plainBenchmark ℝ) = false := by decide
  simp [runSubtest, sequential, runInProcess, harnessRunSingle, runBenchmarkInstance, mixedEnv, copied]

variable {sample} (positive : 0 < sample)
include positive

theorem mixed_harnessRun :
    harnessRun mainConfig [plainBenchmark ℝ, plainBenchmark ℝ] (mixedEnv sample) = .ok (mixedRun sample) := by
  have selects : mainConfig.selects (plainBenchmark ℝ) = true := by decide
  have loop : runLoop mainConfig (mixedEnv sample).subtest 0 [plainBenchmark ℝ, plainBenchmark ℝ] [] =
      .ok [⟨plainBenchmark ℝ, twiceStats sample, 0, "completed"⟩, ⟨plainBenchmark ℝ, .zeroed ℝ, 0, "failed"⟩] := by
    simp [runLoop, selects, mixed_first, mixed_second]
  rw [harnessRun_of_loop rfl rfl loop]
  simp [assignScore, mixedRun, mainConfig, plainBenchmark, (twiceStats_own sample).1, BenchmarkStats.zeroed, positive]

theorem mixed_latency : pillarOf lCats (mixedRun sample).withoutFailed.subtests =
    pillarOf lCats (mixedRun sample).subtests ↔ 1 / sample = 1 := by
  have quiet : (twiceStats sample).cv < ssbCvHigh := by
    rw [(twiceStats_own sample).2, if_pos positive.ne']
    norm_num [ssbCvHigh]
  have kept : countedScores lCats (mixedRun sample).withoutFailed.subtests = [1 / sample] := by
    simp [RunResult.withoutFailed, mixedRun, countedScores, counted, countedScore, quiet, plainBenchmark, lCats,
      positive]
  have present : ¬ ∀ sr ∈ (mixedRun sample).subtests, sr.status = "failed" → sr.bench.category ∉ lCats := by
    intro absent
    exact absent ⟨plainBenchmark ℝ, .zeroed ℝ, 0, "failed"⟩ (by simp [mixedRun]) rfl (by decide)
  have filtered := pillar_filter_iff lCats (run_failed (mixed_harnessRun positive))
  rw [or_iff_right present] at filtered
  refine filtered.trans ?_
  change (countedScores lCats (mixedRun sample).withoutFailed.subtests).prod = 1 ↔ 1 / sample = 1
  rw [kept, List.prod_singleton]

end Mixed

theorem mixed_failed_inert_iff :
    scores (mixedRun 2).withoutFailed = scores (mixedRun 2) ↔ ∀ cats ∈ [tCats, lCats, eCats],
      (∀ sr ∈ (mixedRun 2).subtests, sr.status = "failed" → sr.bench.category ∉ cats) ∨
        (countedScores cats (mixedRun 2).withoutFailed.subtests).prod = 1 :=
  failed_inert_iff (mixed_harnessRun two_pos) (by decide)

/- The failed subtest pulls the latency pillar from 1/2 up to its square root. -/
theorem failed_subtest_counts :
    ∃ r, harnessRun mainConfig [plainBenchmark ℝ, plainBenchmark ℝ] (mixedEnv 2) = .ok r ∧
      r.subtests.length ≤ scoreCells ∧ scores r.withoutFailed ≠ scores r := by
  have few : (mixedRun 2).subtests.length ≤ scoreCells := by decide
  refine ⟨mixedRun 2, mixed_harnessRun two_pos, few, fun same => ?_⟩
  rw [scores_eq_iff (withoutFailed_few few) few] at same
  have one := (mixed_latency two_pos).mp (same lCats (by simp))
  norm_num at one

end ServMark
