import ServMark.Harness

/-! The configured max_iterations on the two execution paths: the in-process runner clamps
the count of its samples, the parallel one pools all that the children send. -/
namespace ServMark
variable {α : Type} [Field α] [LinearOrder α] [Libm α]

/- The list that reaches stats_compute in a subtest. There is none where the subtest fails
or where a child or the runner itself stores behind its array of samples. -/
def statsInput (config : RunConfig) (b : Benchmark α) (e : SubtestEnv α) : Option (List α) :=
  if config.parallel b then
    if e.childOverflows b config.instances then none
    else (harnessRunParallel b config.instances e.faults (e.records b) (.zeroed α) e.rand).pooled
  else
    match harnessRunSingle b e.single (.zeroed α) (some config) e.stack e.rand with
    | .error _ => none
    | .ok run => run.handed

def instanceSamples (config : RunConfig) (b : Benchmark α) (e : SubtestEnv α) : List (List α) :=
  if config.parallel b then (recordsOf (e.records b) config.instances).map ChildResult.samples
  else [collectedSamples config b e]

/-- The statistics of a subtest are computed from at most max_iterations samples of each
instance. -/
structure LimitKept (config : RunConfig) (b : Benchmark α) (e : SubtestEnv α) : Prop where
  input : ∀ samples, statsInput config b e = some samples → samples = collectedSamples config b e
  computed : ∀ sr, runSubtest config b e = .ok sr → sr.status = "completed" →
    (statsInput config b e).isSome ∧ sr.stats = (statsCompute e.rand (collectedSamples config b e) (.zeroed α)).2
  limited : (statsInput config b e).isSome → ∀ samples ∈ instanceSamples config b e,
    (samples.length : Int) ≤ config.maxIterations

section Subtest
variable {config : RunConfig} {b : Benchmark α} {e : SubtestEnv α}

theorem limitKept_none (input : statsInput config b e = none)
    (failed : ∀ sr, runSubtest config b e = .ok sr → sr.status ≠ "completed") : LimitKept config b e := by
  refine ⟨fun samples some_ => ?_, fun sr ok completed => absurd completed (failed sr ok), fun some_ => ?_⟩ <;>
    · simp only [input] at some_
      cases some_

theorem limitKept_iff_short (input : statsInput config b e = some (collectedSamples config b e))
    (computed : ∀ sr, runSubtest config b e = .ok sr → sr.status = "completed" →
      sr.stats = (statsCompute e.rand (collectedSamples config b e) (.zeroed α)).2) : LimitKept config b e ↔
      ∀ samples ∈ instanceSamples config b e, (samples.length : Int) ≤ config.maxIterations := by
  have some_ : (statsInput config b e).isSome := by rw [input]; rfl
  constructor
  · exact fun kept => kept.limited some_
  · intro short
    refine ⟨fun samples same => ?_, fun sr ok completed => ⟨some_, computed sr ok completed⟩, fun _ => short⟩
    exact Option.some.inj (same.symm.trans input)

end Subtest

/-- Instance i exits normally after n timed measurements. -/
def Stops (b : Benchmark α) (e : SubtestEnv α) (i n : Nat) : Prop :=
  ∃ c, e.children i = .exits c ∧ FirstStop b c n ∧ CallbacksOk b c (2 + n)

theorem completed_result {config : RunConfig} {b : Benchmark α} {e : SubtestEnv α} {sr : SubtestResult α}
    (ok : runSubtest config b e = .ok sr) (completed : sr.status = "completed") :
    ∃ ret, (if config.parallel b then runChildren config b e else runInProcess config b e) = .ok (ret, sr.stats) ∧
      ret = 0 := by
  obtain ⟨_, ret, ran, status⟩ := runSubtest_result ok
  refine ⟨ret, ran, ?_⟩
  by_contra failed
  simp only [status, if_neg failed] at completed
  exact absurd completed (by decide)

section Children
variable {config : RunConfig} {b : Benchmark α} {e : SubtestEnv α}

theorem stops_record {i n : Nat} (stops : Stops b e i n) (few : n ≤ ssbMaxIterations) :
    ∃ r, e.records b i = .exits r ∧ r.ret = 0 ∧ r.samples.length = n := by
  obtain ⟨c, exits, first, callbacks⟩ := stops
  have iter : (childResult b c).iter = n := by simp [childResult, run_stopped first callbacks]
  refine ⟨childResult b c, by simp [SubtestEnv.records, exits, ChildFate.map], ?_, ?_⟩
  · simp [childResult, run_stopped first callbacks]
  · simp only [samples_length (by rw [iter]; exact_mod_cast few), iter, Int.toNat_natCast]

theorem stops_unique {i m n : Nat} (left : Stops b e i m) (right : Stops b e i n) : m = n := by
  obtain ⟨c, exits, first, _⟩ := left
  obtain ⟨c', exits', first', _⟩ := right
  simp only [exits] at exits'
  cases exits'
  exact firstStop_unique first first'

/-- Every pipe, fork and allocation succeeds, and every instance exits after measurements
that fit its record. -/
def AllStop (config : RunConfig) (b : Benchmark α) (e : SubtestEnv α) : Prop :=
  Works e.faults config.instances ∧ ∀ i, i < config.instances → ∃ n, n ≤ ssbMaxIterations ∧ Stops b e i n

theorem allStop_of_success (inside : ¬ e.childOverflows b config.instances = true)
    (success : (harnessRunParallel b config.instances e.faults (e.records b) (.zeroed α) e.rand).ret = 0) :
    AllStop config b e := by
  obtain ⟨works, delivered⟩ := parallel_success success
  refine ⟨works, fun i lt => ?_⟩
  obtain ⟨c, exits, ret, fits⟩ := delivered_child works lt (delivered i lt) inside
  obtain ⟨n, first, callbacks⟩ := run_success ret
  simp only [run_stopped first callbacks, timedMetrics_length] at fits
  exact ⟨n, fits, c, exits, first, callbacks⟩

theorem allStop_delivered (all : AllStop config b e) :
    (∀ i, i < config.instances → Delivered (e.records b i)) ∧ ¬ e.childOverflows b config.instances = true := by
  constructor
  · intro i lt
    obtain ⟨n, few, stops⟩ := all.2 i lt
    obtain ⟨r, exits, ret, _⟩ := stops_record stops few
    exact ⟨r, exits, ret⟩
  · simp only [SubtestEnv.childOverflows, List.any_eq_true, List.mem_range, not_exists, not_and, Bool.and_eq_true,
      decide_eq_true_eq]
    intro i lt _
    obtain ⟨n, few, c, exits, first, callbacks⟩ := all.2 i lt
    simpa [exits, ChildFate.written, run_stopped first callbacks, timedMetrics_length] using few

variable (parallel : config.parallel b = true)
include parallel

theorem allStop_run (all : AllStop config b e) :
    harnessRunParallel b config.instances e.faults (e.records b) (.zeroed α) e.rand =
      ⟨parentCalls e.faults config.instances, some (collectedSamples config b e), 0,
        (statsCompute e.rand (collectedSamples config b e) (.zeroed α)).2⟩ := by
  obtain ⟨delivered, inside⟩ := allStop_delivered all
  have enough := pooled_enough parallel all.1 delivered inside
  rw [parallel_delivered b _ _ all.1 delivered, if_pos (by omega), collectedSamples, if_pos parallel]

theorem allStop_input (all : AllStop config b e) : statsInput config b e = some (collectedSamples config b e) := by
  simp only [statsInput, if_pos parallel, if_neg (allStop_delivered all).2, allStop_run parallel all]

theorem input_allStop (some_ : (statsInput config b e).isSome) : AllStop config b e := by
  simp only [statsInput, if_pos parallel] at some_
  split at some_
  · cases some_
  · rename_i inside
    obtain ⟨samples, pooled⟩ := Option.isSome_iff_exists.mp some_
    exact allStop_of_success inside (pooled_success pooled)

theorem children_computed {sr : SubtestResult α} (ok : runSubtest config b e = .ok sr)
    (completed : sr.status = "completed") :
    AllStop config b e ∧ sr.stats = (statsCompute e.rand (collectedSamples config b e) (.zeroed α)).2 := by
  obtain ⟨ret, ran, success⟩ := completed_result ok completed
  simp only [if_pos parallel] at ran
  unfold runChildren at ran
  dsimp only at ran
  split at ran
  · cases ran
  · rename_i inside
    obtain ⟨_, code, stats⟩ := copied_ok ran
    have all := allStop_of_success inside (code ▸ success)
    rw [stats, allStop_run parallel all]
    exact ⟨all, rfl⟩

theorem children_limited_iff (all : AllStop config b e) (limit : Int) :
    (∀ samples ∈ instanceSamples config b e, (samples.length : Int) ≤ limit) ↔
      ∀ i, i < config.instances → ∀ n, Stops b e i n → (n : Int) ≤ limit := by
  simp only [instanceSamples, if_pos parallel, recordsOf, List.map_map, List.forall_mem_map, List.mem_range]
  refine forall₂_congr (fun i lt => ?_)
  obtain ⟨n, few, stops⟩ := all.2 i lt
  obtain ⟨r, exits, _, length⟩ := stops_record stops few
  simp only [Function.comp_apply, exits, ChildFate.written, Option.getD_some, length]
  exact ⟨fun le m other => stops_unique stops other ▸ le, fun within => within n stops⟩

/-- In the children the limit is kept exactly if every instance stops within it. -/
theorem children_limit_iff : LimitKept config b e ↔ (AllStop config b e →
    ∀ i, i < config.instances → ∀ n, Stops b e i n → (n : Int) ≤ config.maxIterations) := by
  by_cases all : AllStop config b e
  · rw [limitKept_iff_short (allStop_input parallel all) (fun sr ok done => (children_computed parallel ok done).2),
      children_limited_iff parallel all, forall_prop_of_true all]
  · have input : statsInput config b e = none := by
      by_contra some_
      exact all (input_allStop parallel (Option.isSome_iff_ne_none.mpr some_))
    exact iff_of_true (limitKept_none input (fun sr ok done => all (children_computed parallel ok done).1))
      (fun stop => absurd stop all)

end Children

section InProcess
variable {config : RunConfig} {b : Benchmark α} {e : SubtestEnv α} (sequential : config.parallel b = false)
  (limit : config.maxIterations > 0) (free : config.minIterations = 0)

include limit free in
theorem clamp_limited (n : Nat) : clampIterations config n ≤ config.maxIterations ∧ clampIterations config n ≤ n := by
  unfold clampIterations
  dsimp only
  split <;> split <;> omega

include sequential limit free

theorem single_limited {run : SingleRun α}
    (ok : harnessRunSingle b e.single (.zeroed α) (some config) e.stack e.rand = .ok run) :
    run.ret ≠ 0 ∧ run.handed = none ∨ run.handed = some (collectedSamples config b e) ∧
      ((collectedSamples config b e).length : Int) ≤ config.maxIterations ∧
      run.stats = (statsCompute e.rand (collectedSamples config b e) (.zeroed α)).2 := by
  obtain ⟨_, ⟨_, none, failed, _⟩ | ⟨n, first, callbacks, handed, _, stats⟩⟩ := single_cases ok
  · exact Or.inl ⟨failed, none⟩
  · obtain ⟨most, within⟩ := clamp_limited limit free n
    have same : handedSamples (timedMetrics e.single n) e.stack (clampIterations config n) =
        collectedSamples config b e := by
      rw [collected_sequential sequential first callbacks, handed_eq_take e.stack (by rwa [timedMetrics_length])]
    refine Or.inr ⟨same ▸ handed, ?_, same ▸ stats⟩
    simp only [← same, handed_length]
    omega

theorem single_limit_kept : LimitKept config b e := by
  have path : ¬ config.parallel b = true := by simp [sequential]
  have ran : ∀ sr, runSubtest config b e = .ok sr → sr.status = "completed" →
      ∃ ret, runInProcess config b e = .ok (ret, sr.stats) ∧ ret = 0 := by
    intro sr ok completed
    simpa only [if_neg path] using completed_result ok completed
  cases single : harnessRunSingle b e.single (.zeroed α) (some config) e.stack e.rand with
  | error fault =>
    refine limitKept_none (by rw [statsInput, if_neg path, single]) (fun sr ok completed => ?_)
    obtain ⟨ret, in_, _⟩ := ran sr ok completed
    simp only [runInProcess, single] at in_
    cases in_
  | ok run =>
    have input : statsInput config b e = run.handed := by rw [statsInput, if_neg path, single]
    have result : ∀ ret stats, runInProcess config b e = .ok (ret, stats) → ret = run.ret ∧ stats = run.stats := by
      intro ret stats ok
      simp only [runInProcess, single] at ok
      exact (copied_ok ok).2
    rcases single_limited sequential limit free single with ⟨failed, none⟩ | ⟨handed, short, stats⟩
    · refine limitKept_none (input.trans none) (fun sr ok completed => ?_)
      obtain ⟨ret, in_, success⟩ := ran sr ok completed
      exact failed ((result ret _ in_).1 ▸ success)
    · refine (limitKept_iff_short (input.trans handed) (fun sr ok completed => ?_)).mpr (fun samples member => ?_)
      · obtain ⟨ret, in_, _⟩ := ran sr ok completed
        simp only [(result ret _ in_).2, stats]
      · simp only [instanceSamples, if_neg path] at member
        rwa [List.mem_singleton.mp member]

end InProcess

/-- The statistics are computed from at most max_iterations samples of each instance exactly
if, where a benchmark runs in children and they all succeed, each of them stops within
that limit. -/
theorem limit_kept_iff {config : RunConfig} (limit : config.maxIterations > 0) (free : config.minIterations = 0)
    (b : Benchmark α) (e : SubtestEnv α) :
    LimitKept config b e ↔ (config.parallel b = true → AllStop config b e →
      ∀ i, i < config.instances → ∀ n, Stops b e i n → (n : Int) ≤ config.maxIterations) := by
  cases path : config.parallel b with
  | true => rw [children_limit_iff path, forall_prop_of_true rfl]
  | false => exact iff_of_true (single_limit_kept path limit free) (fun parallel => nomatch parallel)

/- Two instances that measure three times each (60 s a time), with max_iterations = 2. -/
def pairConfig : RunConfig := { mainConfig with numInstances := 2, maxIterations := 2 }

def pairEnv (seconds : Nat) : SubtestEnv ℝ :=
  ⟨slowBehaviour seconds 1, fun _ => 0, noFaults, fun _ => .exits (slowBehaviour seconds 1), fun _ => 0⟩

theorem pair_limit_kept_iff : LimitKept pairConfig (plainBenchmark ℝ) (pairEnv 100) ↔
    (pairConfig.parallel (plainBenchmark ℝ) = true → AllStop pairConfig (plainBenchmark ℝ) (pairEnv 100) →
      ∀ i, i < pairConfig.instances → ∀ n, Stops (plainBenchmark ℝ) (pairEnv 100) i n →
        (n : Int) ≤ pairConfig.maxIterations) :=
  limit_kept_iff (by decide) rfl (plainBenchmark ℝ) (pairEnv 100)

theorem pair_limit_ignored : pairConfig.maxIterations > 0 ∧ pairConfig.minIterations = 0 ∧
    ¬ LimitKept pairConfig (plainBenchmark ℝ) (pairEnv 60) := by
  refine ⟨by decide, rfl, fun kept => ?_⟩
  have stops : ∀ i, Stops (plainBenchmark ℝ) (pairEnv 60) i 3 := fun i =>
    ⟨_, rfl, slow_first_stop 1 (by decide) (by decide) (by decide), slow_callbacks_ok 60 1 5⟩
  have works : Works noFaults 2 := ⟨rfl, rfl, fun _ _ => rfl, fun _ _ => rfl⟩
  have within := (children_limit_iff (by decide)).mp kept ⟨works, fun i _ => ⟨3, by decide, stops i⟩⟩
  exact absurd (within 0 (by decide) 3 (stops 0)) (by decide)

end ServMark
