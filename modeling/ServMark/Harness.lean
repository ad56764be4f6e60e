import ServMark.Single
import ServMark.Pooling
import ServMark.Library.Related

/-! harness_run: the selection of the registered benchmarks, the run of each of them and
the assignment of scores. What the run does to the machine between two benchmarks (the
cooldown) and what it records of the machine (system_probe) are left out. -/
namespace ServMark

/-- What one subtest meets, in the parent (single) or in the forked children. -/
structure SubtestEnv (α : Type) where
  single : Behaviour α
  stack : Nat → α
  faults : Faults
  children : Nat → ChildFate (Behaviour α)
  rand : Nat → Nat

/- What a whole run meets; the subtests are numbered by registration. -/
structure RunEnv (α : Type) where
  callocResult : Bool
  callocSubtests : Bool
  subtest : Nat → SubtestEnv α

section Selection
variable {α : Type}

def RunConfig.instances (config : RunConfig) : Nat :=
  if config.numInstances > 0 then config.numInstances.toNat else 1

def RunConfig.admits (config : RunConfig) (b : Benchmark α) : Bool :=
  config.tierMask.testBit b.tier && config.categoryFilter.all (fun c => b.category == c)

def RunConfig.selects (config : RunConfig) (b : Benchmark α) : Bool :=
  config.admits b && (config.benchFilter.isEmpty || config.benchFilter.contains b.name)

def RunConfig.parallel (config : RunConfig) (b : Benchmark α) : Bool :=
  decide (config.instances > 1) && decide (b.numThreads = 1)

def selected (config : RunConfig) (registry : List (Benchmark α)) : List (Benchmark α × Nat) :=
  registry.zipIdx.filter (fun p => config.selects p.1)

end Selection

variable {α : Type} [Field α] [LinearOrder α] [Libm α]

def SubtestEnv.records (e : SubtestEnv α) (b : Benchmark α) (i : Nat) : ChildFate (ChildResult α) :=
  (e.children i).map (childResult b)

/-- A forked child stores more samples than its record has cells. -/
def SubtestEnv.childOverflows (e : SubtestEnv α) (b : Benchmark α) (n : Nat) : Bool :=
  (List.range n).any (fun i => decide (.fork i ∈ parentCalls e.faults n) &&
    (e.children i).written.any (fun c => decide ((runBenchmarkInstance b c).values.length > ssbMaxIterations)))

/- The copy of the samples into the subtest's raw_values, which no caller guards. -/
def copied (handed : Option (List α)) (ret : Int) (stats : BenchmarkStats α) :
    Except Fault (Int × BenchmarkStats α) :=
  if handed.any (fun samples => decide (samples.length > ssbMaxIterations)) then .error .overflow
  else .ok (ret, stats)

def runChildren (config : RunConfig) (b : Benchmark α) (e : SubtestEnv α) : Except Fault (Int × BenchmarkStats α) :=
  let run := harnessRunParallel b config.instances e.faults (e.records b) (.zeroed α) e.rand
  if e.childOverflows b config.instances then .error .overflow
  else copied run.pooled run.ret run.stats

def runInProcess (config : RunConfig) (b : Benchmark α) (e : SubtestEnv α) : Except Fault (Int × BenchmarkStats α) :=
  match harnessRunSingle b e.single (.zeroed α) (some config) e.stack e.rand with
  | .error fault => .error fault
  | .ok run => copied run.handed run.ret run.stats

def runSubtest (config : RunConfig) (b : Benchmark α) (e : SubtestEnv α) : Except Fault (SubtestResult α) :=
  match (if config.parallel b then runChildren config b e else runInProcess config b e) with
  | .error fault => .error fault
  | .ok (ret, stats) => .ok ⟨b, stats, 0, if ret = 0 then "completed" else "failed"⟩

/-- The loop over the registry, from the benchmark with number i on. -/
def runLoop (config : RunConfig) (env : Nat → SubtestEnv α) :
    Nat → List (Benchmark α) → List (SubtestResult α) → Except Fault (List (SubtestResult α))
  | _, [], subtests => .ok subtests
  | i, b :: rest, subtests =>
    if config.selects b then
      match runSubtest config b (env i) with
      | .error fault => .error fault
      | .ok sr => runLoop config env (i + 1) rest (subtests ++ [sr])
    else runLoop config env (i + 1) rest subtests

def assignScore (config : RunConfig) (sr : SubtestResult α) : SubtestResult α :=
  if config.reportable = true ∧ ssbCvHigh ≤ sr.stats.cv then { sr with normalizedScore := 0 }
  else if sr.bench.higherIsBetter = false ∧ 0 < sr.stats.mean then
    { sr with normalizedScore := 1 / sr.stats.mean }
  else { sr with normalizedScore := sr.stats.mean }

def harnessRun (config : RunConfig) (registry : List (Benchmark α)) (env : RunEnv α) :
    Except Fault (RunResult α) :=
  if env.callocResult then .error .outOfMemory
  else if env.callocSubtests = true ∧ registry ≠ [] then .error .outOfMemory
  else
    match runLoop config env.subtest 0 registry [] with
    | .error fault => .error fault
    | .ok subtests => .ok ⟨config, subtests.map (assignScore config)⟩

omit [Field α] [LinearOrder α] [Libm α] in
theorem copied_ok {handed : Option (List α)} {ret code : Int} {stats out : BenchmarkStats α}
    (ok : copied handed ret stats = .ok (code, out)) :
    (∀ samples, handed = some samples → samples.length ≤ ssbMaxIterations) ∧ code = ret ∧ out = stats := by
  unfold copied at ok
  split at ok
  · cases ok
  · rename_i inside
    cases ok
    refine ⟨?_, rfl, rfl⟩
    rintro samples rfl
    simpa using inside

/-- The inputs of an in-process run that end it, if they do, with enough samples: two or
more after the clamps of the configuration, and no more than were measured. -/
def EnoughMeasured (config : RunConfig) (b : Benchmark α) (e : Behaviour α) : Prop :=
  ∀ n, FirstStop b e n → CallbacksOk b e (2 + n) →
    2 ≤ clampIterations config n ∧ clampIterations config n ≤ n

/- The samples of a subtest: those the configuration keeps of an in-process run, or those
pooled from the records of the children. -/
def collectedSamples (config : RunConfig) (b : Benchmark α) (e : SubtestEnv α) : List α :=
  if config.parallel b then poolSamples b (recordsOf (e.records b) config.instances)
  else
    let run := runBenchmarkInstance b e.single
    run.values.take (clampIterations config (run.iterOut.getD 0)).toNat

theorem collected_sequential {config : RunConfig} {b : Benchmark α} {e : SubtestEnv α} {n : Nat}
    (sequential : config.parallel b = false) (first : FirstStop b e.single n)
    (callbacks : CallbacksOk b e.single (2 + n)) :
    collectedSamples config b e = (timedMetrics e.single n).take (clampIterations config n).toNat := by
  simp [collectedSamples, sequential, run_stopped first callbacks]

theorem inProcess_own_iff {config : RunConfig} {b : Benchmark α} {e : SubtestEnv α} {ret : Int}
    {stats : BenchmarkStats α} (sequential : config.parallel b = false)
    (ok : runInProcess config b e = .ok (ret, stats)) :
    (ret = 0 → OwnStats (collectedSamples config b e) stats) ↔ EnoughMeasured config b e.single := by
  unfold runInProcess at ok
  split at ok
  · cases ok
  · rename_i run single
    obtain ⟨_, rfl, rfl⟩ := copied_ok ok
    obtain ⟨same, ⟨failed, _, nonzero, _⟩ | ⟨n, first, callbacks, _, zero, computed⟩⟩ := single_cases single
    · rw [same] at failed
      exact iff_of_true (fun success => absurd success nonzero)
        (fun n first callbacks => absurd callbacks (failed_unstopped failed first))
    · have unique : EnoughMeasured config b e.single ↔
          2 ≤ clampIterations config n ∧ clampIterations config n ≤ n :=
        at_first_stop first callbacks (fun m => 2 ≤ clampIterations config m ∧ clampIterations config m ≤ m)
      rw [unique, collected_sequential sequential first callbacks, computed]
      constructor
      · intro own
        have counted := (own zero).iterations
        have nonempty := (own zero).nonempty
        rw [List.length_take, timedMetrics_length] at counted nonempty
        rcases Nat.lt_or_ge (handedSamples (timedMetrics e.single n) e.stack (clampIterations config n)).length 2
          with few | enough
        · rw [compute_refuses _ few] at counted
          simp only [BenchmarkStats.zeroed] at counted
          omega
        · rw [compute_iterations _ enough] at counted
          rw [handed_length] at counted enough
          omega
      · rintro ⟨enough, within⟩ _
        rw [handed_eq_take e.stack (by rwa [timedMetrics_length])]
        refine compute_own _ ?_ _
        rw [List.length_take, timedMetrics_length]
        omega

theorem childResult_range {b : Benchmark α} {e : Behaviour α} (success : (childResult b e).ret = 0)
    (inside : (runBenchmarkInstance b e).values.length ≤ ssbMaxIterations) :
    1 ≤ (childResult b e).iter ∧ (childResult b e).iter ≤ ssbMaxIterations := by
  obtain ⟨n, first, callbacks⟩ := run_success success
  have positive := first.1.1
  rw [run_stopped first callbacks, timedMetrics_length] at inside
  have iter : (childResult b e).iter = n := by simp [childResult, run_stopped first callbacks]
  rw [iter]
  omega

theorem records_delivered {b : Benchmark α} {e : SubtestEnv α} {i : Nat} (delivered : Delivered (e.records b i)) :
    ∃ c, e.children i = .exits c ∧ (childResult b c).ret = 0 := by
  obtain ⟨r, record, ret⟩ := delivered
  unfold SubtestEnv.records at record
  cases fate : e.children i with
  | exits c =>
    rw [fate] at record
    cases record
    exact ⟨c, rfl, ret⟩
  | diesBefore => rw [fate] at record; cases record
  | diesAfter c => rw [fate] at record; cases record

/-- A record that arrives comes from a child whose samples fit it. -/
theorem delivered_child {b : Benchmark α} {e : SubtestEnv α} {n i : Nat} (works : Works e.faults n) (lt : i < n)
    (delivered : Delivered (e.records b i)) (inside : ¬ e.childOverflows b n = true) :
    ∃ c, e.children i = .exits c ∧ (childResult b c).ret = 0 ∧
      (runBenchmarkInstance b c).values.length ≤ ssbMaxIterations := by
  obtain ⟨c, fate, ret⟩ := records_delivered delivered
  simp only [SubtestEnv.childOverflows, List.any_eq_true, List.mem_range, not_exists, not_and, Bool.and_eq_true,
    decide_eq_true_eq] at inside
  have fits := inside i lt (fork_mem_parentCalls works lt)
  simp only [fate, ChildFate.written, Option.any_some, decide_eq_true_eq, Nat.not_lt] at fits
  exact ⟨c, fate, ret, fits⟩

theorem records_range {b : Benchmark α} {e : SubtestEnv α} {n : Nat} (works : Works e.faults n)
    (delivered : ∀ i, i < n → Delivered (e.records b i)) (inside : ¬ e.childOverflows b n = true) :
    ∀ r ∈ recordsOf (e.records b) n, 1 ≤ r.iter ∧ r.iter ≤ ssbMaxIterations := by
  intro r member
  obtain ⟨i, within, rfl⟩ := List.mem_map.mp member
  have lt : i < n := List.mem_range.mp within
  obtain ⟨c, fate, ret, fits⟩ := delivered_child works lt (delivered i lt) inside
  simpa [SubtestEnv.records, fate, ChildFate.map, ChildFate.written] using childResult_range ret fits

/-- There are samples enough for the statistics: every instance adds one. -/
theorem pooled_enough {config : RunConfig} {b : Benchmark α} {e : SubtestEnv α}
    (parallel : config.parallel b = true) (works : Works e.faults config.instances)
    (delivered : ∀ i, i < config.instances → Delivered (e.records b i))
    (inside : ¬ e.childOverflows b config.instances = true) :
    2 ≤ (poolSamples b (recordsOf (e.records b) config.instances)).length := by
  have range := records_range works delivered inside
  have length := pool_length b range
  have count := pooledCount_ge b range
  have capacity : (allValuesCapacity : Int) = 992 := rfl
  have instances : config.instances > 1 := by
    simp only [RunConfig.parallel, Bool.and_eq_true, decide_eq_true_eq] at parallel
    exact parallel.1
  have records : (recordsOf (e.records b) config.instances).length = config.instances := by simp [recordsOf]
  omega

theorem children_own {config : RunConfig} {b : Benchmark α} {e : SubtestEnv α} {ret : Int}
    {stats : BenchmarkStats α} (parallel : config.parallel b = true)
    (ok : runChildren config b e = .ok (ret, stats)) (success : ret = 0) :
    OwnStats (collectedSamples config b e) stats := by
  unfold runChildren at ok
  dsimp only at ok
  split at ok
  · cases ok
  · rename_i inside
    obtain ⟨_, rfl, rfl⟩ := copied_ok ok
    obtain ⟨works, delivered⟩ := parallel_success success
    have enough := pooled_enough parallel works delivered inside
    rw [parallel_delivered b _ _ works delivered, if_pos (by omega), collectedSamples, if_pos parallel]
    exact compute_own _ enough _

theorem runSubtest_result {config : RunConfig} {b : Benchmark α} {e : SubtestEnv α} {sr : SubtestResult α}
    (ok : runSubtest config b e = .ok sr) :
    sr.bench = b ∧ ∃ ret, (if config.parallel b then runChildren config b e else runInProcess config b e) =
      .ok (ret, sr.stats) ∧ sr.status = if ret = 0 then "completed" else "failed" := by
  unfold runSubtest at ok
  split at ok
  · cases ok
  · rename_i ret stats ran
    cases ok
    exact ⟨rfl, ret, ran, rfl⟩

theorem subtest_own_iff {config : RunConfig} {b : Benchmark α} {e : SubtestEnv α} {sr : SubtestResult α}
    (ok : runSubtest config b e = .ok sr) :
    (sr.status = "completed" → OwnStats (collectedSamples config b e) sr.stats) ↔
      (config.parallel b = false → EnoughMeasured config b e.single) := by
  obtain ⟨_, ret, ran, status⟩ := runSubtest_result ok
  have completed : sr.status = "completed" ↔ ret = 0 := by
    rw [status]
    split <;> simp_all
  rw [completed]
  cases path : config.parallel b with
  | true =>
    rw [path, if_pos rfl] at ran
    exact iff_of_true (children_own path ran) (fun sequential => nomatch sequential)
  | false =>
    rw [path, if_neg (by decide)] at ran
    rw [inProcess_own_iff path ran]
    exact ⟨fun enough _ => enough, fun enough => enough rfl⟩

/-- A failed subtest keeps the statistics it was allocated with. -/
theorem subtest_failed {config : RunConfig} {b : Benchmark α} {e : SubtestEnv α} {sr : SubtestResult α}
    (ok : runSubtest config b e = .ok sr) (failed : sr.status = "failed") : sr.stats = .zeroed α := by
  obtain ⟨_, ret, ran, status⟩ := runSubtest_result ok
  have nonzero : ret ≠ 0 := by
    rintro rfl
    rw [status] at failed
    exact absurd failed (by decide)
  split at ran
  · unfold runChildren at ran
    dsimp only at ran
    split at ran
    · cases ran
    · obtain ⟨_, rfl, stats⟩ := copied_ok ran
      rw [stats]
      exact parallel_failed nonzero
  · unfold runInProcess at ran
    split at ran
    · cases ran
    · rename_i run single
      obtain ⟨_, rfl, stats⟩ := copied_ok ran
      obtain ⟨_, ⟨_, _, _, same⟩ | ⟨_, _, _, _, zero, _⟩⟩ := single_cases single
      · rw [stats, same]
      · exact absurd zero nonzero

/-- The loop appends the record of each selected benchmark, in registration order. -/
theorem runLoop_spec {config : RunConfig} {env : Nat → SubtestEnv α} {registry : List (Benchmark α)} {i : Nat}
    {subtests out : List (SubtestResult α)} (ok : runLoop config env i registry subtests = .ok out) :
    ∃ new, out = subtests ++ new ∧ List.Forall₂ (fun p sr => runSubtest config p.1 (env p.2) = .ok sr)
      ((registry.zipIdx i).filter (fun p => config.selects p.1)) new := by
  induction registry generalizing i subtests with
  | nil =>
    cases ok
    exact ⟨[], by simp, .nil⟩
  | cons b rest ih =>
    rw [List.zipIdx_cons]
    unfold runLoop at ok
    split at ok
    · rename_i selects
      split at ok
      · cases ok
      · rename_i sr ran
        obtain ⟨new, rfl, related⟩ := ih ok
        rw [List.filter_cons_of_pos (by exact selects)]
        exact ⟨sr :: new, by simp, .cons ran related⟩
    · rename_i skips
      obtain ⟨new, rfl, related⟩ := ih ok
      rw [List.filter_cons_of_neg (by simpa using skips)]
      exact ⟨new, rfl, related⟩

/-- A subtest in the result, with the run it comes from. -/
def SubtestOf (config : RunConfig) (env : Nat → SubtestEnv α) (p : Benchmark α × Nat) (sr : SubtestResult α) : Prop :=
  ∃ measured, runSubtest config p.1 (env p.2) = .ok measured ∧ sr = assignScore config measured

theorem harnessRun_spec {config : RunConfig} {registry : List (Benchmark α)} {env : RunEnv α} {r : RunResult α}
    (ok : harnessRun config registry env = .ok r) :
    r.config = config ∧ List.Forall₂ (SubtestOf config env.subtest) (selected config registry) r.subtests := by
  unfold harnessRun at ok
  split_ifs at ok
  split at ok
  · cases ok
  · rename_i subtests loop
    cases ok
    obtain ⟨new, rfl, related⟩ := runLoop_spec loop
    refine ⟨rfl, List.forall₂_map_right_iff.mpr ?_⟩
    exact related.imp (fun p measured ran => ⟨measured, ran, rfl⟩)

omit [Libm α] in
theorem assignScore_keeps (config : RunConfig) (sr : SubtestResult α) :
    (assignScore config sr).bench = sr.bench ∧ (assignScore config sr).stats = sr.stats ∧
      (assignScore config sr).status = sr.status := by
  unfold assignScore
  split_ifs <;> exact ⟨rfl, rfl, rfl⟩

theorem selected_runs {config : RunConfig} {registry : List (Benchmark α)} {env : RunEnv α} {r : RunResult α}
    (ok : harnessRun config registry env = .ok r) {b : Benchmark α} (member : b ∈ registry)
    (selects : config.selects b = true) : ∃ sr ∈ r.subtests, sr.bench = b := by
  have numbers : registry.zipIdx.map Prod.fst = registry := List.zipIdx_map_fst 0 registry
  rw [← numbers] at member
  obtain ⟨p, numbered, rfl⟩ := List.mem_map.mp member
  have chosen : p ∈ selected config registry := List.mem_filter.mpr ⟨numbered, selects⟩
  obtain ⟨_, within, measured, ran, rfl⟩ := Related.mem_left (harnessRun_spec ok).2 chosen
  exact ⟨_, within, (assignScore_keeps config measured).1.trans (runSubtest_result ran).1⟩

theorem harnessRun_of_loop {config : RunConfig} {registry : List (Benchmark α)} {env : RunEnv α}
    {subtests : List (SubtestResult α)} (result : env.callocResult = false) (array : env.callocSubtests = false)
    (loop : runLoop config env.subtest 0 registry [] = .ok subtests) :
    harnessRun config registry env = .ok ⟨config, subtests.map (assignScore config)⟩ := by
  simp [harnessRun, result, array, loop]

/-- Every completed subtest carries the statistics of its own samples exactly if every
in-process run that succeeds ends with enough measured samples. -/
theorem completed_own_iff {config : RunConfig} {registry : List (Benchmark α)} {env : RunEnv α} {r : RunResult α}
    (ok : harnessRun config registry env = .ok r) :
    List.Forall₂ (fun p sr => sr.status = "completed" →
        OwnStats (collectedSamples config p.1 (env.subtest p.2)) sr.stats) (selected config registry) r.subtests ↔
      ∀ p ∈ selected config registry, config.parallel p.1 = false →
        EnoughMeasured config p.1 (env.subtest p.2).single := by
  apply Related.decided_left (harnessRun_spec ok).2
  rintro p sr ⟨measured, ran, rfl⟩
  obtain ⟨_, stats, status⟩ := assignScore_keeps config measured
  rw [stats, status]
  exact subtest_own_iff ran

noncomputable def slowEnv : RunEnv ℝ :=
  ⟨false, false, fun _ => ⟨slowBehaviour 200 1, fun _ => 0, noFaults, fun _ => .diesBefore, fun _ => 0⟩⟩

theorem slow_runSubtest (i : Nat) : runSubtest mainConfig (plainBenchmark ℝ) (slowEnv.subtest i) =
    .ok ⟨plainBenchmark ℝ, .zeroed ℝ, 0, "completed"⟩ := by
  have sequential : mainConfig.parallel (plainBenchmark ℝ) = false := by decide
  have single : harnessRunSingle (plainBenchmark ℝ) (slowBehaviour 200 1) (.zeroed ℝ) (some mainConfig) (fun _ => 0)
      (fun _ => 0) = .ok ⟨runBenchmarkInstance (plainBenchmark ℝ) (slowBehaviour 200 1), some [1], 0, .zeroed ℝ⟩ := by
    rw [harnessRunSingle, slow_run]
    rfl
  simp [runSubtest, sequential, runInProcess, slowEnv, single, copied]

theorem slow_harnessRun : harnessRun mainConfig [plainBenchmark ℝ] slowEnv =
    .ok ⟨mainConfig, [assignScore mainConfig ⟨plainBenchmark ℝ, .zeroed ℝ, 0, "completed"⟩]⟩ := by
  have selects : mainConfig.selects (plainBenchmark ℝ) = true := by decide
  have loop : runLoop mainConfig slowEnv.subtest 0 [plainBenchmark ℝ] [] =
      .ok [⟨plainBenchmark ℝ, .zeroed ℝ, 0, "completed"⟩] := by
    simp [runLoop, selects, slow_runSubtest]
  exact harnessRun_of_loop rfl rfl loop

theorem slow_completed_own_iff :
    List.Forall₂ (fun p sr => sr.status = "completed" →
        OwnStats (collectedSamples mainConfig p.1 (slowEnv.subtest p.2)) sr.stats)
        (selected mainConfig [plainBenchmark ℝ])
        [assignScore mainConfig ⟨plainBenchmark ℝ, .zeroed ℝ, 0, "completed"⟩] ↔
      ∀ p ∈ selected mainConfig [plainBenchmark ℝ], mainConfig.parallel p.1 = false →
        EnoughMeasured mainConfig p.1 (slowEnv.subtest p.2).single :=
  completed_own_iff slow_harnessRun

/- The runtime guard fires after the first measurement: the subtest is completed, and its
statistics are zeros without a label. -/
theorem slow_run_without_stats :
    ∃ r, harnessRun mainConfig [plainBenchmark ℝ] slowEnv = .ok r ∧
      ¬ List.Forall₂ (fun p sr => sr.status = "completed" →
        OwnStats (collectedSamples mainConfig p.1 (slowEnv.subtest p.2)) sr.stats)
        (selected mainConfig [plainBenchmark ℝ]) r.subtests := by
  refine ⟨_, slow_harnessRun, fun all => ?_⟩
  have one : selected mainConfig [plainBenchmark ℝ] = [(plainBenchmark ℝ, 0)] := rfl
  rw [one, List.forall₂_cons] at all
  obtain ⟨_, stats, status⟩ := assignScore_keeps mainConfig ⟨plainBenchmark ℝ, .zeroed ℝ, 0, "completed"⟩
  obtain ⟨label, _, named⟩ := (all.1 status).reliability
  rw [stats] at named
  cases named

end ServMark
