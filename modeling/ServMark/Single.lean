import ServMark.Lifecycle

/-! The in-process runner: one instance, then the clamps of the configured iteration
counts, then the statistics over the first iter cells of the array values. -/
namespace ServMark

def clampIterations (o : RunConfig) (iter : Int) : Int :=
  let iter := if o.maxIterations > 0 ∧ iter > o.maxIterations then o.maxIterations else iter
  if o.minIterations > 0 ∧ iter < o.minIterations then o.minIterations else iter

theorem clamp_le_iff (o : RunConfig) {n : Int} (positive : 1 ≤ n) :
    clampIterations o n ≤ n ↔ o.minIterations ≤ n := by
  unfold clampIterations
  dsimp only
  split <;> split <;> omega

structure SingleRun (α : Type) where
  instanceRun : InstanceRun α
  handed : Option (List α)
  ret : Int
  stats : BenchmarkStats α

section Cells
variable {α : Type}

/- The first iter cells read from values: the stored samples, and behind them what the
stack held before (for cells past the array, whatever memory follows it). -/
def handedSamples (stored : List α) (stack : Nat → α) (iter : Int) : List α :=
  (List.range iter.toNat).map (fun k => stored.getD k (stack k))

theorem handed_length (stored : List α) (stack : Nat → α) (iter : Int) :
    (handedSamples stored stack iter).length = iter.toNat := by
  simp [handedSamples]

theorem handed_eq_take {stored : List α} (stack : Nat → α) {iter : Int} (within : iter ≤ stored.length) :
    handedSamples stored stack iter = stored.take iter.toNat := by
  apply List.ext_getElem
  · simp [handedSamples]; omega
  · intro k h₁ h₂
    have lt : k < stored.length := by simp at h₂; omega
    simp [handedSamples, List.getD, lt]

end Cells

variable {α : Type} [Field α] [LinearOrder α] [Libm α]

/-- harness_run_single; the field handed is the list that reaches stats_compute. -/
def harnessRunSingle (b : Benchmark α) (e : Behaviour α) (stats : BenchmarkStats α)
    (overrides : Option RunConfig) (stack : Nat → α) (rand : Nat → Nat) : Except Fault (SingleRun α) :=
  let run := runBenchmarkInstance b e
  if run.values.length > ssbMaxIterations then .error .overflow
  else if run.ret ≠ 0 then .ok ⟨run, none, run.ret, stats⟩
  else
    let iter : Int := run.iterOut.getD 0
    let iter := match overrides with
      | none => iter
      | some o => clampIterations o iter
    let handed := handedSamples run.values stack iter
    .ok ⟨run, some handed, 0, (statsCompute rand handed stats).2⟩

/-- The inputs on which the timed loop stores more samples than the caller's array holds. -/
def Overruns (b : Benchmark α) (e : Behaviour α) : Prop :=
  CallbacksOk b e (2 + (ssbMaxIterations + 1)) ∧
    ∀ n, 1 ≤ n → n ≤ ssbMaxIterations → ¬ StopsAt b e n

theorem overflow_iff_overruns (b : Benchmark α) (e : Behaviour α) :
    (runBenchmarkInstance b e).values.length > ssbMaxIterations ↔ Overruns b e := by
  have outcome := run_outcome b e
  generalize runBenchmarkInstance b e = r at outcome
  cases outcome with
  | initFailed code => exact ⟨fun h => by simp at h, fun h => absurd h.1.init code⟩
  | warmupFailed init has code => exact ⟨fun h => by simp at h, fun h => absurd (h.1.warmup has) code⟩
  | measureFailed k before code running =>
    simp only [timedMetrics_length]
    constructor
    · intro long
      exact ⟨before.mono (by omega), fun n positive le => running n positive (by omega)⟩
    · intro overrun
      by_contra short
      exact code (overrun.1.measure k (by omega))
  | stopped n before first =>
    simp only [timedMetrics_length]
    constructor
    · intro long
      refine ⟨before.mono (by omega), fun m positive le stops => ?_⟩
      have least := first.2 ⟨positive, stops⟩
      omega
    · intro overrun
      by_contra short
      exact overrun.2 n first.1.1 (by omega) first.1.2

/-- Everything a run within its array can do: fail and leave the record alone, or hand over
the cells that the clamps leave of n samples. -/
theorem single_cases {b : Benchmark α} {e : Behaviour α} {stats : BenchmarkStats α} {o : RunConfig}
    {stack : Nat → α} {rand : Nat → Nat} {s : SingleRun α}
    (ok : harnessRunSingle b e stats (some o) stack rand = .ok s) :
    s.instanceRun = runBenchmarkInstance b e ∧
      (s.instanceRun.ret ≠ 0 ∧ s.handed = none ∧ s.ret ≠ 0 ∧ s.stats = stats ∨
        ∃ n, FirstStop b e n ∧ CallbacksOk b e (2 + n) ∧
          s.handed = some (handedSamples (timedMetrics e n) stack (clampIterations o n)) ∧ s.ret = 0 ∧
          s.stats = (statsCompute rand (handedSamples (timedMetrics e n) stack (clampIterations o n)) stats).2) := by
  unfold harnessRunSingle at ok
  dsimp only at ok
  split_ifs at ok with long failed
  · cases ok
    exact ⟨rfl, Or.inl ⟨failed, rfl, failed, rfl⟩⟩
  · obtain ⟨n, first, callbacks⟩ := run_success (not_ne_iff.mp failed)
    rw [run_stopped first callbacks] at ok ⊢
    cases ok
    exact ⟨rfl, Or.inr ⟨n, first, callbacks, rfl, rfl, rfl⟩⟩

/-- What the samples of a run have to be: measured values of that run, from the first on,
no more of them than the array holds. A run that stores outside its array fails it. -/
def SamplesMeasured (e : Behaviour α) : Except Fault (SingleRun α) → Prop
  | .error _ => False
  | .ok s => ∀ handed, s.handed = some handed →
      handed <+: timedMetrics e (s.instanceRun.names.count .measure - 2) ∧
        handed.length ≤ ssbMaxIterations

/-- Of the runs that succeed, one property of the count of samples says it of all. -/
theorem at_first_stop {b : Benchmark α} {e : Behaviour α} {n : Nat} (first : FirstStop b e n)
    (callbacks : CallbacksOk b e (2 + n)) (p : Nat → Prop) :
    (∀ m, FirstStop b e m → CallbacksOk b e (2 + m) → p m) ↔ p n := by
  constructor
  · exact fun all => all n first callbacks
  · intro holds m first' _
    rwa [firstStop_unique first' first]

theorem failed_unstopped {b : Benchmark α} {e : Behaviour α} (failed : (runBenchmarkInstance b e).ret ≠ 0) {n : Nat}
    (first : FirstStop b e n) : ¬ CallbacksOk b e (2 + n) := by
  intro callbacks
  rw [run_stopped first callbacks] at failed
  exact failed rfl

theorem single_error {b : Benchmark α} {e : Behaviour α} {stats : BenchmarkStats α} {o : Option RunConfig}
    {stack : Nat → α} {rand : Nat → Nat} :
    (∃ fault, harnessRunSingle b e stats o stack rand = .error fault) ↔ Overruns b e := by
  rw [← overflow_iff_overruns]
  unfold harnessRunSingle
  dsimp only
  split_ifs with long failed
  · exact iff_of_true ⟨_, rfl⟩ long
  · exact iff_of_false (fun ⟨_, eq⟩ => nomatch eq) long
  · exact iff_of_false (fun ⟨_, eq⟩ => nomatch eq) long

/-- The samples are measured values exactly if the loop stays within the array and the
configured minimum asks for no more samples than the loop has taken. -/
theorem single_samples_measured_iff (b : Benchmark α) (e : Behaviour α) (stats : BenchmarkStats α)
    (o : RunConfig) (stack : Nat → α) (rand : Nat → Nat) :
    SamplesMeasured e (harnessRunSingle b e stats (some o) stack rand) ↔
      ¬ Overruns b e ∧ ∀ n, FirstStop b e n → CallbacksOk b e (2 + n) → o.minIterations ≤ n := by
  cases single : harnessRunSingle b e stats (some o) stack rand with
  | error fault => exact iff_of_false id (fun within => within.1 (single_error.mp ⟨fault, single⟩))
  | ok s =>
    have inside : ¬ Overruns b e := by
      intro overruns
      obtain ⟨fault, eq⟩ := single_error.mpr overruns
      rw [single] at eq
      cases eq
    rw [and_iff_right inside]
    obtain ⟨same, ⟨failed, none, _⟩ | ⟨n, first, callbacks, handed, _⟩⟩ := single_cases single
    · rw [same] at failed
      refine iff_of_true (fun samples eq => ?_)
        (fun n first callbacks => absurd callbacks (failed_unstopped failed first))
      rw [none] at eq
      cases eq
    · have positive : (1 : Int) ≤ n := by exact_mod_cast first.1.1
      have measured : s.instanceRun.names.count .measure - 2 = n := by
        rw [same, run_stopped first callbacks, InstanceRun.names, stopped_measures, Nat.add_sub_cancel_left]
      have fits : n ≤ ssbMaxIterations := by
        rw [← overflow_iff_overruns, run_stopped first callbacks, timedMetrics_length] at inside
        omega
      rw [at_first_stop first callbacks (fun m => o.minIterations ≤ m), ← clamp_le_iff o positive]
      simp only [SamplesMeasured, handed, Option.some.injEq, forall_eq', measured]
      constructor
      · rintro ⟨initial, _⟩
        have le := initial.length_le
        rw [handed_length, timedMetrics_length] at le
        omega
      · intro within
        rw [handed_eq_take stack (by rwa [timedMetrics_length])]
        refine ⟨List.take_prefix _ _, ?_⟩
        rw [List.length_take, timedMetrics_length]
        omega

/- A first measurement of 200 s trips the runtime guard. The shipped min_iterations = 5
then makes the statistics read four cells that no measurement stored. -/
theorem slow_run_reads_unmeasured :
    ¬ SamplesMeasured (slowBehaviour 200 1) (harnessRunSingle (plainBenchmark ℝ) (slowBehaviour 200 1)
      (BenchmarkStats.zeroed ℝ) (some { mainConfig with minIterations := 5 }) (fun _ => 0) (fun _ => 0)) := by
  rw [harnessRunSingle, slow_run]
  intro measured
  have le := (measured _ rfl).1.length_le
  rw [handed_length, timedMetrics_length, InstanceRun.names, stopped_measures] at le
  revert le
  decide

end ServMark
