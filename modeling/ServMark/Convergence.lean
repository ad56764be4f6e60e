import ServMark.Lifecycle

/-! Where the timed loop stops, by a rule on the measurements and the two clocks, and whether the
flag converged of the statistics agrees with it. -/
namespace ServMark
open Sample

theorem semRel_eq (xs : List ℝ) : semRel xs = relativeError xs := by
  unfold semRel relativeError statsSem
  simp only [meanStddev_eq, ite_not]
  rfl

noncomputable def Timespec.seconds (t : Timespec) : ℝ := t.tvSec + t.tvNsec / (1000000000 : Nat)

theorem elapsed_eq (start now : Timespec) : (elapsed start now : ℝ) = now.seconds - start.seconds := by
  unfold elapsed Timespec.seconds
  push_cast
  ring

/-- What ends the loop after n measurements, each clock read behind the n-th. -/
inductive StopRule (b : Benchmark ℝ) (e : Behaviour ℝ) (n : Nat) : Prop
  | limit (top : n = b.maxIter)
  | converged (enough : b.minIter ≤ n) (close : relativeError (timedMetrics e n) ≤ b.target)
      (long : b.minRuntime ≤ (e.wall n).seconds - (e.wall 0).seconds)
  | wall (late : b.maxRuntime ≤ (e.wall n).seconds - (e.wall 0).seconds)
  | cpu (late : 2 * b.maxRuntime < (e.cpu n).seconds - (e.cpu 0).seconds)

theorem orDefault_pos {configured fallback : Int} (positive : 0 < fallback) : 0 < orDefault configured fallback := by
  unfold orDefault
  split <;> assumption

/- The product max_runtime * 2 as an int. -/

theorem double_le (b : Benchmark ℝ) : intMul b.maxRuntime 2 ≤ 2 * b.maxRuntime := by
  have positive : 0 < b.maxRuntime := orDefault_pos (by decide : 0 < ssbMaxRuntimeSec)
  have parts := Int.bmod_add_bdiv (b.maxRuntime * 2) (2 ^ 32)
  have low := Int.le_bmod (x := b.maxRuntime * 2) (m := 2 ^ 32) (by decide)
  have high := Int.bmod_lt (x := b.maxRuntime * 2) (m := 2 ^ 32) (by decide)
  unfold intMul
  omega

theorem double_eq_iff (b : Benchmark ℝ) : intMul b.maxRuntime 2 = 2 * b.maxRuntime ↔ 2 * b.maxRuntime ≤ intMax := by
  have positive : 0 < b.maxRuntime := orDefault_pos (by decide : 0 < ssbMaxRuntimeSec)
  have parts := Int.bmod_add_bdiv (b.maxRuntime * 2) (2 ^ 32)
  have low := Int.le_bmod (x := b.maxRuntime * 2) (m := 2 ^ 32) (by decide)
  have high := Int.bmod_lt (x := b.maxRuntime * 2) (m := 2 ^ 32) (by decide)
  have largest : intMax = 2147483647 := rfl
  unfold intMul
  omega

theorem leavesLoop_iff (b : Benchmark ℝ) (e : Behaviour ℝ) (n : Nat) :
    leavesLoop b e (timedMetrics e n) = true ↔
      (b.minIter ≤ n ∧ relativeError (timedMetrics e n) ≤ b.target ∧
        b.minRuntime ≤ (e.wall n).seconds - (e.wall 0).seconds) ∨
      b.maxRuntime ≤ (e.wall n).seconds - (e.wall 0).seconds ∨
      intMul b.maxRuntime 2 < (e.cpu n).seconds - (e.cpu 0).seconds := by
  simp only [leavesLoop, timedMetrics_length, semRel_eq, elapsed_eq, Bool.or_eq_true, decide_eq_true_eq, or_assoc]

/-- The loop is left where the rule says, and where the CPU time exceeds the product as an int. -/
theorem stopsAt_iff (b : Benchmark ℝ) (e : Behaviour ℝ) (n : Nat) : StopsAt b e n ↔
    StopRule b e n ∨ intMul b.maxRuntime 2 < (e.cpu n).seconds - (e.cpu 0).seconds := by
  simp only [StopsAt, leavesLoop_iff]
  constructor
  · rintro (top | ⟨enough, close, long⟩ | late | late)
    · exact Or.inl (.limit top)
    · exact Or.inl (.converged enough close long)
    · exact Or.inl (.wall late)
    · exact Or.inr late
  · rintro ((top | ⟨enough, close, long⟩ | late | late) | late)
    · exact Or.inl top
    · exact Or.inr (Or.inl ⟨enough, close, long⟩)
    · exact Or.inr (Or.inr (Or.inl late))
    · have product : (intMul b.maxRuntime 2 : ℝ) ≤ 2 * b.maxRuntime := by exact_mod_cast double_le b
      exact Or.inr (Or.inr (Or.inr (product.trans_lt late)))
    · exact Or.inr (Or.inr (Or.inr late))

theorem run_stops {b : Benchmark ℝ} {e : Behaviour ℝ} (ok : ∀ k, CallbacksOk b e k) :
    ∃ n, FirstStop b e n ∧ runBenchmarkInstance b e =
      ⟨front b (2 + n) ++ [(.cleanup, e.cleanup)], 0, some n, timedMetrics e n⟩ := by
  classical
  have some_ : ∃ n, FirstStop b e n := by
    have least : ∃ m, 1 ≤ m ∧ StopsAt b e m := ⟨b.maxIter, maxIter_pos b, Or.inl rfl⟩
    exact ⟨Nat.find least, Nat.find_spec least, fun m stops => Nat.find_min' least stops⟩
  obtain ⟨n, first⟩ := some_
  exact ⟨n, first, run_stopped first (ok (2 + n))⟩

/-- Every callback succeeds, and no clock runs back. -/
structure Measured (b : Benchmark ℝ) (e : Behaviour ℝ) : Prop where
  init : e.init = 0
  warmup : b.hasWarmup = true → e.warmup = 0
  measure : ∀ k, (e.measure k).1 = 0
  wall : Monotone (fun k => (e.wall k).seconds)
  cpu : Monotone (fun k => (e.cpu k).seconds)

/-- The loop stops at the first measurement that the rule names, with the metrics up to it. -/
def StopsFirst (b : Benchmark ℝ) (e : Behaviour ℝ) : Prop :=
  ∃ n, IsLeast {m | 1 ≤ m ∧ StopRule b e m} n ∧ n ≤ ssbMaxIterations ∧ (runBenchmarkInstance b e).ret = 0 ∧
    (runBenchmarkInstance b e).iterOut = some n ∧ (runBenchmarkInstance b e).values = timedMetrics e n

/-- As long as the rule does not fire, no CPU time exceeds the product as an int. -/
def CpuQuiet (b : Benchmark ℝ) (e : Behaviour ℝ) : Prop :=
  ∀ k, 1 ≤ k → (∀ m, 1 ≤ m → m ≤ k → ¬ StopRule b e m) →
    (e.cpu k).seconds - (e.cpu 0).seconds ≤ intMul b.maxRuntime 2

theorem firstStop_quiet_iff {b : Benchmark ℝ} {e : Behaviour ℝ} {n : Nat}
    (least : IsLeast {m | 1 ≤ m ∧ StopRule b e m} n) : FirstStop b e n ↔ CpuQuiet b e := by
  constructor
  · intro first k positive before
    have early : k < n := by
      by_contra reached
      exact before n least.1.1 (by omega) least.1.2
    by_contra late
    exact absurd (first.2 ⟨positive, (stopsAt_iff b e k).mpr (Or.inr (not_le.mp late))⟩) (by omega)
  · intro quiet
    refine ⟨⟨least.1.1, (stopsAt_iff b e n).mpr (Or.inl least.1.2)⟩, ?_⟩
    rintro m ⟨positive, stops⟩
    by_contra early
    have before (j : Nat) (start : 1 ≤ j) (le : j ≤ m) : ¬ StopRule b e j := fun rule =>
      absurd (least.2 ⟨start, rule⟩) (by omega)
    rcases (stopsAt_iff b e m).mp stops with rule | late
    · exact before m positive le_rfl rule
    · exact absurd late (not_lt.mpr (quiet m positive before))

theorem stopsFirst_iff_quiet {b : Benchmark ℝ} {e : Behaviour ℝ} (limited : b.maxIterations ≤ ssbMaxIterations)
    (ok : Measured b e) : StopsFirst b e ↔ CpuQuiet b e := by
  classical
  obtain ⟨stop, first, run⟩ := run_stops (b := b) (fun k => ⟨ok.init, ok.warmup, fun k _ => ok.measure k⟩)
  have cells : b.maxIter ≤ ssbMaxIterations := by
    unfold Benchmark.maxIter orDefault
    split <;> omega
  constructor
  · rintro ⟨n, least, _, _, counted, _⟩
    rw [run] at counted
    obtain rfl : stop = n := Option.some.inj counted
    exact (firstStop_quiet_iff least).mp first
  · intro quiet
    have some_ : ∃ m, 1 ≤ m ∧ StopRule b e m := ⟨b.maxIter, maxIter_pos b, .limit rfl⟩
    have least : IsLeast {m | 1 ≤ m ∧ StopRule b e m} (Nat.find some_) :=
      ⟨Nat.find_spec some_, fun m rule => Nat.find_min' some_ rule⟩
    have same : stop = Nat.find some_ := firstStop_unique first ((firstStop_quiet_iff least).mpr quiet)
    rw [← same] at least
    have within : stop ≤ b.maxIter := least.2 ⟨maxIter_pos b, .limit rfl⟩
    rw [StopsFirst, run]
    exact ⟨stop, least, within.trans cells, rfl, rfl, rfl⟩

/-- Nothing but the CPU clock moves, up to twice the limit. -/
def busyBehaviour (b : Benchmark ℝ) : Behaviour ℝ :=
  { slowBehaviour 0 0 with cpu := fun k => ⟨if k = 0 then 0 else 2 * b.maxRuntime, 0⟩ }

theorem slow_measured (b : Benchmark ℝ) (seconds : Nat) (metric : ℝ) : Measured b (slowBehaviour seconds metric) := by
  refine ⟨rfl, fun _ => rfl, fun _ => rfl, fun j k le => ?_, fun _ _ _ => le_rfl⟩
  have more : (seconds : ℝ) * j ≤ seconds * k := by exact_mod_cast Nat.mul_le_mul_left seconds le
  simpa [slowBehaviour, Timespec.seconds] using more

theorem busy_measured (b : Benchmark ℝ) : Measured b (busyBehaviour b) := by
  have positive : 0 < b.maxRuntime := orDefault_pos (by decide : 0 < ssbMaxRuntimeSec)
  refine ⟨rfl, fun _ => rfl, fun _ => rfl, (slow_measured b 0 0).wall, fun j k le => ?_⟩
  have grows : (if j = 0 then 0 else 2 * b.maxRuntime) ≤ if k = 0 then 0 else 2 * b.maxRuntime := by
    split_ifs <;> omega
  have real : ((if j = 0 then 0 else 2 * b.maxRuntime : Int) : ℝ) ≤ (if k = 0 then 0 else 2 * b.maxRuntime : Int) := by
    exact_mod_cast grows
  simpa [busyBehaviour, Timespec.seconds] using real

theorem busy_early {b : Benchmark ℝ} (several : b.maxIter ≠ 1) : ¬ StopRule b (busyBehaviour b) 1 := by
  have least : 0 < b.minRuntime := orDefault_pos (by decide : 0 < ssbMinRuntimeSec)
  have most : 0 < b.maxRuntime := orDefault_pos (by decide : 0 < ssbMaxRuntimeSec)
  have stands : ((busyBehaviour b).wall 1).seconds - ((busyBehaviour b).wall 0).seconds = 0 := by
    simp [busyBehaviour, slowBehaviour, Timespec.seconds]
  have busy : ((busyBehaviour b).cpu 1).seconds - ((busyBehaviour b).cpu 0).seconds = 2 * b.maxRuntime := by
    simp [busyBehaviour, Timespec.seconds]
  rintro (top | ⟨_, _, long⟩ | late | late)
  · exact several top.symm
  · rw [stands] at long
    exact absurd least (not_lt.mpr (by exact_mod_cast long))
  · rw [stands] at late
    exact absurd most (not_lt.mpr (by exact_mod_cast late))
  · exact absurd late (by rw [busy]; exact lt_irrefl _)

theorem stopsFirst_all_iff {b : Benchmark ℝ} (limited : b.maxIterations ≤ ssbMaxIterations) :
    (∀ e, Measured b e → StopsFirst b e) ↔ 2 * b.maxRuntime ≤ intMax ∨ b.maxIter = 1 := by
  constructor
  · intro all
    by_contra other
    push Not at other
    obtain ⟨large, several⟩ := other
    have quiet := (stopsFirst_iff_quiet limited (busy_measured b)).mp (all _ (busy_measured b))
    have late := quiet 1 le_rfl (fun m start le => by
      obtain rfl : m = 1 := by omega
      exact busy_early several)
    have busy : ((busyBehaviour b).cpu 1).seconds - ((busyBehaviour b).cpu 0).seconds = (2 * b.maxRuntime : Int) := by
      simp [busyBehaviour, Timespec.seconds]
    rw [busy] at late
    have whole : 2 * b.maxRuntime ≤ intMul b.maxRuntime 2 := by exact_mod_cast late
    exact absurd ((double_eq_iff b).mp (le_antisymm (double_le b) whole)) (not_le.mpr large)
  · intro condition e ok
    refine (stopsFirst_iff_quiet limited ok).mpr (fun k positive before => ?_)
    rcases condition with fits | single
    · by_contra late
      rw [(double_eq_iff b).mpr fits] at late
      exact before k positive le_rfl (.cpu (by exact_mod_cast not_le.mp late))
    · exact absurd (.limit single.symm) (before 1 le_rfl positive)

/-- A run stops where the rule says exactly if no CPU time before exceeds the product as an int; every
run of a benchmark does exactly if the product fits an int, or the loop has one turn. -/
theorem loop_stops_first_iff (b : Benchmark ℝ) (limited : b.maxIterations ≤ ssbMaxIterations) :
    (∀ e, Measured b e → (StopsFirst b e ↔ CpuQuiet b e)) ∧
      ((∀ e, Measured b e → StopsFirst b e) ↔ 2 * b.maxRuntime ≤ intMax ∨ b.maxIter = 1) :=
  ⟨fun _ ok => stopsFirst_iff_quiet limited ok, stopsFirst_all_iff limited⟩

theorem plain_loop_stops_first_iff :
    (∀ e, Measured (plainBenchmark ℝ) e → (StopsFirst (plainBenchmark ℝ) e ↔ CpuQuiet (plainBenchmark ℝ) e)) ∧
      ((∀ e, Measured (plainBenchmark ℝ) e → StopsFirst (plainBenchmark ℝ) e) ↔
        2 * (plainBenchmark ℝ).maxRuntime ≤ intMax ∨ (plainBenchmark ℝ).maxIter = 1) :=
  loop_stops_first_iff _ (by decide)

/-- The plain benchmark with a maximum runtime that doubles to 2^31. -/
def longBenchmark : Benchmark ℝ := { plainBenchmark ℝ with maxRuntimeSec := 2 ^ 30 }

theorem long_stops_early :
    Measured longBenchmark (slowBehaviour 60 1) ∧ ¬ StopsFirst longBenchmark (slowBehaviour 60 1) := by
  have ok := slow_measured longBenchmark 60 1
  have most : longBenchmark.maxRuntime = 1073741824 := by decide
  have least : longBenchmark.minIter = 5 := by decide
  have limit : longBenchmark.maxIter = 31 := by decide
  have double : intMul 1073741824 2 = -2147483648 := by decide
  have early : ¬ StopRule longBenchmark (slowBehaviour 60 1) 1 := by
    rintro (top | ⟨enough, _, _⟩ | late | late)
    · omega
    · omega
    · norm_num [most, slowBehaviour, Timespec.seconds] at late
    · norm_num [most, slowBehaviour, Timespec.seconds] at late
  refine ⟨ok, fun stops => ?_⟩
  have quiet := (stopsFirst_iff_quiet (by decide) ok).mp stops 1 le_rfl (fun m start le => by
    obtain rfl : m = 1 := by omega
    exact early)
  norm_num [most, double, slowBehaviour, Timespec.seconds] at quiet

/- The flag and the loop. -/

/-- The loop stops after n measurements, and does so by the convergence test. -/
def StoppedConverged (b : Benchmark ℝ) (e : Behaviour ℝ) (n : Nat) : Prop :=
  FirstStop b e n ∧ b.minIter ≤ n ∧ semRel (timedMetrics e n) ≤ b.target ∧
    b.minRuntime ≤ (elapsed (e.wall 0) (e.wall n) : ℝ)

/-- The loop stops after n measurements because of the iteration limit alone, above the target. -/
def StoppedLimited (b : Benchmark ℝ) (e : Behaviour ℝ) (n : Nat) : Prop :=
  FirstStop b e n ∧ leavesLoop b e (timedMetrics e n) = false ∧ b.target < semRel (timedMetrics e n)

/-- Whatever is measured, stats_compute sets converged as the loop stopped. -/
def FlagAgrees (b : Benchmark ℝ) : Prop :=
  ∀ e n rand out, 2 ≤ n → (∀ k, CallbacksOk b e k) → (runBenchmarkInstance b e).iterOut = some n →
    (StoppedConverged b e n → (statsCompute rand (runBenchmarkInstance b e).values out).2.converged = true) ∧
    (StoppedLimited b e n → (statsCompute rand (runBenchmarkInstance b e).values out).2.converged = false)

theorem compute_converged (rand : Nat → Nat) {values : List ℝ} (enough : 2 ≤ values.length) (out : BenchmarkStats ℝ) :
    (statsCompute rand values out).2.converged = decide (semRel values ≤ statsSemBound) := by
  have some_ : ¬ values.length < 2 := by omega
  simp only [statsCompute, if_neg some_]

theorem flagAgrees_iff_runs (b : Benchmark ℝ) : FlagAgrees b ↔
    ∀ e n, 2 ≤ n → (∀ k, CallbacksOk b e k) →
      (StoppedConverged b e n → semRel (timedMetrics e n) ≤ 2 / 100) ∧
      (StoppedLimited b e n → 2 / 100 < semRel (timedMetrics e n)) := by
  have flag (e : Behaviour ℝ) (n : Nat) (rand : Nat → Nat) (out : BenchmarkStats ℝ) (enough : 2 ≤ n) :
      (statsCompute rand (timedMetrics e n) out).2.converged = decide (semRel (timedMetrics e n) ≤ 2 / 100) :=
    compute_converged rand (by rwa [timedMetrics_length]) out
  constructor
  · intro agrees e n enough ok
    obtain ⟨m, first, run⟩ := run_stops ok
    have same (own : FirstStop b e n) : m = n := firstStop_unique first own
    have both := agrees e n (fun _ => 0) (.zeroed ℝ) enough ok
    simp only [run] at both
    constructor
    · intro stopped
      obtain rfl := same stopped.1
      simpa only [flag e m _ _ enough, decide_eq_true_eq] using (both rfl).1 stopped
    · intro stopped
      obtain rfl := same stopped.1
      simpa only [flag e m _ _ enough, decide_eq_false_iff_not, not_le] using (both rfl).2 stopped
  · intro agrees e n rand out enough ok ran
    obtain ⟨m, _, run⟩ := run_stops ok
    simp only [run] at ran ⊢
    obtain rfl : m = n := Option.some.inj ran
    obtain ⟨converged, limited⟩ := agrees e m enough ok
    simp only [flag e m rand out enough, decide_eq_true_eq, decide_eq_false_iff_not, not_le]
    exact ⟨converged, limited⟩

theorem firstStop_le {b : Benchmark ℝ} {e : Behaviour ℝ} {n : Nat} (first : FirstStop b e n) : n ≤ b.maxIter :=
  first.2 ⟨maxIter_pos b, Or.inl rfl⟩

/-- Measurements around one, a wall clock that jumps once and a CPU clock that is set back. -/
noncomputable def spreadBehaviour (d : ℝ) (jump : Nat) (seconds : Int) : Behaviour ℝ where
  init := 0
  warmup := 0
  measure := fun k => (0, spread d (k - 2))
  cleanup := 0
  wall := fun k => ⟨if k < jump then 0 else seconds, 0⟩
  cpu := fun k => ⟨if k = 0 then 2147483648 else 0, 0⟩

section Spread
variable (b : Benchmark ℝ) (d : ℝ) {jump : Nat} (late : 0 < jump) (seconds : Int)

theorem spread_callbacks (k : Nat) : CallbacksOk b (spreadBehaviour d jump seconds) k :=
  ⟨rfl, fun _ => rfl, fun _ _ => rfl⟩

theorem spread_metrics (n : Nat) :
    timedMetrics (spreadBehaviour d jump seconds) n = (List.range n).map (spread d) := by
  unfold timedMetrics spreadBehaviour
  simp only [Nat.add_sub_cancel_left]

include late in
theorem spread_elapsed (m : Nat) : (elapsed ((spreadBehaviour d jump seconds).wall 0)
    ((spreadBehaviour d jump seconds).wall m) : ℝ) = if m < jump then 0 else (seconds : ℝ) := by
  simp only [elapsed, spreadBehaviour, if_pos late]
  split <;> simp

include late in
/-- Before the jump no rule but the limit stops the loop. -/
theorem spread_quiet {m : Nat} (positive : 1 ≤ m) (before : m < jump) : leavesLoop b (spreadBehaviour d jump seconds)
    (timedMetrics (spreadBehaviour d jump seconds) m) = false := by
  have least : (0 : ℝ) < b.minRuntime := by exact_mod_cast orDefault_pos (by decide : 0 < ssbMinRuntimeSec)
  have most : (0 : ℝ) < b.maxRuntime := by exact_mod_cast orDefault_pos (by decide : 0 < ssbMaxRuntimeSec)
  have cpu : (elapsed ((spreadBehaviour d jump seconds).cpu 0) ((spreadBehaviour d jump seconds).cpu m) : ℝ) =
      ((-2147483648 : Int) : ℝ) := by
    simp only [elapsed, spreadBehaviour, if_neg (Nat.one_le_iff_ne_zero.mp positive)]
    norm_num
  have double : ((-2147483648 : Int) : ℝ) ≤ (intMul b.maxRuntime 2 : ℝ) := by
    exact_mod_cast Int.le_bmod (x := b.maxRuntime * 2) (m := 2 ^ 32) (by decide)
  simp only [leavesLoop, timedMetrics_length, spread_elapsed d late seconds m, cpu, if_pos before, least.not_ge,
    most.not_ge, double.not_gt, and_false, decide_false, Bool.or_self]

end Spread

/-- A target above the literal is reached where the flag stays down. -/
theorem loose_disagrees {b : Benchmark ℝ} (loose : 2 / 100 < b.target) (several : 2 ≤ b.maxIter)
    (tested : b.minIter ≤ b.maxIter) : ¬ FlagAgrees b := by
  let n := max 2 b.minIter.toNat
  have two : 2 ≤ n := le_max_left _ _
  have enough : b.minIter ≤ n := by omega
  have within : n ≤ b.maxIter := by omega
  have late : 0 < n := by omega
  obtain ⟨d, attained⟩ := relativeError_attained (le_trans (by norm_num) loose.le) two
  let e := spreadBehaviour d n b.minRuntime
  have reached : semRel (timedMetrics e n) = b.target := by
    rw [spread_metrics, semRel_eq, attained]
  have long : b.minRuntime ≤ (elapsed (e.wall 0) (e.wall n) : ℝ) := by
    rw [spread_elapsed d late, if_neg (lt_irrefl n)]
  have leaves : leavesLoop b e (timedMetrics e n) = true := by
    simp only [leavesLoop, timedMetrics_length, enough, reached, long, le_refl, and_self, decide_true, Bool.true_or]
  have first : FirstStop b e n := firstStop_of_quiet (by omega) within (Or.inr leaves)
    (fun m positive before => spread_quiet b d late b.minRuntime positive before)
  intro agrees
  have close := ((flagAgrees_iff_runs b).mp agrees e n two (spread_callbacks b d b.minRuntime)).1
    ⟨first, enough, reached.le, long⟩
  exact absurd close (by rw [reached]; exact not_le.mpr loose)

/-- A target below the literal is missed where the flag goes up. -/
theorem strict_disagrees {b : Benchmark ℝ} (strict : b.target < 2 / 100) (several : 2 ≤ b.maxIter) :
    ¬ FlagAgrees b := by
  have late : 0 < b.maxIter + 1 := by omega
  obtain ⟨d, attained⟩ := relativeError_attained (by norm_num : (0 : ℝ) ≤ 2 / 100) several
  let e := spreadBehaviour d (b.maxIter + 1) 0
  have reached : semRel (timedMetrics e b.maxIter) = 2 / 100 := by
    rw [spread_metrics, semRel_eq, attained]
  have first : FirstStop b e b.maxIter := firstStop_of_quiet (by omega) le_rfl (Or.inl rfl)
    (fun m positive before => spread_quiet b d late 0 positive (by omega))
  intro agrees
  have above := ((flagAgrees_iff_runs b).mp agrees e b.maxIter several (spread_callbacks b d 0)).2
    ⟨first, spread_quiet b d late 0 (by omega) (Nat.lt_succ_self _), by rw [reached]; exact strict⟩
  exact absurd reached above.ne'

/-- The flag agrees with the loop for every measurement exactly if the target is the literal of
stats_compute, or no two samples are taken, or the convergence test is never made above it. -/
theorem flag_agrees_iff (b : Benchmark ℝ) : FlagAgrees b ↔
    b.target = 2 / 100 ∨ b.maxIter < 2 ∨ (2 / 100 < b.target ∧ (b.maxIter : Int) < b.minIter) := by
  constructor
  · intro agrees
    by_contra other
    push Not at other
    obtain ⟨differs, several, tested⟩ := other
    rcases lt_or_gt_of_ne differs with strict | loose
    · exact strict_disagrees strict several agrees
    · exact loose_disagrees loose several (tested loose) agrees
  · intro condition
    simp only [flagAgrees_iff_runs]
    intro e n enough _
    rcases condition with same | single | ⟨loose, untested⟩
    · rw [← same]
      exact ⟨fun stopped => stopped.2.2.1, fun stopped => stopped.2.2⟩
    · constructor
      · intro stopped
        have within := firstStop_le stopped.1
        omega
      · intro stopped
        have within := firstStop_le stopped.1
        omega
    · constructor
      · intro stopped
        have within := firstStop_le stopped.1
        have least := stopped.2.1
        omega
      · exact fun stopped => loose.trans stopped.2.2

/-- The plain benchmark with a convergence target of five percent. -/
noncomputable def looseBenchmark : Benchmark ℝ :=
  { plainBenchmark ℝ with convergenceTarget := ((5 : Nat) : ℝ) / ((100 : Nat) : ℝ) }

theorem loose_flag_disagrees : ¬ FlagAgrees looseBenchmark := by
  have target : looseBenchmark.target = 5 / 100 := if_pos (by norm_num [looseBenchmark])
  refine loose_disagrees ?_ (by decide) (by decide)
  simp only [target]
  norm_num

end ServMark
