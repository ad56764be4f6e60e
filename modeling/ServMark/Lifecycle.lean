import ServMark.Stats

/-! One benchmark instance: the callbacks run_benchmark_instance makes and the samples
it stores. The answers of the callbacks and of the clocks are inputs of the run. -/
namespace ServMark

inductive Call where
  | init | warmup | measure | cleanup
  deriving DecidableEq, Repr

structure Timespec where
  tvSec : Int
  tvNsec : Int

/-- What one run of an instance meets. The measure calls are numbered from 0, the two
warm-up calls included; reading 0 of a clock is the start, reading k follows timed call k. -/
structure Behaviour (α : Type) where
  init : Int
  warmup : Int
  measure : Nat → Int × α
  cleanup : Int
  wall : Nat → Timespec
  cpu : Nat → Timespec

/- The calls with their return codes, the returned code, *iter_out where it is set, and
the cells of values_out in the order they were stored. -/
structure InstanceRun (α : Type) where
  calls : List (Call × Int)
  ret : Int
  iterOut : Option Nat
  values : List α

def orDefault (configured fallback : Int) : Int := if configured > 0 then configured else fallback

/- What the inputs say before any loop runs: the limits in force, the metrics of the timed
calls, the callbacks that succeed. -/
section Inputs
variable {α : Type}

def Benchmark.maxIter (b : Benchmark α) : Nat :=
  (orDefault b.maxIterations ssbMaxIterations).toNat

def Benchmark.minIter (b : Benchmark α) : Int := orDefault b.minIterations ssbMinIterations

def Benchmark.minRuntime (b : Benchmark α) : Int := orDefault b.minRuntimeSec ssbMinRuntimeSec

def Benchmark.maxRuntime (b : Benchmark α) : Int := orDefault b.maxRuntimeSec ssbMaxRuntimeSec

theorem maxIter_pos (b : Benchmark α) : 1 ≤ b.maxIter := by
  unfold Benchmark.maxIter orDefault
  split
  · omega
  · decide

def timedMetrics (e : Behaviour α) (n : Nat) : List α :=
  (List.range n).map (fun k => (e.measure (2 + k)).2)

theorem timedMetrics_length (e : Behaviour α) (n : Nat) : (timedMetrics e n).length = n := by
  simp [timedMetrics]

theorem timedMetrics_succ (e : Behaviour α) (n : Nat) :
    timedMetrics e (n + 1) = timedMetrics e n ++ [(e.measure (2 + n)).2] := by
  simp [timedMetrics, List.range_succ]

/-- init, a warmup that exists and the first measure calls all return 0. -/
structure CallbacksOk (b : Benchmark α) (e : Behaviour α) (measures : Nat) : Prop where
  init : e.init = 0
  warmup : b.hasWarmup = true → e.warmup = 0
  measure : ∀ k < measures, (e.measure k).1 = 0

theorem CallbacksOk.mono {b : Benchmark α} {e : Behaviour α} {m n : Nat}
    (ok : CallbacksOk b e n) (le : m ≤ n) : CallbacksOk b e m :=
  ⟨ok.init, ok.warmup, fun k lt => ok.measure k (Nat.lt_of_lt_of_le lt le)⟩

def opening (b : Benchmark α) : List (Call × Int) :=
  if b.hasWarmup then [(.init, 0), (.warmup, 0)] else [(.init, 0)]

/- The calls of a run up to the last ones: the opening and the measure calls so far. -/
def front (b : Benchmark α) (measures : Nat) : List (Call × Int) :=
  opening b ++ List.replicate measures (.measure, 0)

theorem front_succ (b : Benchmark α) (measures : Nat) :
    front b measures ++ [(.measure, 0)] = front b (measures + 1) := by
  rw [front, front, List.append_assoc, ← List.replicate_succ']

theorem front_quiet (b : Benchmark α) (measures : Nat) : ∀ c ∈ front b measures, c.1 ≠ .cleanup ∧ c.2 = 0 := by
  intro c member
  rcases List.mem_append.mp member with start | loop
  · unfold opening at start
    split at start
    · rcases List.mem_pair.mp start with rfl | rfl <;> decide
    · rw [List.mem_singleton.mp start]
      decide
  · rw [List.eq_of_mem_replicate loop]
    decide

theorem front_names (b : Benchmark α) (measures : Nat) : (front b measures).map Prod.fst =
    [.init] ++ (if b.hasWarmup then [.warmup] else []) ++ List.replicate measures .measure := by
  unfold front opening
  split <;> simp

theorem front_measures (b : Benchmark α) (measures : Nat) :
    ((front b measures).map Prod.fst).count .measure = measures := by
  rw [front_names]
  split <;> simp

theorem stopped_measures (b : Benchmark α) (n : Nat) (code : Int) :
    ((front b (2 + n) ++ [(Call.cleanup, code)]).map Prod.fst).count Call.measure = 2 + n := by
  rw [List.map_append, List.count_append, front_measures]
  rfl

theorem front_pairwise {R : Call × Int → Call × Int → Prop} {b : Benchmark α} {measures : Nat}
    {last : List (Call × Int)} (quiet : ∀ c, c.1 ≠ .cleanup ∧ c.2 = 0 → ∀ later, R c later)
    (pairwise : last.Pairwise R) : (front b measures ++ last).Pairwise R := by
  have free : ∀ c ∈ front b measures, ∀ later, R c later := fun c member => quiet c (front_quiet b measures c member)
  rw [List.pairwise_append]
  exact ⟨List.pairwise_of_forall_mem_list (fun c member later _ => free c member later), pairwise,
    fun c member later _ => free c member later⟩

end Inputs

section Loop
variable {α : Type} [Field α] [LinearOrder α] [Libm α]

def Benchmark.target (b : Benchmark α) : α :=
  if b.convergenceTarget > 0 then b.convergenceTarget else ssbConvergenceTarget

def elapsed (start now : Timespec) : α :=
  ((now.tvSec - start.tvSec : Int) : α) + ((now.tvNsec - start.tvNsec : Int) : α) / 1000000000

/-- The three breaks of the timed loop, tested after the samples stored so far. -/
def leavesLoop (b : Benchmark α) (e : Behaviour α) (values : List α) : Bool :=
  let iter := values.length
  let wallElapsed : α := elapsed (e.wall 0) (e.wall iter)
  let cpuElapsed : α := elapsed (e.cpu 0) (e.cpu iter)
  decide (b.minIter ≤ iter ∧ semRel values ≤ b.target ∧ (b.minRuntime : α) ≤ wallElapsed) ||
    decide ((b.maxRuntime : α) ≤ wallElapsed) || decide ((intMul b.maxRuntime 2 : α) < cpuElapsed)

/- The two discarded measure calls. The loop counts down the calls that are left. -/
def warmLoop (e : Behaviour α) : Nat → Nat → List (Call × Int) → List (Call × Int) × Int
  | 0, _, calls => (calls, 0)
  | left + 1, i, calls =>
    let ret := (e.measure i).1
    let calls := calls ++ [(.measure, ret)]
    if ret ≠ 0 then (calls, ret) else warmLoop e left (i + 1) calls

/-- The timed loop with max_iter - iter iterations left; iter is the number of samples. -/
def timedLoop (b : Benchmark α) (e : Behaviour α) :
    Nat → List (Call × Int) → List α → InstanceRun α
  | 0, calls, values => ⟨calls ++ [(.cleanup, e.cleanup)], 0, some values.length, values⟩
  | left + 1, calls, values =>
    let ret := (e.measure (2 + values.length)).1
    let calls := calls ++ [(.measure, ret)]
    if ret ≠ 0 then ⟨calls ++ [(.cleanup, e.cleanup)], ret, none, values⟩
    else
      let values := values ++ [(e.measure (2 + values.length)).2]
      if leavesLoop b e values then
        ⟨calls ++ [(.cleanup, e.cleanup)], 0, some values.length, values⟩
      else timedLoop b e left calls values

def runBenchmarkInstance (b : Benchmark α) (e : Behaviour α) : InstanceRun α :=
  let calls := [(Call.init, e.init)]
  if e.init ≠ 0 then ⟨calls, e.init, none, []⟩
  else
    let calls := if b.hasWarmup then calls ++ [(.warmup, e.warmup)] else calls
    let ret := if b.hasWarmup then e.warmup else 0
    if ret ≠ 0 then ⟨calls ++ [(.cleanup, e.cleanup)], ret, none, []⟩
    else
      let warm := warmLoop e 2 0 calls
      if warm.2 ≠ 0 then ⟨warm.1 ++ [(.cleanup, e.cleanup)], warm.2, none, []⟩
      else timedLoop b e b.maxIter warm.1 []

/- The stop rule on the inputs alone: it mentions no run of the loop. -/

def StopsAt (b : Benchmark α) (e : Behaviour α) (n : Nat) : Prop :=
  n = b.maxIter ∨ leavesLoop b e (timedMetrics e n) = true

/-- The least number of timed measurements, at least one, after which the loop is left. -/
def FirstStop (b : Benchmark α) (e : Behaviour α) (n : Nat) : Prop :=
  IsLeast {m | 1 ≤ m ∧ StopsAt b e m} n

/-- Everything a run can do, with the inputs that lead there. A failing measure call k is
one of the two warm-up calls when k < 2; the stop rule has not fired before it. -/
inductive Outcome (b : Benchmark α) (e : Behaviour α) : InstanceRun α → Prop
  | initFailed (code : e.init ≠ 0) : Outcome b e ⟨[(.init, e.init)], e.init, none, []⟩
  | warmupFailed (init : e.init = 0) (has : b.hasWarmup = true) (code : e.warmup ≠ 0) :
      Outcome b e ⟨[(.init, 0), (.warmup, e.warmup), (.cleanup, e.cleanup)], e.warmup, none, []⟩
  | measureFailed (k : Nat) (before : CallbacksOk b e k) (code : (e.measure k).1 ≠ 0)
      (running : ∀ n, 1 ≤ n → n + 2 ≤ k → ¬ StopsAt b e n) :
      Outcome b e ⟨front b k ++ [(.measure, (e.measure k).1), (.cleanup, e.cleanup)], (e.measure k).1, none,
        timedMetrics e (k - 2)⟩
  | stopped (n : Nat) (before : CallbacksOk b e (2 + n)) (first : FirstStop b e n) :
      Outcome b e ⟨front b (2 + n) ++ [(.cleanup, e.cleanup)], 0, some n, timedMetrics e n⟩

theorem firstStop_unique {b : Benchmark α} {e : Behaviour α} {m n : Nat}
    (hm : FirstStop b e m) (hn : FirstStop b e n) : m = n := hm.unique hn

theorem running_of_quiet {b : Benchmark α} {e : Behaviour α} {n : Nat} (below : n < b.maxIter)
    (quiet : leavesLoop b e (timedMetrics e n) = false) : ¬ StopsAt b e n := by
  rintro (top | leaves)
  · omega
  · rw [quiet] at leaves
    contradiction

theorem firstStop_of_quiet {b : Benchmark α} {e : Behaviour α} {i : Nat} (positive : 1 ≤ i)
    (top : i ≤ b.maxIter) (stops : StopsAt b e i)
    (quiet : ∀ n, 1 ≤ n → n < i → leavesLoop b e (timedMetrics e n) = false) : FirstStop b e i := by
  refine ⟨⟨positive, stops⟩, ?_⟩
  rintro m ⟨hm, earlier⟩
  by_contra lt
  exact running_of_quiet (by omega) (quiet m hm (by omega)) earlier

/- Induction on the iterations that are left. After i samples the stop rule has not fired
at 1..i; with no iteration left, i is the maximum and fires it. -/
theorem timedLoop_outcome (b : Benchmark α) (e : Behaviour α) (left i : Nat)
    (room : i + left = b.maxIter) (before : CallbacksOk b e (2 + i))
    (quiet : ∀ n, 1 ≤ n → n ≤ i → leavesLoop b e (timedMetrics e n) = false) :
    Outcome b e (timedLoop b e left (front b (2 + i)) (timedMetrics e i)) := by
  induction left generalizing i with
  | zero =>
    have top : i = b.maxIter := by omega
    have first : FirstStop b e i := firstStop_of_quiet (top ▸ maxIter_pos b) (by omega) (Or.inl top)
      (fun n positive lt => quiet n positive (by omega))
    simpa only [timedLoop, timedMetrics_length] using Outcome.stopped i before first
  | succ left ih =>
    simp only [timedLoop, timedMetrics_length, ← timedMetrics_succ]
    by_cases code : (e.measure (2 + i)).1 = 0
    · have grown : front b (2 + i) ++ [(.measure, 0)] = front b (2 + (i + 1)) := front_succ b (2 + i)
      have after : CallbacksOk b e (2 + (i + 1)) := by
        refine ⟨before.init, before.warmup, fun k lt => ?_⟩
        rcases Nat.lt_succ_iff_lt_or_eq.mp lt with lt | rfl
        · exact before.measure k lt
        · exact code
      simp only [code, ne_eq, not_true_eq_false, if_false, grown]
      split
      · rename_i leaves
        have first : FirstStop b e (i + 1) := firstStop_of_quiet (by omega) (by omega)
          (Or.inr leaves) (fun n positive lt => quiet n positive (by omega))
        exact Outcome.stopped (i + 1) after first
      · rename_i stays
        have quiet' : ∀ n, 1 ≤ n → n ≤ i + 1 → leavesLoop b e (timedMetrics e n) = false := by
          intro n positive le
          rcases Nat.lt_or_eq_of_le le with lt | rfl
          · exact quiet n positive (by omega)
          · exact Bool.eq_false_iff.mpr stays
        exact ih (i + 1) (by omega) after quiet'
    · simp only [ne_eq, code, not_false_eq_true, if_true]
      have failed := Outcome.measureFailed (2 + i) before code
        (fun n positive le => running_of_quiet (by omega) (quiet n positive (by omega)))
      simpa using failed

theorem run_outcome (b : Benchmark α) (e : Behaviour α) :
    Outcome b e (runBenchmarkInstance b e) := by
  unfold runBenchmarkInstance
  by_cases init : e.init = 0
  · by_cases warmup : b.hasWarmup = true → e.warmup = 0
    · have ok : (if b.hasWarmup then e.warmup else 0) = 0 := by
        split
        · rename_i has; exact warmup has
        · rfl
      have start : (if b.hasWarmup then [(Call.init, e.init)] ++ [(.warmup, e.warmup)]
          else [(Call.init, e.init)]) = opening b := by
        unfold opening
        split
        · rename_i has; simp [init, warmup has]
        · simp [init]
      simp only [init, ne_eq, not_true_eq_false, if_false, ok] at start ⊢
      rw [start]
      by_cases first : (e.measure 0).1 = 0
      · by_cases second : (e.measure 1).1 = 0
        · have before : CallbacksOk b e 2 := by
            refine ⟨init, warmup, fun k lt => ?_⟩
            rcases Nat.lt_succ_iff_lt_or_eq.mp lt with lt | rfl
            · rw [Nat.lt_one_iff.mp lt]; exact first
            · exact second
          have loop := timedLoop_outcome b e b.maxIter 0 (Nat.zero_add _) before (by omega)
          simpa [warmLoop, first, second, timedMetrics, front, List.replicate] using loop
        · have before : CallbacksOk b e 1 :=
            ⟨init, warmup, fun k lt => by rw [Nat.lt_one_iff.mp lt]; exact first⟩
          have failed := Outcome.measureFailed 1 before second (by omega)
          simpa [warmLoop, first, second, timedMetrics, front] using failed
      · have before : CallbacksOk b e 0 := ⟨init, warmup, by omega⟩
        have failed := Outcome.measureFailed 0 before first (by omega)
        simpa [warmLoop, first, timedMetrics, front] using failed
    · push Not at warmup
      have failed := Outcome.warmupFailed init warmup.1 warmup.2
      simpa [init, warmup.1, warmup.2] using failed
  · have failed := Outcome.initFailed (b := b) init
    simpa [init] using failed

theorem run_stopped {b : Benchmark α} {e : Behaviour α} {n : Nat} (first : FirstStop b e n)
    (ok : CallbacksOk b e (2 + n)) :
    runBenchmarkInstance b e = ⟨front b (2 + n) ++ [(.cleanup, e.cleanup)], 0, some n, timedMetrics e n⟩ := by
  have outcome := run_outcome b e
  generalize runBenchmarkInstance b e = r at outcome
  cases outcome with
  | initFailed code => exact absurd ok.init code
  | warmupFailed init has code => exact absurd (ok.warmup has) code
  | measureFailed k before code running =>
    by_cases early : k < 2 + n
    · exact absurd (ok.measure k early) code
    · exact absurd first.1.2 (running n first.1.1 (by omega))
  | stopped m before first' => rw [firstStop_unique first' first]

theorem run_success {b : Benchmark α} {e : Behaviour α} (success : (runBenchmarkInstance b e).ret = 0) :
    ∃ n, FirstStop b e n ∧ CallbacksOk b e (2 + n) := by
  have outcome := run_outcome b e
  generalize runBenchmarkInstance b e = r at outcome success
  cases outcome with
  | initFailed code => exact absurd success code
  | warmupFailed init has code => exact absurd success code
  | measureFailed k before code running => exact absurd success code
  | stopped n before first => exact ⟨n, first, before⟩

/- A benchmark that leaves every limit to the defaults, and a behaviour in which each
measurement takes so many seconds. -/
def plainBenchmark (α : Type) [Zero α] : Benchmark α where
  name := "plain"
  category := "C6"
  tier := 1
  higherIsBetter := false
  minIterations := 0
  maxIterations := 0
  convergenceTarget := 0
  minRuntimeSec := 0
  maxRuntimeSec := 0
  hasWarmup := false
  numThreads := 1

def slowBehaviour (seconds : Nat) (metric : α) : Behaviour α where
  init := 0
  warmup := 0
  measure := fun _ => (0, metric)
  cleanup := 0
  wall := fun k => ⟨seconds * k, 0⟩
  cpu := fun _ => ⟨0, 0⟩

theorem slow_callbacks_ok (seconds : Nat) (metric : ℝ) (n : Nat) :
    CallbacksOk (plainBenchmark ℝ) (slowBehaviour seconds metric) n :=
  ⟨rfl, fun _ => rfl, fun _ _ => rfl⟩

theorem slow_leaves (seconds : Nat) (metric : ℝ) {n : Nat} (few : n < 5) :
    leavesLoop (plainBenchmark ℝ) (slowBehaviour seconds metric) (timedMetrics (slowBehaviour seconds metric) n) =
      decide (180 ≤ seconds * n) := by
  have below : ¬ (5 : Int) ≤ n := by omega
  have wall : (180 : ℝ) ≤ (seconds : ℝ) * n ↔ 180 ≤ seconds * n := by exact_mod_cast Iff.rfl
  have double : intMul ssbMaxRuntimeSec 2 = 360 := by decide
  simp [leavesLoop, elapsed, slowBehaviour, timedMetrics, Benchmark.minIter, Benchmark.maxRuntime, orDefault,
    plainBenchmark, below, wall, double]

/-- The runtime guard ends the loop after the first measurement that reaches 180 s. -/
theorem slow_first_stop {seconds n : Nat} (metric : ℝ) (few : n < 5) (reached : 180 ≤ seconds * n)
    (before : ∀ m, m < n → seconds * m < 180) :
    FirstStop (plainBenchmark ℝ) (slowBehaviour seconds metric) n := by
  have positive : 1 ≤ n := by
    rcases Nat.eq_zero_or_pos n with rfl | positive
    · omega
    · exact positive
  have most : (plainBenchmark ℝ).maxIter = 31 := rfl
  refine firstStop_of_quiet positive (by omega) (Or.inr ?_) (fun m _ lt => ?_)
  · rw [slow_leaves seconds metric few]
    exact decide_eq_true reached
  · rw [slow_leaves seconds metric (by omega)]
    exact decide_eq_false (not_le.mpr (before m lt))

theorem slow_run (metric : ℝ) : runBenchmarkInstance (plainBenchmark ℝ) (slowBehaviour 200 metric) =
    ⟨front (plainBenchmark ℝ) (2 + 1) ++ [(.cleanup, 0)], 0, some 1, timedMetrics (slowBehaviour 200 metric) 1⟩ :=
  run_stopped (slow_first_stop metric (by decide) (by decide) (by decide)) (slow_callbacks_ok 200 metric 3)

end Loop

/- What the callbacks of a benchmark may rely on. -/
section Contract
variable {α : Type}

def InstanceRun.names (r : InstanceRun α) : List Call := r.calls.map Prod.fst

def firstCode (calls : List (Call × Int)) : Int :=
  match calls.find? (fun c => c.1 ≠ .cleanup ∧ c.2 ≠ 0) with
  | none => 0
  | some c => c.2

theorem front_code (b : Benchmark α) (measures : Nat) (last : List (Call × Int)) :
    firstCode (front b measures ++ last) = firstCode last := by
  have none : (front b measures).find? (fun c => c.1 ≠ .cleanup ∧ c.2 ≠ 0) = none := by
    rw [List.find?_eq_none]
    intro c member
    simp [(front_quiet b measures c member).2]
  rw [firstCode, List.find?_append, none, Option.none_or, firstCode]

/-- The lifecycle contract of the callbacks. A pairwise property relates every call to
every later one. -/
structure Lifecycle (b : Benchmark α) (e : Behaviour α) (r : InstanceRun α) : Prop where
  form : ∃ k, r.names = if e.init = 0 then
    [.init] ++ (if b.hasWarmup then [.warmup] else []) ++ List.replicate k .measure ++ [.cleanup]
    else [.init]
  released : r.names.count .cleanup = if e.init = 0 then 1 else 0
  afterCleanup : r.calls.Pairwise (fun earlier _ => earlier.1 ≠ .cleanup)
  afterFailure : r.calls.Pairwise (fun earlier later => earlier.2 ≠ 0 → later.1 = .cleanup)
  code : r.ret = firstCode r.calls
  success : r.ret = 0 → ∃ n, r.iterOut = some n ∧ r.names.count .measure = 2 + n

/-- A run whose init succeeded ends with the cleanup, before it perhaps a call that failed. -/
theorem opened_lifecycle {b : Benchmark α} {e : Behaviour α} (init : e.init = 0) {r : InstanceRun α} (measures : Nat)
    {failing : List (Call × Int)} (failed : failing = [] ∨ ∃ code, code ≠ 0 ∧ failing = [(.measure, code)])
    (calls : r.calls = front b measures ++ (failing ++ [(.cleanup, e.cleanup)])) (code : r.ret = firstCode failing)
    (success : r.ret = 0 → ∃ n, r.iterOut = some n ∧ r.names.count .measure = 2 + n) : Lifecycle b e r := by
  have quiet : ((front b measures).map Prod.fst).count .cleanup = 0 := by
    rw [List.count_eq_zero]
    intro member
    obtain ⟨c, within, eq⟩ := List.mem_map.mp member
    exact (front_quiet b measures c within).1 eq
  have names : r.names = (front b measures).map Prod.fst ++ (failing.map Prod.fst ++ [.cleanup]) := by
    simp [InstanceRun.names, calls]
  refine ⟨?_, ?_, ?_, ?_, ?_, success⟩
  · rw [names, front_names]
    simp only [if_pos init]
    obtain rfl | ⟨code, _, rfl⟩ := failed
    · exact ⟨measures, rfl⟩
    · exact ⟨measures + 1, by simp [List.replicate_succ']⟩
  · rw [names, List.count_append, quiet, if_pos init]
    obtain rfl | ⟨code, _, rfl⟩ := failed <;> rfl
  · rw [calls]
    apply front_pairwise (fun c open_ _ => open_.1)
    obtain rfl | ⟨code, _, rfl⟩ := failed <;> simp
  · rw [calls]
    apply front_pairwise (fun c open_ _ nonzero => absurd open_.2 nonzero)
    obtain rfl | ⟨code, _, rfl⟩ := failed <;> simp
  · rw [calls, front_code, code]
    obtain rfl | ⟨code, nonzero, rfl⟩ := failed
    · rfl
    · simp [firstCode, nonzero]

theorem instance_lifecycle [Field α] [LinearOrder α] [Libm α] (b : Benchmark α) (e : Behaviour α) :
    Lifecycle b e (runBenchmarkInstance b e) := by
  have outcome := run_outcome b e
  generalize runBenchmarkInstance b e = r at outcome
  cases outcome with
  | initFailed code =>
    exact ⟨⟨0, by simp [InstanceRun.names, code]⟩, by simp [InstanceRun.names, code], by simp, by simp,
      by simp [firstCode, code], fun ok => absurd ok code⟩
  | warmupFailed init has code =>
    exact ⟨⟨0, by simp [InstanceRun.names, init, has]⟩, by simp [InstanceRun.names, init], by simp, by simp,
      by simp [firstCode, code], fun ok => absurd ok code⟩
  | measureFailed k before code running =>
    exact opened_lifecycle before.init k (Or.inr ⟨_, code, rfl⟩) rfl (by simp [firstCode, code])
      (fun ok => absurd ok code)
  | stopped n before first =>
    exact opened_lifecycle before.init (2 + n) (Or.inl rfl) rfl rfl
      (fun _ => ⟨n, rfl, stopped_measures b n e.cleanup⟩)

end Contract

end ServMark
