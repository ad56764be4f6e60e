import Mathlib.Data.Nat.Bitwise
import ServMark.Harness
import ServMark.Library.Bounded

/-! benchmark_register and the loop of harness_run as it is written: three tests that skip a
benchmark, and results stored in an array of bench_count cells at an index of its own. -/
namespace ServMark
open Bounded

def maxBenchmarks : Nat := 128

def benchmarkRegister {α : Type} (registry : List (Benchmark α)) (bench : Benchmark α) :
    Int × List (Benchmark α) :=
  if maxBenchmarks ≤ registry.length then (-1, registry) else (0, registry ++ [bench])

/-- The registry after these calls, in order. -/
def registered {α : Type} (calls : List (Benchmark α)) : List (Benchmark α) :=
  calls.foldl (fun registry bench => (benchmarkRegister registry bench).2) []

/-- The search of a name in bench_filter. -/
def foundIn (name : String) : List String → Bool
  | [] => false
  | entry :: rest => if name = entry then true else foundIn name rest

section Loop
variable {α : Type} [Field α] [LinearOrder α] [Libm α]

def fillLoop (config : RunConfig) (env : Nat → SubtestEnv α) :
    Nat → List (Benchmark α) → Cells (SubtestResult α) → Except Fault (Cells (SubtestResult α))
  | _, [], subtests => .ok subtests
  | i, b :: rest, subtests =>
    if config.tierMask &&& 1 <<< b.tier = 0 then fillLoop config env (i + 1) rest subtests
    else if config.categoryFilter.any (fun c => b.category != c) then fillLoop config env (i + 1) rest subtests
    else if config.benchFilter.length > 0 ∧ foundIn b.name config.benchFilter = false then
      fillLoop config env (i + 1) rest subtests
    else
      match runSubtest config b (env i) with
      | .error fault => .error fault
      | .ok sr =>
        match subtests.put sr with
        | none => .error .overflow
        | some subtests => fillLoop config env (i + 1) rest subtests

def harnessFill (config : RunConfig) (registry : List (Benchmark α)) (env : RunEnv α) :
    Except Fault (Cells (SubtestResult α)) :=
  if env.callocResult then .error .outOfMemory
  else if env.callocSubtests = true ∧ registry ≠ [] then .error .outOfMemory
  else
    match fillLoop config env.subtest 0 registry (Cells.fresh registry.length) with
    | .error fault => .error fault
    | .ok subtests => .ok (subtests.map (assignScore config))

end Loop

section Registration
variable {α : Type}

theorem register_push (registry : List (Benchmark α)) (bench : Benchmark α) :
    (benchmarkRegister registry bench).2 = push maxBenchmarks registry bench := by
  rcases Nat.lt_or_ge registry.length maxBenchmarks with room | full
  · simp only [benchmarkRegister, push, if_pos room, if_neg (Nat.not_le_of_lt room)]
  · simp only [benchmarkRegister, push, if_pos full, if_neg (Nat.not_lt_of_le full)]

theorem registered_take (calls : List (Benchmark α)) : registered calls = calls.take maxBenchmarks := by
  simp only [registered, register_push]
  exact foldl_push maxBenchmarks [] calls

theorem register_refused {registry : List (Benchmark α)} {bench : Benchmark α}
    (refused : (benchmarkRegister registry bench).1 ≠ 0) :
    maxBenchmarks ≤ registry.length ∧ benchmarkRegister registry bench = (-1, registry) := by
  unfold benchmarkRegister at *
  split
  · rename_i full
    exact ⟨full, rfl⟩
  · rename_i room
    exact absurd (congrArg Prod.fst (if_neg room)) refused

/-- What the configuration asks of a benchmark, by its tier, its category and its name. -/
def RunConfig.Chosen (config : RunConfig) (b : Benchmark α) : Prop :=
  config.tierMask.testBit b.tier = true ∧ (∀ c, config.categoryFilter = some c → b.category = c) ∧
    (config.benchFilter ≠ [] → b.name ∈ config.benchFilter)

theorem foundIn_iff (name : String) (entries : List String) : foundIn name entries = true ↔ name ∈ entries := by
  induction entries with
  | nil => simp [foundIn]
  | cons entry rest ih =>
    unfold foundIn
    split
    · rename_i same
      exact iff_of_true rfl (same ▸ List.mem_cons_self)
    · rename_i other
      rw [ih, List.mem_cons, or_iff_right other]

theorem tier_test (mask tier : Nat) : mask &&& 1 <<< tier = 0 ↔ mask.testBit tier = false := by
  rw [Nat.one_shiftLeft, Nat.and_two_pow]
  cases mask.testBit tier with
  | true => simp
  | false => simp

theorem category_test (config : RunConfig) (b : Benchmark α) :
    config.categoryFilter.any (fun c => b.category != c) = true ↔
      ¬ ∀ c, config.categoryFilter = some c → b.category = c := by
  cases config.categoryFilter with
  | none => simp
  | some category => simp

theorem filter_test (config : RunConfig) (b : Benchmark α) :
    (config.benchFilter.length > 0 ∧ foundIn b.name config.benchFilter = false) ↔
      ¬ (config.benchFilter ≠ [] → b.name ∈ config.benchFilter) := by
  rw [← foundIn_iff, Classical.not_imp, Bool.not_eq_true, gt_iff_lt, List.length_pos_iff]

theorem selects_iff (config : RunConfig) (b : Benchmark α) : config.selects b = true ↔ config.Chosen b := by
  unfold RunConfig.selects RunConfig.admits RunConfig.Chosen
  rw [Bool.and_eq_true, Bool.and_eq_true, and_assoc]
  refine and_congr_right (fun _ => and_congr ?_ ?_)
  · cases config.categoryFilter with
    | none => simp
    | some category => simp
  · cases config.benchFilter with
    | nil => simp
    | cons entry rest => simp

instance (config : RunConfig) : DecidablePred (config.Chosen (α := α)) :=
  fun b => decidable_of_iff _ (selects_iff config b)

/-- Only the set of the names counts, not how often or in which order the list has them. -/
theorem chosen_names (config : RunConfig) {names : List String} (same : ∀ n, n ∈ names ↔ n ∈ config.benchFilter)
    (b : Benchmark α) : RunConfig.Chosen { config with benchFilter := names } b ↔ config.Chosen b := by
  have empty : names = [] ↔ config.benchFilter = [] := by
    simp only [List.eq_nil_iff_forall_not_mem, same]
  simp only [RunConfig.Chosen, ne_eq, empty, same]

end Registration

section Fill
variable {α : Type} [Field α] [LinearOrder α] [Libm α]

theorem fillLoop_skips {config : RunConfig} {b : Benchmark α} (skips : ¬ config.Chosen b)
    (env : Nat → SubtestEnv α) (i : Nat) (rest : List (Benchmark α)) (subtests : Cells (SubtestResult α)) :
    fillLoop config env i (b :: rest) subtests = fillLoop config env (i + 1) rest subtests := by
  rw [fillLoop]
  split
  · rfl
  · rename_i tier
    rw [tier_test, Bool.not_eq_false] at tier
    split
    · rfl
    · rename_i category
      rw [category_test, not_not] at category
      exact if_pos ((filter_test config b).mpr (fun named => skips ⟨tier, category, named⟩))

theorem fillLoop_takes {config : RunConfig} {b : Benchmark α} (chosen : config.Chosen b)
    (env : Nat → SubtestEnv α) (i : Nat) (rest : List (Benchmark α)) (subtests : Cells (SubtestResult α)) :
    fillLoop config env i (b :: rest) subtests =
      match runSubtest config b (env i) with
      | .error fault => .error fault
      | .ok sr =>
        match subtests.put sr with
        | none => .error .overflow
        | some subtests => fillLoop config env (i + 1) rest subtests := by
  obtain ⟨tier, category, named⟩ := chosen
  rw [fillLoop, if_neg (by rw [tier_test, tier]; decide), if_neg (by rw [category_test, not_not]; exact category),
    if_neg (by rw [filter_test, not_not]; exact named)]

/-- The stores of the loop stay inside an array with one cell for each benchmark left. -/
theorem fillLoop_holding (config : RunConfig) (env : Nat → SubtestEnv α) {registry : List (Benchmark α)} {i : Nat}
    {subtests : List (SubtestResult α)} {free : Nat} (room : registry.length ≤ free) :
    fillLoop config env i registry (Cells.holding subtests free) = (runLoop config env i registry subtests).map
      (fun out => Cells.holding out (subtests.length + free - out.length)) := by
  induction registry generalizing i subtests free with
  | nil => simp [fillLoop, runLoop, Except.map]
  | cons b rest ih =>
    obtain ⟨free, rfl⟩ : ∃ f, free = f + 1 := ⟨free - 1, by rw [List.length_cons] at room; omega⟩
    have shorter : rest.length ≤ free := by rw [List.length_cons] at room; omega
    by_cases chosen : config.Chosen b
    · rw [fillLoop_takes chosen, runLoop, if_pos ((selects_iff config b).mpr chosen)]
      cases runSubtest config b (env i) with
      | error fault => rfl
      | ok sr =>
        have length : (subtests ++ [sr]).length + free = subtests.length + (free + 1) := by simp; omega
        simp only [Cells.put_holding, ih shorter, length]
    · rw [fillLoop_skips chosen, runLoop, if_neg (fun selects => chosen ((selects_iff config b).mp selects))]
      exact ih (by omega)

/-- The array after harness_run holds the subtests of the result, in order and from the first cell. -/
theorem harnessFill_eq (config : RunConfig) (registry : List (Benchmark α)) (env : RunEnv α) :
    harnessFill config registry env = (harnessRun config registry env).map
      (fun r => Cells.holding r.subtests (registry.length - r.subtests.length)) := by
  unfold harnessFill harnessRun
  split
  · rfl
  · split
    · rfl
    · rw [Cells.fresh_holding, fillLoop_holding config env.subtest (Nat.le_refl _)]
      cases runLoop config env.subtest 0 registry [] with
      | error fault => rfl
      | ok out => simp [Except.map, Cells.map_holding]

theorem subtests_benchmarks {config : RunConfig} {registry : List (Benchmark α)} {env : RunEnv α} {r : RunResult α}
    (ok : harnessRun config registry env = .ok r) :
    r.subtests.map SubtestResult.bench = registry.filter (fun b => decide (config.Chosen b)) := by
  have same : (fun b : Benchmark α => decide (config.Chosen b)) = config.selects :=
    funext (fun b => Bool.eq_iff_iff.mpr (by rw [decide_eq_true_eq, selects_iff]))
  have benchmarks : List.Forall₂ Eq ((selected config registry).map Prod.fst)
      (r.subtests.map SubtestResult.bench) := by
    rw [List.forall₂_map_left_iff, List.forall₂_map_right_iff]
    refine (harnessRun_spec ok).2.imp ?_
    rintro p sr ⟨measured, ran, rfl⟩
    rw [(assignScore_keeps config measured).1, (runSubtest_result ran).1]
  rw [List.forall₂_eq_eq_eq] at benchmarks
  have numbers : registry.zipIdx.map Prod.fst = registry := List.zipIdx_map_fst 0 registry
  rw [← benchmarks, same, selected]
  conv_rhs => rw [← numbers, List.filter_map]
  rfl

/-- harness_run on what any calls of benchmark_register leave: the stored subtests are those the
configuration chooses among the first 128, in order, and all stores are inside the array. -/
theorem registered_chosen {config : RunConfig} {calls : List (Benchmark α)} {env : RunEnv α}
    {subtests : Cells (SubtestResult α)} (ok : harnessFill config (registered calls) env = .ok subtests) :
    (subtests.cells.take subtests.count).map (Option.map SubtestResult.bench) =
        ((calls.take maxBenchmarks).filter (fun b => decide (config.Chosen b))).map some ∧
      subtests.count ≤ subtests.cells.length ∧ subtests.cells.length = (registered calls).length ∧
      (∀ names, (∀ n, n ∈ names ↔ n ∈ config.benchFilter) → (calls.take maxBenchmarks).filter
          (fun b => decide (RunConfig.Chosen { config with benchFilter := names } b)) =
        (calls.take maxBenchmarks).filter (fun b => decide (config.Chosen b))) ∧
      ∀ bench, (benchmarkRegister (registered calls) bench).1 ≠ 0 →
        benchmarkRegister (registered calls) bench = (-1, registered calls) := by
  rw [harnessFill_eq] at ok
  cases run : harnessRun config (registered calls) env with
  | error fault => rw [run] at ok; cases ok
  | ok r =>
    rw [run] at ok
    cases ok
    have benchmarks := subtests_benchmarks run
    have within : r.subtests.length ≤ (registered calls).length := by
      have kept := List.length_filter_le (fun b => decide (config.Chosen b)) (registered calls)
      rwa [← benchmarks, List.length_map] at kept
    refine ⟨?_, ?_, ?_, fun names same => ?_, fun bench refused => (register_refused refused).2⟩
    · rw [Cells.holding_stored, List.map_map, ← registered_take, ← benchmarks, List.map_map]
      rfl
    · simp [Cells.holding]
    · simp only [Cells.holding, List.length_append, List.length_map, List.length_replicate]
      omega
    · simp only [chosen_names config same]

end Fill

/- Of the benchmarks besides the plain one, each is left out by one of the three tests. -/

def pickyConfig : RunConfig :=
  { mainConfig with categoryFilter := some "C6", benchFilter := ["plain", "missing", "plain"] }

def pickyCalls : List (Benchmark ℝ) :=
  [{ plainBenchmark ℝ with tier := 3 }, plainBenchmark ℝ, { plainBenchmark ℝ with category := "C1" },
    { plainBenchmark ℝ with name := "other" }]

theorem picky_harnessFill : harnessFill pickyConfig (registered pickyCalls) slowEnv =
    .ok (Cells.holding [assignScore pickyConfig ⟨plainBenchmark ℝ, .zeroed ℝ, 0, "completed"⟩] 3) := by
  have calls : registered pickyCalls = pickyCalls := registered_take _
  have ran : runSubtest pickyConfig (plainBenchmark ℝ) (slowEnv.subtest 1) =
      .ok ⟨plainBenchmark ℝ, .zeroed ℝ, 0, "completed"⟩ := slow_runSubtest 1
  have loop : runLoop pickyConfig slowEnv.subtest 0 pickyCalls [] =
      .ok [⟨plainBenchmark ℝ, .zeroed ℝ, 0, "completed"⟩] := by
    have chosen : pickyCalls.map pickyConfig.selects = [false, true, false, false] := by decide
    simp only [pickyCalls, List.map_cons, List.cons.injEq] at chosen
    simp only [runLoop, pickyCalls, chosen, Bool.false_eq_true, if_false, if_true, Nat.zero_add, ran, List.nil_append]
  rw [harnessFill_eq, calls, harnessRun_of_loop rfl rfl loop]
  rfl

theorem picky_registered_chosen :
    let subtests := Cells.holding [assignScore pickyConfig ⟨plainBenchmark ℝ, .zeroed ℝ, 0, "completed"⟩] 3
    (subtests.cells.take subtests.count).map (Option.map SubtestResult.bench) =
        ((pickyCalls.take maxBenchmarks).filter (fun b => decide (pickyConfig.Chosen b))).map some ∧
      subtests.count ≤ subtests.cells.length ∧ subtests.cells.length = (registered pickyCalls).length :=
  have chosen := registered_chosen picky_harnessFill
  ⟨chosen.1, chosen.2.1, chosen.2.2.1⟩

end ServMark
