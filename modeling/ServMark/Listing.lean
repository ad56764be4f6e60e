import ServMark.Registry

/-! What main says about a run before it starts: the listing of --dry-run and the number of benchmarks it announces,
both from the names in bench_filter alone. -/
namespace ServMark
variable {α : Type}

/-- The benchmarks that are listed with --dry-run. -/
def dryRunListed (config : RunConfig) (registry : List (Benchmark α)) : List (Benchmark α) :=
  registry.filter (fun b => if config.benchFilter.length > 0 then foundIn b.name config.benchFilter else true)

/-- The number behind the listing and in the header of a run, printed if there is a list of names. -/
def announced (config : RunConfig) : Option Nat :=
  if config.benchFilter.length > 0 then some config.benchFilter.length else none

/-- The list names each of these benchmarks once and nothing else. -/
structure NamesEach (names : List String) (benchmarks : List (Benchmark α)) : Prop where
  once : names.Nodup
  all : ∀ name ∈ names, ∃ b ∈ benchmarks, b.name = name

/-- Benchmarks of different names, all of them listed, are as many as the list is long only if it names each once. -/
theorem length_names {names : List String} {benchmarks : List (Benchmark α)}
    (distinct : (benchmarks.map Benchmark.name).Nodup) (listed : ∀ b ∈ benchmarks, b.name ∈ names) :
    benchmarks.length = names.length ↔ NamesEach names benchmarks := by
  have inside : benchmarks.map Benchmark.name ⊆ names := by
    intro name member
    obtain ⟨b, among, rfl⟩ := List.mem_map.mp member
    exact listed b among
  have sub : (benchmarks.map Benchmark.name).Subperm names := List.subperm_of_subset distinct inside
  constructor
  · intro same
    have perm : (benchmarks.map Benchmark.name).Perm names :=
      sub.perm_of_length_le (by rw [List.length_map, same])
    exact ⟨perm.nodup_iff.mp distinct, fun name member => List.mem_map.mp (perm.mem_iff.mpr member)⟩
  · rintro ⟨once, all⟩
    have back : names.Subperm (benchmarks.map Benchmark.name) :=
      List.subperm_of_subset once (fun name member => List.mem_map.mpr (all name member))
    have upper := sub.length_le
    have lower := back.length_le
    rw [List.length_map] at upper lower
    exact Nat.le_antisymm upper lower

theorem listed_name {config : RunConfig} {registry : List (Benchmark α)} (names : config.benchFilter ≠ []) :
    ∀ b, b ∈ dryRunListed config registry ↔ b ∈ registry ∧ b.name ∈ config.benchFilter := by
  intro b
  rw [dryRunListed, List.mem_filter, if_pos (List.length_pos_iff.mpr names), foundIn_iff]

/-- What a run measures of a listing. -/
theorem chosen_listed (config : RunConfig) (registry : List (Benchmark α)) :
    registry.filter (fun b => decide (config.Chosen b)) =
      (dryRunListed config registry).filter (fun b => decide (config.tierMask.testBit b.tier = true ∧
        ∀ c, config.categoryFilter = some c → b.category = c)) := by
  rw [dryRunListed, List.filter_filter]
  refine List.filter_congr (fun b _ => ?_)
  rw [Bool.eq_iff_iff, Bool.and_eq_true, decide_eq_true_eq, decide_eq_true_eq, RunConfig.Chosen, ← and_assoc]
  refine and_congr_right (fun _ => ?_)
  cases names : config.benchFilter with
  | nil => simp
  | cons name rest => rw [if_pos (by simp), foundIn_iff]; simp

section Run
variable [Field α] [LinearOrder α] [Libm α]

/-- A run measures the listed benchmarks of its tiers and category, in the order of the listing. If the names of the
registered benchmarks differ, the number that is announced with a list of names is that of the listing exactly if the
list names each listed benchmark once and nothing else, and that of the subtests exactly if it does so for them. -/
theorem announced_counts {config : RunConfig} {calls : List (Benchmark α)} {env : RunEnv α} {r : RunResult α}
    (ok : harnessRun config (registered calls) env = .ok r)
    (distinct : ((registered calls).map Benchmark.name).Nodup) :
    r.subtests.map SubtestResult.bench = (dryRunListed config (registered calls)).filter (fun b =>
      decide (config.tierMask.testBit b.tier = true ∧ ∀ c, config.categoryFilter = some c → b.category = c)) ∧
    ∀ count, announced config = some count →
      ((dryRunListed config (registered calls)).length = count ↔
        NamesEach config.benchFilter (dryRunListed config (registered calls))) ∧
      (r.subtests.length = count ↔ NamesEach config.benchFilter (r.subtests.map SubtestResult.bench)) := by
  have measured := (subtests_benchmarks ok).trans (chosen_listed config (registered calls))
  refine ⟨measured, fun count said => ?_⟩
  unfold announced at said
  split_ifs at said with names
  cases said
  have listed (b : Benchmark α) : b ∈ dryRunListed config (registered calls) ↔
      b ∈ registered calls ∧ b.name ∈ config.benchFilter := listed_name (List.length_pos_iff.mp names) b
  have part : (dryRunListed config (registered calls)).Sublist (registered calls) := List.filter_sublist
  have among : (r.subtests.map SubtestResult.bench).Sublist (dryRunListed config (registered calls)) := by
    rw [measured]
    exact List.filter_sublist
  constructor
  · exact length_names (distinct.sublist (part.map _)) (fun b member => ((listed b).mp member).2)
  · rw [← List.length_map (f := SubtestResult.bench)]
    exact length_names (distinct.sublist ((among.trans part).map _))
      (fun b member => ((listed b).mp (among.subset member)).2)

end Run

/- Two of three benchmarks are named, and one of these is of another tier. -/

def pairNamed : RunConfig := { mainConfig with benchFilter := ["plain", "second"] }

def pairCalls : List (Benchmark ℝ) :=
  [plainBenchmark ℝ, { plainBenchmark ℝ with name := "second", tier := 3 }, { plainBenchmark ℝ with name := "third" }]

noncomputable def pairResult : RunResult ℝ :=
  ⟨pairNamed, [assignScore pairNamed ⟨plainBenchmark ℝ, .zeroed ℝ, 0, "completed"⟩]⟩

theorem pair_harnessRun : harnessRun pairNamed (registered pairCalls) slowEnv = .ok pairResult := by
  have calls : registered pairCalls = pairCalls := registered_take _
  have ran : runSubtest pairNamed (plainBenchmark ℝ) (slowEnv.subtest 0) =
      .ok ⟨plainBenchmark ℝ, .zeroed ℝ, 0, "completed"⟩ := slow_runSubtest 0
  have chosen : pairCalls.map pairNamed.selects = [true, false, false] := by decide
  simp only [pairCalls, List.map_cons, List.cons.injEq] at chosen
  have loop : runLoop pairNamed slowEnv.subtest 0 pairCalls [] =
      .ok [⟨plainBenchmark ℝ, .zeroed ℝ, 0, "completed"⟩] := by
    simp [runLoop, pairCalls, chosen, ran]
  rw [calls, harnessRun_of_loop rfl rfl loop]
  rfl

/-- Two benchmarks are announced and listed, and one is measured. -/
theorem pair_announced_counts : announced pairNamed = some 2 ∧
    (dryRunListed pairNamed (registered pairCalls)).length = 2 ∧
    pairResult.subtests.map SubtestResult.bench = (dryRunListed pairNamed (registered pairCalls)).filter (fun b =>
      decide (pairNamed.tierMask.testBit b.tier = true ∧ ∀ c, pairNamed.categoryFilter = some c → b.category = c)) ∧
    ¬ NamesEach pairNamed.benchFilter (pairResult.subtests.map SubtestResult.bench) := by
  have calls : registered pairCalls = pairCalls := registered_take _
  have distinct : ((registered pairCalls).map Benchmark.name).Nodup := by
    rw [calls]
    decide
  have counts := announced_counts pair_harnessRun distinct
  have each : NamesEach pairNamed.benchFilter (dryRunListed pairNamed (registered pairCalls)) := by
    refine ⟨by decide, fun name member => ?_⟩
    have known : pairNamed.benchFilter ⊆ pairCalls.map Benchmark.name := by decide
    obtain ⟨b, among, rfl⟩ := List.mem_map.mp (known member)
    exact ⟨b, (listed_name (by decide) b).mpr ⟨calls ▸ among, member⟩, rfl⟩
  exact ⟨rfl, (counts.2 2 rfl).1.mpr each, counts.1, mt (counts.2 2 rfl).2.mpr (by decide)⟩

end ServMark
