import ServMark.Pooling

/-! The aggregate throughput of harness_run_parallel. The comment above the pooling promises
the sum of the instances' means; stats_compute makes the mean of them. -/
namespace ServMark
variable {α : Type} [Field α] [LinearOrder α] [Libm α]

def ChildResult.mean (r : ChildResult α) : α := r.samples.sum / (r.samples.length : α)

def aggregate (n : Nat) (records : Nat → ChildResult α) : α := ((List.range n).map (fun i => (records i).mean)).sum

/-- The throughput in the statistics of a run in which every call succeeds. -/
def reportedThroughput (b : Benchmark α) (n : Nat) (records : Nat → ChildResult α) (stats : BenchmarkStats α)
    (rand : Nat → Nat) : α :=
  (harnessRunParallel b n noFaults (fun i => .exits (records i)) stats rand).stats.mean

/-- The reported throughput is the sum of the instances', and one more instance adds to it as
long as the statistics have room for it. -/
structure SumsInstances (b : Benchmark α) (n : Nat) (records : Nat → ChildResult α) (stats : BenchmarkStats α)
    (rand : Nat → Nat) : Prop where
  sum : reportedThroughput b n records stats rand = aggregate n records
  grows : ∀ r : ChildResult α, n + 1 ≤ ssbMaxIterations → r.ret = 0 → 1 ≤ r.iter → r.iter ≤ ssbMaxIterations →
    0 < r.mean → reportedThroughput b n records stats rand <
      reportedThroughput b (n + 1) (Function.update records n r) stats rand

omit [LinearOrder α] [Libm α] in
theorem instanceMean_eq {r : ChildResult α} (least : 1 ≤ r.iter) (most : r.iter ≤ ssbMaxIterations) :
    instanceMean r = r.mean := by
  have count : (r.iter : α) = (r.samples.length : α) := by
    rw [samples_length most, ← Int.cast_natCast, Int.toNat_of_nonneg (by omega)]
  simp only [instanceMean, ChildResult.mean, accumulate_eq_sum, List.map_id', count]

omit [LinearOrder α] [Libm α] in
theorem aggregate_update (n : Nat) (records : Nat → ChildResult α) (r : ChildResult α) :
    aggregate (n + 1) (Function.update records n r) = aggregate n records + r.mean := by
  have before : ∀ i ∈ List.range n, (Function.update records n r i).mean = (records i).mean := by
    intro i member
    simp only [Function.update_of_ne (List.mem_range.mp member).ne]
  simp only [aggregate, List.sum_range_succ, List.map_congr_left before, Function.update_self]

omit [Field α] [LinearOrder α] [Libm α] in
theorem SoundRecords.update {n : Nat} {records : Nat → ChildResult α} (sound : SoundRecords n records)
    {r : ChildResult α} (ret : r.ret = 0) (least : 1 ≤ r.iter) (most : r.iter ≤ ssbMaxIterations) :
    SoundRecords (n + 1) (Function.update records n r) := by
  refine ⟨fun i lt => ?_, fun i lt => ?_, fun i lt => ?_⟩ <;> rcases eq_or_ne i n with rfl | other
  · rwa [Function.update_self]
  · simp only [Function.update_of_ne other]
    exact sound.ret i (by omega)
  · rwa [Function.update_self]
  · simp only [Function.update_of_ne other]
    exact sound.least i (by omega)
  · rwa [Function.update_self]
  · simp only [Function.update_of_ne other]
    exact sound.most i (by omega)

theorem reported_eq {b : Benchmark α} (higher : b.higherIsBetter = true) {n : Nat} (many : 1 < n)
    (few : n ≤ ssbMaxIterations) {records : Nat → ChildResult α} (sound : SoundRecords n records)
    (stats : BenchmarkStats α) (rand : Nat → Nat) :
    reportedThroughput b n records stats rand = aggregate n records / (n : α) := by
  have works : Works noFaults n := ⟨rfl, rfl, fun _ _ => rfl, fun _ _ => rfl⟩
  have range := sound_range sound
  have pooled : poolSamples b ((List.range n).map records) = (List.range n).map (fun i => (records i).mean) := by
    have room : n ≤ allValuesCapacity := few.trans (by decide)
    rw [poolSamples, if_pos higher, poolThroughput_eq (fun r member => (range r member).1),
      List.take_of_length_le (by simpa using room), List.map_map]
    exact List.map_congr_left (fun i member => instanceMean_eq (sound.least i (List.mem_range.mp member))
      (sound.most i (List.mem_range.mp member)))
  have length : (poolSamples b ((List.range n).map records)).length = n := by
    simp only [pooled, List.length_map, List.length_range]
  have written : recordsOf (fun i => .exits (records i)) n = (List.range n).map records := rfl
  rw [reportedThroughput, parallel_delivered b stats rand works (fun i lt => ⟨_, rfl, sound.ret i lt⟩), written,
    if_pos (by omega), (compute_own rand (by omega) stats).mean, length, pooled, aggregate]

/-- The reported throughput is the sum exactly if that sum is zero. -/
theorem throughput_sum_iff [IsStrictOrderedRing α] {b : Benchmark α} (higher : b.higherIsBetter = true) {n : Nat}
    (many : 1 < n) (few : n ≤ ssbMaxIterations) {records : Nat → ChildResult α} (sound : SoundRecords n records)
    (stats : BenchmarkStats α) (rand : Nat → Nat) :
    SumsInstances b n records stats rand ↔ aggregate n records = 0 := by
  have instances : (1 : α) < n := by exact_mod_cast many
  constructor
  · intro sums
    have sum := sums.sum
    rw [reported_eq higher many few sound, div_eq_iff (by positivity)] at sum
    by_contra nonzero
    exact instances.ne' (mul_left_cancel₀ nonzero (by rw [mul_one, ← sum]))
  · intro zero
    have reported := reported_eq higher many few sound stats rand
    simp only [zero, zero_div] at reported
    refine ⟨by rw [reported, zero], fun r room ret least most positive => ?_⟩
    rw [reported, reported_eq higher (by omega) room (sound.update ret least most), aggregate_update, zero, zero_add]
    positivity

def throughputBenchmark : Benchmark ℝ := { plainBenchmark ℝ with higherIsBetter := true }

theorem two_throughputs_iff :
    SumsInstances throughputBenchmark 2 (fun _ => fullRecord 5) (.zeroed ℝ) (fun _ => 0) ↔
      aggregate 2 (fun _ => fullRecord 5) = 0 :=
  throughput_sum_iff rfl (by decide) (by decide) (fullRecords_sound (by decide) (by decide)) _ _

/- Two instances with the mean 1. -/
theorem two_throughputs_averaged : SoundRecords 2 (fun _ => fullRecord 5) ∧
    ¬ SumsInstances throughputBenchmark 2 (fun _ => fullRecord 5) (.zeroed ℝ) (fun _ => 0) := by
  have sound : SoundRecords 2 (fun _ => fullRecord 5) := fullRecords_sound (by decide) (by decide)
  have mean : (fullRecord 5).mean = 1 := by
    have samples : (fullRecord 5).samples = List.replicate 5 1 := rfl
    norm_num [ChildResult.mean, samples]
  refine ⟨sound, fun sums => ?_⟩
  have total : aggregate 2 (fun _ => fullRecord 5) = 2 := by
    norm_num [aggregate, List.range_succ, mean]
  have sum := sums.sum
  rw [reported_eq rfl (by decide) (by decide) sound, total] at sum
  norm_num at sum

end ServMark
