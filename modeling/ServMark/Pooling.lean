import ServMark.Parallel

/-! How many samples harness_run_parallel pools, and which cells the copy of stats_compute
then writes. Cells are 8-byte words of the array result->subtests. -/
namespace ServMark

/- The words of one subtest_result_t: bench; mean, stddev, sem, cv, ci_lower, ci_upper;
iterations with converged; reliability; raw_values; normalized_score; status. -/
def wordsBeforeRaw : Nat := 1 + 6 + 1 + 1

def subtestWords : Nat := wordsBeforeRaw + ssbMaxIterations + 1 + 1

def rawWord (slot k : Nat) : Nat := slot * subtestWords + wordsBeforeRaw + k

def normalizedScoreWord (slot : Nat) : Nat := slot * subtestWords + wordsBeforeRaw + ssbMaxIterations

/-- memcpy(out->raw_values, values, count * sizeof(double)). -/
def copiedWords (slot count : Nat) : List Nat := (List.range count).map (rawWord slot)

def InRawValues (slot word : Nat) : Prop := ∃ k, k < ssbMaxIterations ∧ word = rawWord slot k

theorem copy_inside_iff (slot count : Nat) :
    (∀ word ∈ copiedWords slot count, InRawValues slot word) ↔ count ≤ ssbMaxIterations := by
  constructor
  · intro inside
    by_contra long
    have last : rawWord slot ssbMaxIterations ∈ copiedWords slot count :=
      List.mem_map.mpr ⟨ssbMaxIterations, List.mem_range.mpr (by omega), rfl⟩
    obtain ⟨k, lt, eq⟩ := inside _ last
    have same : ssbMaxIterations = k := Nat.add_left_cancel eq
    omega
  · intro short word member
    obtain ⟨k, lt, rfl⟩ := List.mem_map.mp member
    exact ⟨k, Nat.lt_of_lt_of_le (List.mem_range.mp lt) short, rfl⟩

/-- The first word behind the array is the score of the same subtest. -/
theorem copy_hits_score {slot count : Nat} (long : ssbMaxIterations < count) :
    normalizedScoreWord slot ∈ copiedWords slot count :=
  List.mem_map.mpr ⟨ssbMaxIterations, List.mem_range.mpr long, rfl⟩

section Store
variable {α β : Type}

theorem samples_length {r : ChildResult α} (most : r.iter ≤ ssbMaxIterations) :
    r.samples.length = r.iter.toNat := by
  simp [ChildResult.samples]
  omega

theorem samples_total {results : List (ChildResult α)}
    (range : ∀ r ∈ results, 1 ≤ r.iter ∧ r.iter ≤ ssbMaxIterations) :
    ((results.flatMap ChildResult.samples).length : Int) = (results.map (fun r => r.iter)).sum := by
  induction results with
  | nil => rfl
  | cons r results ih =>
    have own := range r List.mem_cons_self
    rw [List.flatMap_cons, List.length_append, Nat.cast_add, List.map_cons, List.sum_cons,
      ih (fun r member => range r (List.mem_cons_of_mem _ member)), samples_length own.2,
      Int.toNat_of_nonneg (by omega)]

theorem poolLatency_eq (results : List (ChildResult α)) :
    poolLatency results = (results.flatMap ChildResult.samples).take allValuesCapacity :=
  Bounded.foldl_pushes allValuesCapacity _ [] results

/-- Successful children, each with a record the runner can send. -/
structure SoundRecords (n : Nat) (records : Nat → ChildResult α) : Prop where
  ret : ∀ i, i < n → (records i).ret = 0
  least : ∀ i, i < n → 1 ≤ (records i).iter
  most : ∀ i, i < n → (records i).iter ≤ ssbMaxIterations

theorem sound_range {n : Nat} {records : Nat → ChildResult α} (sound : SoundRecords n records) :
    ∀ r ∈ (List.range n).map records, 1 ≤ r.iter ∧ r.iter ≤ ssbMaxIterations := by
  intro r member
  obtain ⟨i, lt, rfl⟩ := List.mem_map.mp member
  have lt : i < n := List.mem_range.mp lt
  exact ⟨sound.least i lt, sound.most i lt⟩

end Store

variable {α : Type} [Field α] [LinearOrder α] [Libm α]

omit [LinearOrder α] [Libm α] in
theorem poolThroughput_eq {results : List (ChildResult α)} (ran : ∀ r ∈ results, r.iter > 0) :
    poolThroughput results = (results.map instanceMean).take allValuesCapacity := by
  have pushes := Bounded.foldl_pushes allValuesCapacity (fun r => [instanceMean r]) [] results
  rw [List.nil_append, ← List.map_eq_flatMap] at pushes
  rw [← pushes, poolThroughput]
  apply List.foldl_ext
  intro all r member
  simp [ran r member, storeValue]

/-- Means of instances for throughput, all iterations of all instances for latency. -/
def pooledCount (b : Benchmark α) (results : List (ChildResult α)) : Int :=
  if b.higherIsBetter then results.length else (results.map (fun r => r.iter)).sum

omit [LinearOrder α] [Libm α] in
theorem pool_length (b : Benchmark α) {results : List (ChildResult α)}
    (range : ∀ r ∈ results, 1 ≤ r.iter ∧ r.iter ≤ ssbMaxIterations) :
    ((poolSamples b results).length : Int) = min (allValuesCapacity : Int) (pooledCount b results) := by
  unfold poolSamples pooledCount
  split
  · rw [poolThroughput_eq (fun r member => by have := range r member; omega)]
    simp
  · rw [poolLatency_eq, List.length_take, ← samples_total range]
    omega

omit [Field α] [LinearOrder α] [Libm α] in
theorem pooledCount_ge (b : Benchmark α) {results : List (ChildResult α)}
    (range : ∀ r ∈ results, 1 ≤ r.iter ∧ r.iter ≤ ssbMaxIterations) :
    (results.length : Int) ≤ pooledCount b results := by
  unfold pooledCount
  split
  · rfl
  · have least : ∀ iter ∈ results.map (fun r => r.iter), (1 : Int) ≤ iter := by
      intro iter member
      obtain ⟨r, within, rfl⟩ := List.mem_map.mp member
      exact (range r within).1
    simpa using List.card_nsmul_le_sum _ 1 least

/-- The samples reach stats_compute and its copy into raw_values of the subtest at this
index stays inside that array. -/
def PooledInside (slot : Nat) (run : ParallelRun α) : Prop :=
  ∃ handed, run.pooled = some handed ∧ handed.length ≤ ssbMaxIterations ∧
    ∀ word ∈ copiedWords slot handed.length, InRawValues slot word

section Sound
variable {n : Nat} {records : Nat → ChildResult α} (sound : SoundRecords n records)
include sound

theorem parallel_pooled (b : Benchmark α) (some_ : 0 < n) (stats : BenchmarkStats α) (rand : Nat → Nat) :
    (harnessRunParallel b n noFaults (fun i => .exits (records i)) stats rand).pooled =
      some (poolSamples b ((List.range n).map records)) := by
  have works : Works noFaults n := ⟨rfl, rfl, fun _ _ => rfl, fun _ _ => rfl⟩
  have positive : (poolSamples b ((List.range n).map records)).length > 0 := by
    have length := pool_length b (sound_range sound)
    have count := pooledCount_ge b (sound_range sound)
    rw [List.length_map, List.length_range] at count
    have capacity : (0 : Int) < allValuesCapacity := by decide
    omega
  rw [parallel_delivered b stats rand works (fun i lt => ⟨_, rfl, sound.ret i lt⟩)]
  exact congrArg ParallelRun.pooled (if_pos positive)

end Sound

/-- The copy stays inside raw_values exactly if, for throughput, there are at most 31
instances and, for latency, at most 31 iterations in all of them together. -/
theorem parallel_inside_iff (b : Benchmark α) {n : Nat} (many : 1 < n) {records : Nat → ChildResult α}
    (sound : SoundRecords n records) (slot : Nat) (stats : BenchmarkStats α) (rand : Nat → Nat) :
    PooledInside slot (harnessRunParallel b n noFaults (fun i => .exits (records i)) stats rand) ↔
      if b.higherIsBetter then n ≤ ssbMaxIterations
      else ((List.range n).map (fun i => (records i).iter)).sum ≤ ssbMaxIterations := by
  have length := pool_length b (sound_range sound)
  have bounded : (poolSamples b ((List.range n).map records)).length ≤ ssbMaxIterations ↔
      pooledCount b ((List.range n).map records) ≤ ssbMaxIterations := by
    have capacity : (ssbMaxIterations : Int) < allValuesCapacity := by decide
    omega
  have inside : PooledInside slot (harnessRunParallel b n noFaults (fun i => .exits (records i)) stats rand) ↔
      pooledCount b ((List.range n).map records) ≤ ssbMaxIterations := by
    simp only [PooledInside, parallel_pooled sound b (by omega) stats rand, Option.some.injEq,
      exists_eq_left', copy_inside_iff, and_self, bounded]
  rw [inside, pooledCount]
  split <;> simp [Function.comp_def]

def fullRecord (iter : Int) : ChildResult ℝ := ⟨0, iter, Vector.replicate ssbMaxIterations 1⟩

theorem fullRecords_sound {n : Nat} {iter : Int} (least : 1 ≤ iter) (most : iter ≤ ssbMaxIterations) :
    SoundRecords n (fun _ => fullRecord iter) := ⟨fun _ _ => rfl, fun _ _ => least, fun _ _ => most⟩

/- Two latency instances with 15 iterations each fit. -/
theorem fifteen_twice_inside :
    PooledInside 0 (harnessRunParallel (plainBenchmark ℝ) 2 noFaults (fun _ => .exits (fullRecord 15))
      (.zeroed ℝ) (fun _ => 0)) ↔
      if (plainBenchmark ℝ).higherIsBetter then 2 ≤ ssbMaxIterations
      else ((List.range 2).map (fun _ => (fullRecord 15).iter)).sum ≤ ssbMaxIterations :=
  parallel_inside_iff (plainBenchmark ℝ) (by decide) (fullRecords_sound (by decide) (by decide)) 0 _ _

theorem sixteen_twice_count {handed : List ℝ}
    (pooled : (harnessRunParallel (plainBenchmark ℝ) 2 noFaults (fun _ => .exits (fullRecord 16))
      (.zeroed ℝ) (fun _ => 0)).pooled = some handed) : handed.length = 32 := by
  have sound : SoundRecords 2 (fun _ => fullRecord 16) := fullRecords_sound (by decide) (by decide)
  have length := pool_length (plainBenchmark ℝ) (sound_range sound)
  rw [parallel_pooled sound _ (by decide)] at pooled
  rw [Option.some.inj pooled] at length
  have count : min (allValuesCapacity : Int) (pooledCount (plainBenchmark ℝ)
      ((List.range 2).map (fun _ => fullRecord 16))) = 32 := by decide
  omega

/- Two latency instances with 16 iterations each: 32 samples, the last of them on top of the
subtest's score. -/
theorem sixteen_twice_overwrites :
    (plainBenchmark ℝ).numThreads = 1 ∧ SoundRecords 2 (fun _ => fullRecord 16) ∧
      ¬ PooledInside 0 (harnessRunParallel (plainBenchmark ℝ) 2 noFaults (fun _ => .exits (fullRecord 16))
        (.zeroed ℝ) (fun _ => 0)) ∧
      ∀ handed, (harnessRunParallel (plainBenchmark ℝ) 2 noFaults (fun _ => .exits (fullRecord 16))
        (.zeroed ℝ) (fun _ => 0)).pooled = some handed → normalizedScoreWord 0 ∈ copiedWords 0 handed.length := by
  refine ⟨rfl, fullRecords_sound (by decide) (by decide), ?_, fun handed pooled => copy_hits_score ?_⟩
  · rintro ⟨handed, pooled, short, _⟩
    rw [sixteen_twice_count pooled] at short
    exact absurd short (by decide)
  · rw [sixteen_twice_count pooled]
    decide

end ServMark
