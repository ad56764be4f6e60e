import ServMark.Types
import ServMark.Library.Sample

/-! The statistics a subtest record is filled with: stats.c up to the bootstrap. -/
namespace ServMark

section Loops
variable {α β : Type} [AddMonoid α]

/-- The loop "sum = 0; for x in xs, sum += f(x)". -/
def accumulate (f : β → α) (xs : List β) : α := xs.foldl (fun sum x => sum + f x) 0

theorem accumulate_eq_sum (f : β → α) (xs : List β) : accumulate f xs = (xs.map f).sum := by
  have general : ∀ start : α, xs.foldl (fun sum x => sum + f x) start = start + (xs.map f).sum := by
    induction xs with
    | nil => intro start; simp
    | cons x xs ih => intro start; simp [ih, add_assoc]
  simpa [accumulate] using general 0

end Loops

section Labels
variable {α : Type} [Field α] [LinearOrder α]

def statsReliabilityLabel (cv : α) : String :=
  if cv < ssbCvStable then "stable"
  else if cv < ssbCvModerate then "moderate"
  else if cv < ssbCvHigh then "high"
  else "unreliable"

def reliabilityLabels : List String := ["stable", "moderate", "high", "unreliable"]

theorem label_mem (cv : α) : statsReliabilityLabel cv ∈ reliabilityLabels := by
  unfold statsReliabilityLabel
  split
  · decide
  · split
    · decide
    · split <;> decide

end Labels

variable {α : Type} [Field α] [LinearOrder α] [Libm α]

/-- Mean and standard deviation; both zero on no value, the deviation zero on one. -/
def statsMeanStddev (values : List α) : α × α :=
  if values.length < 1 then (0, 0)
  else
    let m := accumulate (fun v => v) values / (values.length : α)
    if values.length < 2 then (m, 0)
    else
      let ssq := accumulate (fun v => (v - m) * (v - m)) values
      (m, Libm.sqrt (ssq / ((values.length : α) - 1)))

def logSum (sum : α) : List α → Option α
  | [] => some sum
  | v :: rest => if v ≤ 0 then none else logSum (sum + Libm.log v) rest

def statsGeometricMean (values : List α) : α :=
  match logSum 0 values with
  | none => 0
  | some sum => Libm.exp (sum / (values.length : α))

/-- qsort with _compare_double. -/
def statsSort (values : List α) : List α := values.mergeSort (fun a b => decide (a ≤ b))

/- The bootstrap interval for one stream of rand() results, allocations succeeding.
Resample number round reads the stream from index round * count on. -/
def statsBootstrapPercentile (rand : Nat → Nat) (values : List α) (nResamples : Nat) :
    Option (α × α) :=
  if values.length < 2 ∨ nResamples < 100 then none
  else
    let count := values.length
    let sample := fun round => (List.range count).map
      (fun i => values.getD (rand (round * count + i) % count) 0)
    let means := statsSort ((List.range nResamples).map (fun round => (statsMeanStddev (sample round)).1))
    let lo := 25 * nResamples / 1000
    let hi := 975 * nResamples / 1000
    let hi := if hi ≥ nResamples then nResamples - 1 else hi
    some (means.getD lo 0, means.getD hi 0)

def statsSem (values : List α) : α :=
  (statsMeanStddev values).2 / Libm.sqrt (values.length : α)

/-- SEM divided by the mean: the number both the loop and stats_compute compare. -/
def semRel (values : List α) : α :=
  if (statsMeanStddev values).1 ≠ 0 then statsSem values / |(statsMeanStddev values).1| else 1

/-- Return code and record: fewer than two values leave the record as it was. -/
def statsCompute (rand : Nat → Nat) (values : List α) (out : BenchmarkStats α) :
    Int × BenchmarkStats α :=
  if values.length < 2 then (-1, out)
  else
    let mean := (statsMeanStddev values).1
    let stddev := (statsMeanStddev values).2
    let cv := if mean ≠ 0 then stddev / |mean| else 1
    let ci := (statsBootstrapPercentile rand values ssbBootstrapResamples).getD (0, 0)
    (0, { mean := mean
          stddev := stddev
          sem := statsSem values
          cv := cv
          ciLower := ci.1
          ciUpper := ci.2
          iterations := values.length
          converged := decide (semRel values ≤ statsSemBound)
          reliability := some (statsReliabilityLabel cv)
          rawValues := values })

omit [LinearOrder α] in
theorem mean_eq_sum (values : List α) :
    (statsMeanStddev values).1 = values.sum / (values.length : α) := by
  unfold statsMeanStddev
  split
  · rename_i empty
    have h : values = [] := List.eq_nil_of_length_eq_zero (by omega)
    simp [h]
  · split <;> simp [accumulate_eq_sum]

section Mean
variable {β : Type} [Field β] [LinearOrder β] [IsStrictOrderedRing β] [Libm β]

/-- The mean is no lower than a lower bound of the values and no higher than an upper one. -/
theorem mean_between {values : List β} (some_ : values ≠ []) {low high : β}
    (within : ∀ v ∈ values, low ≤ v ∧ v ≤ high) :
    low ≤ (statsMeanStddev values).1 ∧ (statsMeanStddev values).1 ≤ high := by
  have size : (0 : β) < values.length := by exact_mod_cast List.length_pos_iff.mpr some_
  have least := List.card_nsmul_le_sum values low (fun v member => (within v member).1)
  have most := List.sum_le_card_nsmul values high (fun v member => (within v member).2)
  rw [nsmul_eq_mul] at least most
  rw [mean_eq_sum]
  constructor
  · rwa [le_div_iff₀ size, mul_comm]
  · rwa [div_le_iff₀ size, mul_comm]

end Mean

/-- Over the reals the two are the sample's mean and the root of its variance. -/
theorem meanStddev_eq (xs : List ℝ) : statsMeanStddev xs = (Sample.mean xs, √(Sample.variance xs)) := by
  have mean : (statsMeanStddev xs).1 = Sample.mean xs := mean_eq_sum xs
  have stddev : (statsMeanStddev xs).2 = √(Sample.variance xs) := by
    by_cases few : xs.length < 2
    · simp only [Sample.variance_few few, Real.sqrt_zero]
      unfold statsMeanStddev
      simp only [if_pos few]
      split <;> rfl
    · have some_ : ¬ xs.length < 1 := by omega
      have square : (fun v => (v - xs.sum / xs.length) * (v - xs.sum / xs.length)) =
          fun v => (v - Sample.mean xs) ^ 2 := by
        funext v
        simp only [sq, Sample.mean]
      simp only [statsMeanStddev, if_neg some_, if_neg few, accumulate_eq_sum, List.map_id', square]
      rfl
  exact Prod.ext mean stddev

/-- Another unit and another zero for the values: the mean follows both, the deviation the unit. -/
theorem meanStddev_affine {k : ℝ} (nonneg : 0 ≤ k) (c : ℝ) {values : List ℝ} (some_ : values ≠ []) :
    statsMeanStddev (values.map (fun v => k * v + c)) =
      (k * (statsMeanStddev values).1 + c, k * (statsMeanStddev values).2) := by
  simp only [meanStddev_eq, Sample.mean_affine k c some_, Sample.variance_affine k c]
  rw [Real.sqrt_mul (sq_nonneg k), Real.sqrt_sq nonneg]

/-- A record is computed from a list of samples: their number, their mean, a real label. -/
structure OwnStats (samples : List α) (stats : BenchmarkStats α) : Prop where
  iterations : stats.iterations = samples.length
  nonempty : 1 ≤ samples.length
  mean : stats.mean = samples.sum / (samples.length : α)
  reliability : ∃ label ∈ reliabilityLabels, stats.reliability = some label

theorem compute_refuses (rand : Nat → Nat) {values : List α} (few : values.length < 2)
    (out : BenchmarkStats α) : statsCompute rand values out = (-1, out) := by
  simp [statsCompute, few]

theorem compute_own (rand : Nat → Nat) {values : List α} (enough : 2 ≤ values.length)
    (out : BenchmarkStats α) : OwnStats values (statsCompute rand values out).2 := by
  have h : ¬ values.length < 2 := by omega
  constructor
  · simp [statsCompute, h]
  · omega
  · simp [statsCompute, h, mean_eq_sum]
  · simp only [statsCompute, if_neg h]
    exact ⟨_, label_mem _, rfl⟩

theorem compute_iterations (rand : Nat → Nat) {values : List α} (enough : 2 ≤ values.length)
    (out : BenchmarkStats α) : (statsCompute rand values out).2.iterations = values.length :=
  (compute_own rand enough out).iterations

end ServMark
