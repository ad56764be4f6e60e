import Mathlib.Data.List.GetD
import ServMark.Stats
import ServMark.Library.Ordered

/-! The bootstrap interval of stats_bootstrap_percentile: in order and within the data whatever
rand() returns, and together with all of stats_compute in the unit of the data. -/
namespace ServMark
open Ordered

variable {α : Type} [Field α] [LinearOrder α]

/-- The values drawn for one resample. -/
def resample (rand : Nat → Nat) (values : List α) (round : Nat) : List α :=
  (List.range values.length).map
    (fun i => values.getD (rand (round * values.length + i) % values.length) 0)

/-- The array means as stats_sort leaves it. -/
def bootstrapMeans [Libm α] (rand : Nat → Nat) (values : List α) (nResamples : Nat) : List α :=
  statsSort ((List.range nResamples).map (fun round => (statsMeanStddev (resample rand values round)).1))

def lowerCell (nResamples : Nat) : Nat := 25 * nResamples / 1000

def upperCell (nResamples : Nat) : Nat :=
  if 975 * nResamples / 1000 ≥ nResamples then nResamples - 1 else 975 * nResamples / 1000

theorem bootstrap_eq [Libm α] (rand : Nat → Nat) {values : List α} (enough : 2 ≤ values.length) {nResamples : Nat}
    (many : 100 ≤ nResamples) : statsBootstrapPercentile rand values nResamples =
      some ((bootstrapMeans rand values nResamples).getD (lowerCell nResamples) 0,
        (bootstrapMeans rand values nResamples).getD (upperCell nResamples) 0) := by
  have goes : ¬ (values.length < 2 ∨ nResamples < 100) := by omega
  simp only [statsBootstrapPercentile, if_neg goes]
  rfl

theorem lowerCell_le_upperCell (nResamples : Nat) : lowerCell nResamples ≤ upperCell nResamples := by
  unfold lowerCell upperCell
  split <;> omega

theorem upperCell_lt {nResamples : Nat} (some_ : 0 < nResamples) : upperCell nResamples < nResamples := by
  unfold upperCell
  split <;> omega

omit [LinearOrder α] in
theorem resample_mem (rand : Nat → Nat) {values : List α} {round : Nat} {v : α}
    (member : v ∈ resample rand values round) : v ∈ values := by
  obtain ⟨i, inside, rfl⟩ := List.mem_map.mp member
  have some_ : 0 < values.length := Nat.zero_lt_of_lt (List.mem_range.mp inside)
  have cell := Nat.mod_lt (rand (round * values.length + i)) some_
  rw [List.getD_eq_getElem _ _ cell]
  exact List.getElem_mem cell

omit [LinearOrder α] in
@[simp] theorem resample_length (rand : Nat → Nat) (values : List α) (round : Nat) :
    (resample rand values round).length = values.length := by
  simp [resample]

section Means
variable [Libm α] (rand : Nat → Nat) (values : List α) (nResamples : Nat)

@[simp] theorem bootstrapMeans_length : (bootstrapMeans rand values nResamples).length = nResamples := by
  change (inOrder _).length = _
  simp

theorem bootstrapMeans_sorted : (bootstrapMeans rand values nResamples).SortedLE := inOrder_sorted _

variable {rand values nResamples}

/-- Each mean lies within the bounds of the data. -/
theorem bootstrapMeans_between [IsStrictOrderedRing α] (some_ : values ≠ []) {low high : α}
    (within : ∀ v ∈ values, low ≤ v ∧ v ≤ high) {m : α} (member : m ∈ bootstrapMeans rand values nResamples) :
    low ≤ m ∧ m ≤ high := by
  have drawn : m ∈ (List.range nResamples).map (fun round => (statsMeanStddev (resample rand values round)).1) :=
    mem_inOrder.mp member
  obtain ⟨round, _, rfl⟩ := List.mem_map.mp drawn
  apply mean_between
  · apply List.ne_nil_of_length_pos
    rw [resample_length]
    exact List.length_pos_iff.mpr some_
  · exact fun v own => within v (resample_mem rand own)

end Means

/-- For every stream of rand() results the call succeeds, reads two cells of the array means, and
the interval it returns is in order and between the smallest and the largest value. -/
theorem bootstrap_within [Libm α] [IsStrictOrderedRing α] (rand : Nat → Nat) (values : List α)
    (enough : 2 ≤ values.length) (nResamples : Nat) (many : 100 ≤ nResamples) :
    (bootstrapMeans rand values nResamples).length = nResamples ∧
    lowerCell nResamples < nResamples ∧ upperCell nResamples < nResamples ∧
    ∃ lower upper, statsBootstrapPercentile rand values nResamples = some (lower, upper) ∧
      (bootstrapMeans rand values nResamples)[lowerCell nResamples]? = some lower ∧
      (bootstrapMeans rand values nResamples)[upperCell nResamples]? = some upper ∧
      ∃ lowest ∈ values, ∃ highest ∈ values, (∀ v ∈ values, lowest ≤ v ∧ v ≤ highest) ∧
        lowest ≤ lower ∧ lower ≤ upper ∧ upper ≤ highest := by
  have some_ : values ≠ [] := List.ne_nil_of_length_pos (by omega)
  have upper : upperCell nResamples < nResamples := upperCell_lt (by omega)
  have lower : lowerCell nResamples < nResamples := (lowerCell_le_upperCell nResamples).trans_lt upper
  have length := bootstrapMeans_length rand values nResamples
  have readsLower : lowerCell nResamples < (bootstrapMeans rand values nResamples).length := by rwa [length]
  have readsUpper : upperCell nResamples < (bootstrapMeans rand values nResamples).length := by rwa [length]
  obtain ⟨lowest, low, highest, high, within⟩ := extremes some_
  refine ⟨length, lower, upper, _, _, ?_, List.getElem?_eq_getElem readsLower, List.getElem?_eq_getElem readsUpper,
    lowest, low, highest, high, within, ?_, ?_, ?_⟩
  · rw [bootstrap_eq rand enough many, List.getD_eq_getElem _ _ readsLower, List.getD_eq_getElem _ _ readsUpper]
  · exact (bootstrapMeans_between some_ within (List.getElem_mem readsLower)).1
  · exact (bootstrapMeans_sorted rand values nResamples).getElem_le_getElem_of_le (lowerCell_le_upperCell nResamples)
  · exact (bootstrapMeans_between some_ within (List.getElem_mem readsUpper)).2

theorem two_values_within :
    (bootstrapMeans (fun i => i) [1, (2 : ℝ)] 100).length = 100 ∧ lowerCell 100 < 100 ∧ upperCell 100 < 100 ∧
    ∃ lower upper, statsBootstrapPercentile (fun i => i) [1, (2 : ℝ)] 100 = some (lower, upper) ∧
      (bootstrapMeans (fun i => i) [1, (2 : ℝ)] 100)[lowerCell 100]? = some lower ∧
      (bootstrapMeans (fun i => i) [1, (2 : ℝ)] 100)[upperCell 100]? = some upper ∧
      ∃ lowest ∈ [1, (2 : ℝ)], ∃ highest ∈ [1, (2 : ℝ)], (∀ v ∈ [1, (2 : ℝ)], lowest ≤ v ∧ v ≤ highest) ∧
        lowest ≤ lower ∧ lower ≤ upper ∧ upper ≤ highest :=
  bootstrap_within (fun i => i) [1, (2 : ℝ)] (by decide) 100 (by decide)

/- Another unit. -/
section Unit
variable {k : ℝ} (positive : 0 < k) (rand : Nat → Nat) (values : List ℝ)

theorem meanStddev_scaled (nonneg : 0 ≤ k) : statsMeanStddev (values.map (fun v => k * v)) =
    (k * (statsMeanStddev values).1, k * (statsMeanStddev values).2) := by
  by_cases none : values = []
  · simp [none, statsMeanStddev]
  · simpa only [add_zero] using meanStddev_affine nonneg 0 none

theorem getD_scaled (k : ℝ) (xs : List ℝ) (i : Nat) : (xs.map (fun x => k * x)).getD i 0 = k * xs.getD i 0 := by
  have cell := List.getD_map (fun x => k * x) (l := xs) (d := 0) (n := i)
  rwa [mul_zero] at cell

theorem resample_scaled (k : ℝ) (round : Nat) :
    resample rand (values.map (fun v => k * v)) round = (resample rand values round).map (fun v => k * v) := by
  unfold resample
  rw [List.length_map, List.map_map]
  apply List.map_congr_left
  intro i _
  exact getD_scaled k values _

include positive in
theorem bootstrapMeans_scaled (nResamples : Nat) : bootstrapMeans rand (values.map (fun v => k * v)) nResamples =
    (bootstrapMeans rand values nResamples).map (fun m => k * m) := by
  have mono : Monotone (fun m => k * m) := fun _ _ le => mul_le_mul_of_nonneg_left le positive.le
  have means : (fun round => (statsMeanStddev (resample rand (values.map (fun v => k * v)) round)).1) =
      (fun m => k * m) ∘ (fun round => (statsMeanStddev (resample rand values round)).1) := by
    funext round
    simp only [resample_scaled, meanStddev_scaled _ positive.le, Function.comp_apply]
  unfold bootstrapMeans
  rw [means, ← List.map_map]
  exact inOrder_map mono _

include positive in
theorem bootstrap_scaled (nResamples : Nat) :
    statsBootstrapPercentile rand (values.map (fun v => k * v)) nResamples =
      (statsBootstrapPercentile rand values nResamples).map (fun ci => (k * ci.1, k * ci.2)) := by
  by_cases goes : 2 ≤ values.length ∧ 100 ≤ nResamples
  · have enough : 2 ≤ (values.map (fun v => k * v)).length := by simpa only [List.length_map] using goes.1
    rw [bootstrap_eq rand enough goes.2, bootstrap_eq rand goes.1 goes.2, bootstrapMeans_scaled positive]
    simp only [getD_scaled, Option.map_some]
  · have stays : values.length < 2 ∨ nResamples < 100 := by omega
    simp only [statsBootstrapPercentile, List.length_map, if_pos stays, Option.map_none]

/-- The second record is the first one in a unit of which k make the old one; the samples apart. -/
structure ScaledStats (k : ℝ) (plain scaled : BenchmarkStats ℝ) : Prop where
  iterations : scaled.iterations = plain.iterations
  cv : scaled.cv = plain.cv
  converged : scaled.converged = plain.converged
  reliability : scaled.reliability = plain.reliability
  mean : scaled.mean = k * plain.mean
  stddev : scaled.stddev = k * plain.stddev
  sem : scaled.sem = k * plain.sem
  ciLower : scaled.ciLower = k * plain.ciLower
  ciUpper : scaled.ciUpper = k * plain.ciUpper

theorem statsSem_scaled (nonneg : 0 ≤ k) :
    statsSem (values.map (fun v => k * v)) = k * statsSem values := by
  simp only [statsSem, meanStddev_scaled values nonneg, List.length_map, mul_div_assoc]

include positive in
/-- A deviation divided by the mean has no unit, and the mean is zero in both units or in none. -/
theorem relative_scaled (mean deviation : ℝ) :
    (if k * mean ≠ 0 then k * deviation / |k * mean| else 1) = if mean ≠ 0 then deviation / |mean| else 1 := by
  have same : k * mean ≠ 0 ↔ mean ≠ 0 := mul_ne_zero_iff_left positive.ne'
  simp only [same, abs_mul, abs_of_pos positive, mul_div_mul_left _ _ positive.ne']

include positive in
theorem semRel_scaled : semRel (values.map (fun v => k * v)) = semRel values := by
  simp only [semRel, statsSem_scaled values positive.le, meanStddev_scaled values positive.le]
  exact relative_scaled positive _ _

end Unit

/-- In another unit of the samples stats_compute gives the same record in that unit. -/
theorem compute_scaled (rand : Nat → Nat) (values : List ℝ) (enough : 2 ≤ values.length) {k : ℝ} (positive : 0 < k)
    (out : BenchmarkStats ℝ) : (statsCompute rand (values.map (fun v => k * v)) out).1 = 0 ∧
      (statsCompute rand values out).1 = 0 ∧
      ScaledStats k (statsCompute rand values out).2 (statsCompute rand (values.map (fun v => k * v)) out).2 := by
  have goes : ¬ values.length < 2 := by omega
  have cv := relative_scaled positive (statsMeanStddev values).1 (statsMeanStddev values).2
  have ci : (statsBootstrapPercentile rand (values.map (fun v => k * v)) ssbBootstrapResamples).getD (0, 0) =
      (k * ((statsBootstrapPercentile rand values ssbBootstrapResamples).getD (0, 0)).1,
        k * ((statsBootstrapPercentile rand values ssbBootstrapResamples).getD (0, 0)).2) := by
    rw [bootstrap_scaled positive]
    cases statsBootstrapPercentile rand values ssbBootstrapResamples <;> simp
  simp only [statsCompute, List.length_map, if_neg goes, meanStddev_scaled values positive.le,
    statsSem_scaled values positive.le, semRel_scaled positive, ci, cv, true_and]
  exact ⟨rfl, rfl, rfl, rfl, rfl, rfl, rfl, rfl, rfl⟩

theorem two_values_scaled : (statsCompute (fun i => i) ([1, (2 : ℝ)].map (fun v => 1000 * v)) (.zeroed ℝ)).1 = 0 ∧
    (statsCompute (fun i => i) [1, (2 : ℝ)] (.zeroed ℝ)).1 = 0 ∧
    ScaledStats 1000 (statsCompute (fun i => i) [1, (2 : ℝ)] (.zeroed ℝ)).2
      (statsCompute (fun i => i) ([1, (2 : ℝ)].map (fun v => 1000 * v)) (.zeroed ℝ)).2 :=
  compute_scaled (fun i => i) [1, (2 : ℝ)] (by decide) (by norm_num) (.zeroed ℝ)

end ServMark
