import Mathlib.Data.List.GetD
import ServMark.Stats
import ServMark.StudentT
import ServMark.Library.Esd
import ServMark.Library.ExchangeSort

/-! The outliers that stats_detect_outliers flags, and the generalised test it names: the loop leaves at
the first removal that is not significant, at a level of its own. -/
namespace ServMark

section Code
variable {α : Type} [Field α] [LinearOrder α] [Libm α] (quantile : α → α → α) (alpha : α)

/-- The critical value for a working set of r values. -/
def esdLambda (r : Nat) : α :=
  let alphaR := alpha / ((2 : Nat) * ((r : α) + 1))
  let tCrit := quantile ((2 : Nat) * alphaR) ((r : α) - (2 : Nat))
  tCrit * ((r : α) - 1) / Libm.sqrt ((r : α) * ((r : α) - (2 : Nat) + tCrit * tCrit))

/-- The loop over the values of sorted, each with its place in indices, and the mask. A working set
without a furthest value has deviation zero and left the loop before. -/
def esdLoop : Nat → List (α × Nat) → List Bool → List Bool
  | 0, _, mask => mask
  | steps + 1, cells, mask =>
    if cells.length ≤ 2 then mask
    else
      let mean := (statsMeanStddev (cells.map Prod.fst)).1
      let stddev := (statsMeanStddev (cells.map Prod.fst)).2
      if stddev < ratio 1 (10 ^ 10) then mask
      else
        match Esd.scan (fun c => |c.1 - mean|) cells 0 0 none with
        | (maxDev, some maxIdx) =>
          if maxDev / stddev > esdLambda quantile alpha cells.length then
            esdLoop steps (cells.eraseIdx maxIdx) (mask.set ((cells.map Prod.snd).getD maxIdx 0) true)
          else mask
        | (_, none) => mask

/-- The values in order, with the places they come from. -/
def indexed (values : List α) : List (α × Nat) := ExchangeSort.exchangeSort values.zipIdx

/-- The array outlier_mask, for any function in the place of t_dist_quantile. -/
def statsDetectOutliersBy (values : List α) (maxOutliers : Int) : List Bool :=
  if values.length < 3 then List.replicate values.length false
  else esdLoop quantile alpha maxOutliers.toNat (indexed values) (List.replicate values.length false)

def statsDetectOutliers (lgamma : α → α) (values : List α) (alpha : α) (maxOutliers : Int) : List Bool :=
  statsDetectOutliersBy (tDistQuantile lgamma) alpha values maxOutliers

end Code

theorem indexed_perm (values : List ℝ) : (indexed values).Perm values.zipIdx := ExchangeSort.exchangeSort_perm _

@[simp] theorem indexed_length (values : List ℝ) : (indexed values).length = values.length := by
  rw [(indexed_perm values).length_eq, List.length_zipIdx]

theorem indexed_places (values : List ℝ) : ((indexed values).map Prod.snd).Perm (List.range values.length) := by
  have places := (indexed_perm values).map Prod.snd
  rwa [List.zipIdx_map_snd, ← List.range_eq_range'] at places

section Test
variable (quantile : ℝ → ℝ → ℝ) (alpha : ℝ) (values : List ℝ) (most : Nat)

/-- The i-th removal is significant at a level of the quantile. -/
def Significant (i : Nat) (level : ℝ) : Prop :=
  Esd.critical quantile values.length i level < Esd.statistic (indexed values) (i - 1)

/-- The last significant removal, the i-th at the level alpha/(n - i + 1), or none. -/
def LastSignificant (r : Nat) : Prop :=
  IsGreatest {i | i = 0 ∨ 1 ≤ i ∧ i ≤ most ∧
    Significant quantile values i (alpha / ((values.length : ℝ) - i + 1))} r

/-- The mask has the values of all removals up to the last significant one, and no other. -/
def FlagsOutliers (mask : List Bool) : Prop :=
  ∃ r, LastSignificant quantile alpha values most r ∧ mask = Esd.flags (indexed values) values.length r

/-- The level that the code takes the i-th removal at. -/
noncomputable def codeLevel (n i : Nat) : ℝ := alpha / ((n : ℝ) - i + (2 : Nat))

/-- With r = n - k values left the code divides alpha by r + 1, and not by r. -/
theorem esdLambda_eq {n k : Nat} (inside : k < n) :
    esdLambda quantile alpha (n - k) = Esd.critical quantile n (k + 1) (codeLevel alpha n (k + 1)) := by
  have left : ((n - k : Nat) : ℝ) = (n : ℝ) - k := by push_cast [inside.le]; ring
  have level : ((2 : Nat) : ℝ) * (alpha / ((2 : Nat) * (((n - k : Nat) : ℝ) + 1))) = codeLevel alpha n (k + 1) := by
    rw [codeLevel, left]
    push_cast
    have double : (2 : ℝ) * (alpha / (2 * ((n : ℝ) - k + 1))) = alpha / ((n : ℝ) - k + 1) := by
      rw [← mul_div_assoc, mul_div_mul_left _ _ two_ne_zero]
    rw [double]
    ring_nf
  have degrees : ((n - k : Nat) : ℝ) - (2 : Nat) = (n : ℝ) - (k + 1 : Nat) - 1 := by
    rw [left]
    push_cast
    ring
  unfold esdLambda Esd.critical
  simp only [level, degrees]
  generalize quantile (codeLevel alpha n (k + 1)) ((n : ℝ) - (k + 1 : Nat) - 1) = t
  have top : t * (((n - k : Nat) : ℝ) - 1) = ((n : ℝ) - (k + 1 : Nat)) * t := by
    rw [left]
    push_cast
    ring
  have under : ((n - k : Nat) : ℝ) * ((n : ℝ) - (k + 1 : Nat) - 1 + t * t) =
      ((n : ℝ) - (k + 1 : Nat) - 1 + t ^ (2 : Nat)) * ((n : ℝ) - (k + 1 : Nat) + 1) := by
    rw [left]
    push_cast
    ring
  rw [top, under]
  rfl

variable {values}

/-- The statistic is what the code compares, if some value is off the mean. -/
theorem scan_statistic {k : Nat} (few : k < values.length) (spread : 1 / 10 ^ 10 ≤
    √(Sample.variance ((Esd.remaining (indexed values) k).map Prod.fst))) :
    ∃ maxDev maxIdx mark, Esd.scan (Esd.deviation (Esd.remaining (indexed values) k)) (Esd.remaining (indexed values) k)
        0 0 none = (maxDev, some maxIdx) ∧
      maxDev / √(Sample.variance ((Esd.remaining (indexed values) k).map Prod.fst)) =
        Esd.statistic (indexed values) k ∧
      maxIdx = Esd.extreme (Esd.remaining (indexed values) k) ∧ Esd.removed (indexed values) k = some mark ∧
      ((Esd.remaining (indexed values) k).map Prod.snd).getD maxIdx 0 = mark := by
  have higher : ∃ c ∈ Esd.remaining (indexed values) k, 0 < Esd.deviation (Esd.remaining (indexed values) k) c := by
    by_contra none
    push Not at none
    have flat : Sample.variance ((Esd.remaining (indexed values) k).map Prod.fst) = 0 := by
      apply Sample.variance_flat
      intro x member
      obtain ⟨c, among, rfl⟩ := List.mem_map.mp member
      exact sub_eq_zero.mp (abs_nonpos_iff.mp (none c among))
    rw [flat, Real.sqrt_zero] at spread
    norm_num at spread
  obtain ⟨inside, result⟩ := Esd.scan_peak higher none
  obtain ⟨_, taken⟩ := Esd.removed_eq (indexed values) (by rwa [indexed_length] : k < (indexed values).length)
  refine ⟨_, _, _, result, ?_, rfl, taken, ?_⟩
  · rw [Esd.statistic, Esd.extreme, List.getElem?_eq_getElem inside]
    rfl
  · have place : Esd.peak (Esd.deviation (Esd.remaining (indexed values) k)) (Esd.remaining (indexed values) k) <
        ((Esd.remaining (indexed values) k).map Prod.snd).length := by rwa [List.length_map]
    rw [List.getD_eq_getElem _ _ place, List.getElem_map]
    rfl

/-- One round of the loop: a significant removal is made, any other ends the loop. -/
theorem esdLoop_round {k : Nat} (few : k + 2 < values.length) (spread : 1 / 10 ^ 10 ≤
    √(Sample.variance ((Esd.remaining (indexed values) k).map Prod.fst))) (steps : Nat) :
    (Significant quantile values (k + 1) (codeLevel alpha values.length (k + 1)) →
      esdLoop quantile alpha (steps + 1) (Esd.remaining (indexed values) k)
          (Esd.flags (indexed values) values.length k) =
        esdLoop quantile alpha steps (Esd.remaining (indexed values) (k + 1))
          (Esd.flags (indexed values) values.length (k + 1))) ∧
    (¬ Significant quantile values (k + 1) (codeLevel alpha values.length (k + 1)) →
      esdLoop quantile alpha (steps + 1) (Esd.remaining (indexed values) k)
          (Esd.flags (indexed values) values.length k) = Esd.flags (indexed values) values.length k) := by
  obtain ⟨maxDev, maxIdx, mark, result, statistic, rfl, taken, place⟩ := scan_statistic (by omega) spread
  have size : (Esd.remaining (indexed values) k).length = values.length - k := by
    rw [Esd.remaining_length _ (by rw [indexed_length]; omega), indexed_length]
  have several : ¬ values.length - k ≤ 2 := by omega
  have wide : ¬ √(Sample.variance ((Esd.remaining (indexed values) k).map Prod.fst)) < ratio 1 (10 ^ 10) := by
    rw [ratio, Nat.cast_pow, Nat.cast_one, Nat.cast_ofNat]
    exact not_lt.mpr spread
  have deviation : (fun c : ℝ × Nat => |c.1 - Sample.mean ((Esd.remaining (indexed values) k).map Prod.fst)|) =
      Esd.deviation (Esd.remaining (indexed values) k) := rfl
  have significant : maxDev / √(Sample.variance ((Esd.remaining (indexed values) k).map Prod.fst)) >
      esdLambda quantile alpha (values.length - k) ↔
        Significant quantile values (k + 1) (codeLevel alpha values.length (k + 1)) := by
    rw [statistic, esdLambda_eq quantile alpha (by omega : k < values.length)]
    rfl
  have round : esdLoop quantile alpha (steps + 1) (Esd.remaining (indexed values) k)
      (Esd.flags (indexed values) values.length k) =
      if maxDev / √(Sample.variance ((Esd.remaining (indexed values) k).map Prod.fst)) >
        esdLambda quantile alpha (values.length - k) then
          esdLoop quantile alpha steps (Esd.remaining (indexed values) (k + 1))
            (Esd.flags (indexed values) values.length (k + 1))
      else Esd.flags (indexed values) values.length k := by
    rw [esdLoop]
    simp only [if_neg several, meanStddev_eq, if_neg wide, deviation, result, place, size,
      ← Esd.flags_succ _ _ _ taken]
    rfl
  rw [round]
  exact ⟨fun own => if_pos (significant.mpr own), fun other => if_neg (mt significant.mp other)⟩

/-- Every working set of the first removals has a deviation that the loop goes on with. -/
def SpreadOut (values : List ℝ) (most : Nat) : Prop :=
  ∀ i < most, ratio 1 (10 ^ 10) ≤ √(Sample.variance ((Esd.remaining (indexed values) i).map Prod.fst))

/-- The whole loop flags an initial run of removals that are significant at its own level. -/
theorem esdLoop_run {most : Nat} (few : most + 2 ≤ values.length) (spread : SpreadOut values most)
    (steps : Nat) {k : Nat} (left : k + steps = most) : ∃ s, k ≤ s ∧ s ≤ most ∧
      (∀ j, k ≤ j → j < s → Significant quantile values (j + 1) (codeLevel alpha values.length (j + 1))) ∧
      (s < most → ¬ Significant quantile values (s + 1) (codeLevel alpha values.length (s + 1))) ∧
      esdLoop quantile alpha steps (Esd.remaining (indexed values) k) (Esd.flags (indexed values) values.length k) =
        Esd.flags (indexed values) values.length s := by
  induction steps generalizing k with
  | zero => exact ⟨k, le_rfl, left.le, fun j first last => absurd last (by omega), fun less => absurd less (by omega), rfl⟩
  | succ steps ih =>
    have wide := spread k (by omega)
    rw [ratio, Nat.cast_pow, Nat.cast_one, Nat.cast_ofNat] at wide
    obtain ⟨goes, stops⟩ := esdLoop_round quantile alpha (by omega) wide steps
    by_cases own : Significant quantile values (k + 1) (codeLevel alpha values.length (k + 1))
    · obtain ⟨s, above, within, run, last, result⟩ := ih (k := k + 1) (by omega)
      refine ⟨s, by omega, within, fun j first before => ?_, last, (goes own).trans result⟩
      rcases Nat.eq_or_lt_of_le first with rfl | later
      · exact own
      · exact run j later before
    · exact ⟨k, le_rfl, by omega, fun j first last => absurd last (by omega), fun _ => own, stops own⟩

theorem detect_run {most : Nat} (few : most + 2 ≤ values.length) (enough : 3 ≤ values.length)
    (spread : SpreadOut values most) : ∃ s ≤ most,
      (∀ i, 1 ≤ i → i ≤ s → Significant quantile values i (codeLevel alpha values.length i)) ∧
      (s < most → ¬ Significant quantile values (s + 1) (codeLevel alpha values.length (s + 1))) ∧
      statsDetectOutliersBy quantile alpha values most = Esd.flags (indexed values) values.length s := by
  obtain ⟨s, _, within, run, last, result⟩ := esdLoop_run quantile alpha few spread most (Nat.zero_add most)
  refine ⟨s, within, fun i first before => ?_, last, ?_⟩
  · obtain ⟨j, rfl⟩ : ∃ j, i = j + 1 := ⟨i - 1, by omega⟩
    exact run j (Nat.zero_le j) before
  · rw [Esd.flags_zero] at result
    rw [statsDetectOutliersBy, if_neg (by omega), Int.toNat_natCast]
    exact result

theorem flags_determine {most r s : Nat} (few : most + 2 ≤ values.length) (first : r ≤ most) (second : s ≤ most)
    (same : Esd.flags (indexed values) values.length r = Esd.flags (indexed values) values.length s) : r = s := by
  have places := indexed_places values
  have own : ((indexed values).map Prod.snd).Nodup := places.nodup_iff.mpr List.nodup_range
  have bounded : ∀ mark ∈ (indexed values).map Prod.snd, mark < (indexed values).length := by
    intro mark member
    rw [indexed_length]
    exact List.mem_range.mp (places.mem_iff.mp member)
  rw [← indexed_length values] at same
  rcases lt_trichotomy r s with less | equal | greater
  · exact absurd same (Esd.flags_injective own bounded less (by rw [indexed_length]; omega))
  · exact equal
  · exact absurd same.symm (Esd.flags_injective own bounded greater (by rw [indexed_length]; omega))

theorem lastSignificant_exists (most : Nat) : ∃ r, LastSignificant quantile alpha values most r ∧ r ≤ most := by
  classical
  have finite : {i | i = 0 ∨ 1 ≤ i ∧ i ≤ most ∧
      Significant quantile values i (alpha / ((values.length : ℝ) - i + 1))}.Finite := by
    apply (Set.finite_Iic most).subset
    rintro i (rfl | ⟨_, within, _⟩)
    · exact Nat.zero_le most
    · exact within
  obtain ⟨r, among, greatest⟩ := finite.exists_maximal ⟨0, Or.inl rfl⟩
  refine ⟨r, ⟨among, fun i other => ?_⟩, ?_⟩
  · by_contra above
    exact above (greatest other (not_le.mp above).le)
  · rcases among with rfl | ⟨_, within, _⟩
    · exact Nat.zero_le most
    · exact within

end Test

/-- The mask is that of the test exactly if, at the code's level, every removal up to the last
significant one is significant and the next one, if there is a next, is not. -/
theorem outliers_flagged_iff (quantile : ℝ → ℝ → ℝ) (alpha : ℝ) (values : List ℝ) (enough : 3 ≤ values.length)
    (most : Nat) (few : most + 2 ≤ values.length) (spread : SpreadOut values most) :
    FlagsOutliers quantile alpha values most (statsDetectOutliersBy quantile alpha values most) ↔
      ∃ r, LastSignificant quantile alpha values most r ∧
        (∀ i, 1 ≤ i → i ≤ r → Significant quantile values i (codeLevel alpha values.length i)) ∧
        (r < most → ¬ Significant quantile values (r + 1) (codeLevel alpha values.length (r + 1))) := by
  obtain ⟨s, within, run, last, result⟩ := detect_run quantile alpha few enough spread
  obtain ⟨top, greatest, bound⟩ := lastSignificant_exists quantile alpha most
  constructor
  · rintro ⟨r, own, mask⟩
    obtain rfl := own.unique greatest
    obtain rfl := flags_determine few within bound (result.symm.trans mask)
    exact ⟨s, own, run, last⟩
  · rintro ⟨r, own, before, behind⟩
    obtain rfl := own.unique greatest
    refine ⟨r, own, ?_⟩
    rcases lt_trichotomy s r with less | rfl | greater
    · exact absurd (before (s + 1) (Nat.succ_pos s) less) (last (by omega))
    · exact result
    · exact absurd (run (r + 1) (Nat.succ_pos r) greater) (behind (by omega))

/- Two values as far from the mean as each other: the second removal is the more significant one. -/
section Masked

theorem masked_indexed : indexed [-1, 0, 0, (1 : ℝ)] = [(-1, 0), (0, 1), (0, 2), (1, 3)] := by
  norm_num [indexed, ExchangeSort.exchangeSort, ExchangeSort.passes, ExchangeSort.pass]

theorem masked_first : Esd.extreme [((-1 : ℝ), 0), (0, 1), (0, 2), (1, 3)] = 0 := by
  apply Esd.peak_unique (by decide)
  · simp [Esd.deviation, Sample.mean]
  · exact fun j before => absurd before (Nat.not_lt_zero j)

theorem masked_remaining : Esd.remaining (indexed [-1, 0, 0, (1 : ℝ)]) 1 = [(0, 1), (0, 2), (1, 3)] := by
  rw [Esd.remaining, Esd.remaining, masked_indexed, masked_first]
  rfl

theorem masked_second : Esd.extreme [((0 : ℝ), 1), (0, 2), (1, 3)] = 2 := by
  apply Esd.peak_unique (by decide)
  · norm_num [Esd.deviation, Sample.mean]
  · intro j before
    interval_cases j <;> norm_num [Esd.deviation, Sample.mean]

theorem masked_variance_first :
    Sample.variance ((Esd.remaining (indexed [-1, 0, 0, (1 : ℝ)]) 0).map Prod.fst) = 2 / 3 := by
  rw [Esd.remaining, masked_indexed]
  norm_num [Sample.variance, Sample.mean]

theorem masked_variance_second :
    Sample.variance ((Esd.remaining (indexed [-1, 0, 0, (1 : ℝ)]) 1).map Prod.fst) = 1 / 3 := by
  rw [masked_remaining]
  norm_num [Sample.variance, Sample.mean]

theorem masked_spread : SpreadOut [-1, 0, 0, 1] 2 := by
  intro i below
  rw [ratio]
  interval_cases i
  · rw [masked_variance_first]
    exact Real.le_sqrt_of_sq_le (by norm_num)
  · rw [masked_variance_second]
    exact Real.le_sqrt_of_sq_le (by norm_num)

theorem masked_statistic_first : Esd.statistic (indexed [-1, 0, 0, (1 : ℝ)]) 0 = 1 / √(2 / 3) := by
  rw [Esd.statistic, masked_variance_first, Esd.remaining, masked_indexed, masked_first]
  norm_num [Esd.deviation, Sample.mean]

theorem masked_statistic_second : Esd.statistic (indexed [-1, 0, 0, (1 : ℝ)]) 1 = 2 / 3 / √(1 / 3) := by
  rw [Esd.statistic, masked_variance_second, masked_remaining, masked_second]
  norm_num [Esd.deviation, Sample.mean]

/-- The statistics and critical values for a quantile that is the same at every level. -/
theorem masked_significant_first (c level : ℝ) : Significant (fun _ _ => c) [-1, 0, 0, 1] 1 level ↔
    3 * c / √((2 + c ^ 2) * 4) < 1 / √(2 / 3) := by
  rw [Significant, Nat.sub_self, masked_statistic_first, Esd.critical]
  norm_num

theorem masked_significant_second (c level : ℝ) : Significant (fun _ _ => c) [-1, 0, 0, 1] 2 level ↔
    2 * c / √((1 + c ^ 2) * 3) < 2 / 3 / √(1 / 3) := by
  rw [Significant, masked_statistic_second, Esd.critical]
  norm_num

/-- A low critical value makes both removals significant. -/
theorem low_first (level : ℝ) : Significant (fun _ _ => 1) [-1, 0, 0, 1] 1 level := by
  rw [masked_significant_first, div_lt_div_iff₀ (by positivity) (by positivity), one_mul]
  have left : √(2 / 3) < 9 / 10 := (Real.sqrt_lt' (by norm_num)).mpr (by norm_num)
  have right : 34 / 10 < √((2 + 1 ^ 2) * 4) := Real.lt_sqrt_of_sq_lt (by norm_num)
  linarith

theorem low_second (level : ℝ) : Significant (fun _ _ => 1) [-1, 0, 0, 1] 2 level := by
  rw [masked_significant_second, div_lt_div_iff₀ (by positivity) (by positivity)]
  have left : √(1 / 3) < 6 / 10 := (Real.sqrt_lt' (by norm_num)).mpr (by norm_num)
  have right : 24 / 10 < √((1 + 1 ^ 2) * 3) := Real.lt_sqrt_of_sq_lt (by norm_num)
  linarith

/-- A high one the second removal only. -/
theorem high_first (level : ℝ) : ¬ Significant (fun _ _ => 3) [-1, 0, 0, 1] 1 level := by
  rw [masked_significant_first, not_lt, div_le_div_iff₀ (by positivity) (by positivity), one_mul]
  have left : 8 / 10 < √(2 / 3) := Real.lt_sqrt_of_sq_lt (by norm_num)
  have right : √((2 + (3 : ℝ) ^ 2) * 4) < 7 := (Real.sqrt_lt' (by norm_num)).mpr (by norm_num)
  calc √((2 + (3 : ℝ) ^ 2) * 4) ≤ 7 := right.le
    _ ≤ 3 * 3 * (8 / 10) := by norm_num
    _ ≤ 3 * 3 * √(2 / 3) := mul_le_mul_of_nonneg_left left.le (by norm_num)

theorem high_second (level : ℝ) : Significant (fun _ _ => 3) [-1, 0, 0, 1] 2 level := by
  rw [masked_significant_second, div_lt_div_iff₀ (by positivity) (by positivity)]
  have left : √(1 / 3) < 59 / 100 := (Real.sqrt_lt' (by norm_num)).mpr (by norm_num)
  have right : 54 / 10 < √((1 + 3 ^ 2) * 3) := Real.lt_sqrt_of_sq_lt (by norm_num)
  linarith

theorem last_of_second {quantile : ℝ → ℝ → ℝ} {alpha : ℝ} {values : List ℝ}
    (second : ∀ level, Significant quantile values 2 level) : LastSignificant quantile alpha values 2 2 := by
  refine ⟨Or.inr ⟨by omega, le_rfl, second _⟩, ?_⟩
  rintro i (rfl | ⟨_, within, _⟩)
  · exact Nat.zero_le 2
  · exact within

theorem two_outliers_flagged : FlagsOutliers (fun _ _ => 1) (1 / 20) [-1, 0, 0, 1] 2
    (statsDetectOutliersBy (fun _ _ => 1) (1 / 20) [-1, 0, 0, (1 : ℝ)] (2 : Nat)) := by
  refine (outliers_flagged_iff (fun _ _ => 1) (1 / 20) [-1, 0, 0, 1] (by decide) 2 (by decide) masked_spread).mpr
    ⟨2, last_of_second low_second, ?_, fun less => absurd less (lt_irrefl 2)⟩
  intro i first last
  interval_cases i
  · exact low_first _
  · exact low_second _

/-- The second removal is significant, and the code leaves at the first. -/
theorem masked_outliers_missed : SpreadOut [-1, 0, 0, 1] 2 ∧
    ¬ FlagsOutliers (fun _ _ => 3) (1 / 20) [-1, 0, 0, 1] 2
      (statsDetectOutliersBy (fun _ _ => 3) (1 / 20) [-1, 0, 0, (1 : ℝ)] (2 : Nat)) := by
  refine ⟨masked_spread, ?_⟩
  rintro ⟨r, last, mask⟩
  obtain rfl := last.unique (last_of_second high_second)
  obtain ⟨s, within, run, _, result⟩ :=
    detect_run (fun _ _ => 3) (1 / 20) (by decide : 2 + 2 ≤ [-1, 0, 0, (1 : ℝ)].length) (by decide) masked_spread
  have none : s = 0 := by
    by_contra some_
    exact high_first _ (run 1 le_rfl (by omega))
  have equal := flags_determine (by decide : 2 + 2 ≤ [-1, 0, 0, (1 : ℝ)].length) within le_rfl (result.symm.trans mask)
  omega

end Masked

end ServMark
