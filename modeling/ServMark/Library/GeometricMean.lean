import Mathlib.Analysis.SpecialFunctions.Log.Basic
import Mathlib.Tactic

/-! The geometric mean of a list of positive reals, computed through logarithms: its order,
its quotients, the entries equal to one and weights. The mean of no entry is one. -/
namespace GeometricMean

noncomputable def geomMean (xs : List ℝ) : ℝ := Real.exp ((xs.map Real.log).sum / xs.length)

@[simp] theorem geomMean_nil : geomMean [] = 1 := by simp [geomMean]

theorem geomMean_pos (xs : List ℝ) : 0 < geomMean xs := Real.exp_pos _

theorem geomMean_mono {xs ys : List ℝ} (entries : List.Forall₂ (fun x y => 0 < x ∧ x ≤ y) xs ys) :
    geomMean xs ≤ geomMean ys := by
  have logs : List.Forall₂ (· ≤ ·) (xs.map Real.log) (ys.map Real.log) := by
    simp only [List.forall₂_map_left_iff, List.forall₂_map_right_iff]
    exact entries.imp (fun x y pair => Real.log_le_log pair.1 pair.2)
  simp only [geomMean, entries.length_eq]
  apply Real.exp_le_exp.mpr
  exact div_le_div_of_nonneg_right logs.sum_le_sum (Nat.cast_nonneg _)

section Families
variable {ι : Type}

theorem geomMean_div (items : List ι) {f g : ι → ℝ} (above : ∀ i ∈ items, 0 < f i) (below : ∀ i ∈ items, 0 < g i) :
    geomMean (items.map (fun i => f i / g i)) = geomMean (items.map f) / geomMean (items.map g) := by
  have logs : ((items.map (fun i => f i / g i)).map Real.log).sum =
      ((items.map f).map Real.log).sum - ((items.map g).map Real.log).sum := by
    induction items with
    | nil => simp
    | cons i items ih =>
      have tail := ih (fun j member => above j (List.mem_cons_of_mem _ member))
        (fun j member => below j (List.mem_cons_of_mem _ member))
      have head := Real.log_div (above i List.mem_cons_self).ne' (below i List.mem_cons_self).ne'
      simp only [List.map_cons, List.sum_cons, tail, head]
      ring
  simp only [geomMean, logs, List.length_map, sub_div, Real.exp_sub]

theorem sum_log_eq_zero_iff {xs : List ℝ} (positive : ∀ x ∈ xs, 0 < x) :
    (xs.map Real.log).sum = 0 ↔ xs.prod = 1 := by
  rw [← Real.log_list_prod (fun x member => (positive x member).ne')]
  constructor
  · exact Real.eq_one_of_pos_of_log_eq_zero (List.prod_pos positive)
  · intro one
    simp only [one, Real.log_one]

/-- Dropping entries that are one changes the mean, unless none is dropped or those that
stay have the product one. -/
theorem geomMean_filter_iff (items : List ι) (f : ι → ℝ) (kept : ι → Bool)
    (positive : ∀ i ∈ items, kept i = true → 0 < f i) (ones : ∀ i ∈ items, kept i = false → f i = 1) :
    geomMean ((items.filter kept).map f) = geomMean (items.map f) ↔
      (∀ i ∈ items, kept i = true) ∨ ((items.filter kept).map f).prod = 1 := by
  have logs : ((items.map f).map Real.log).sum = (((items.filter kept).map f).map Real.log).sum := by
    clear positive
    induction items with
    | nil => rfl
    | cons i items ih =>
      have tail := ih (fun j member => ones j (List.mem_cons_of_mem _ member))
      cases keeps : kept i with
      | true => rw [List.filter_cons_of_pos keeps, List.map_cons, List.map_cons, List.map_cons, List.map_cons,
          List.sum_cons, List.sum_cons, tail]
      | false => rw [List.filter_cons_of_neg (by simp [keeps]), List.map_cons, List.map_cons, List.sum_cons, tail,
          ones i List.mem_cons_self keeps, Real.log_one, zero_add]
  have stay : ∀ x ∈ (items.filter kept).map f, 0 < x := by
    intro x member
    obtain ⟨i, within, rfl⟩ := List.mem_map.mp member
    exact positive i (List.mem_of_mem_filter within) (List.of_mem_filter within)
  rw [← sum_log_eq_zero_iff stay, ← List.length_filter_eq_length_iff, geomMean, geomMean,
    Real.exp_eq_exp, logs, List.length_map, List.length_map]
  -- with a product other than one there are entries, and equal means have equal lengths
  rcases eq_or_ne (((items.filter kept).map f).map Real.log).sum 0 with zero | nonzero
  · rw [zero, zero_div, zero_div]
    exact iff_of_true rfl (Or.inr rfl)
  · have some_ : ((items.filter kept).length : ℝ) ≠ 0 := by
      intro none
      simp only [List.length_eq_zero_iff.mp (Nat.cast_eq_zero.mp none)] at nonzero
      exact nonzero rfl
    have all : (items.length : ℝ) ≠ 0 := by
      have le := List.length_filter_le kept items
      have positive : (items.filter kept).length ≠ 0 := by exact_mod_cast some_
      exact_mod_cast (by omega : items.length ≠ 0)
    simp only [or_iff_left nonzero, div_eq_div_iff some_ all, mul_right_inj' nonzero, Nat.cast_inj, eq_comm]

/-- The mean in which each entry has a weight. -/
noncomputable def weightedMean (items : List ι) (w f : ι → ℝ) : ℝ :=
  Real.exp ((items.map (fun i => w i * Real.log (f i))).sum / (items.map w).sum)

/-- The differences of two quantities cancel over all pairs of items. -/
def Uncorrelated (items : List ι) (w x : ι → ℝ) : Prop :=
  (items.map (fun i => (items.map (fun j => (w i - w j) * (x i - x j))).sum)).sum = 0

theorem uncorrelated_pair (i j : ι) (w x : ι → ℝ) : Uncorrelated [i, j] w x ↔ w i = w j ∨ x i = x j := by
  have sum : ([i, j].map (fun i' => ([i, j].map (fun j' => (w i' - w j') * (x i' - x j'))).sum)).sum =
      2 * ((w i - w j) * (x i - x j)) := by
    simp only [List.map_cons, List.map_nil, List.sum_cons, List.sum_nil]
    ring
  rw [Uncorrelated, sum, mul_eq_zero_iff_left two_ne_zero, mul_eq_zero, sub_eq_zero, sub_eq_zero]

theorem sum_differences (items : List ι) (w x : ι → ℝ) (a b : ℝ) :
    (items.map (fun j => (a - w j) * (b - x j))).sum =
      items.length * (a * b) - a * (items.map x).sum - b * (items.map w).sum +
        (items.map (fun j => w j * x j)).sum := by
  induction items with
  | nil => simp
  | cons i items ih =>
    simp only [List.map_cons, List.sum_cons, List.length_cons, Nat.cast_succ, ih]
    ring

theorem sum_pairs (first second : List ι) (w x : ι → ℝ) :
    (first.map (fun i => (second.map (fun j => (w i - w j) * (x i - x j))).sum)).sum =
      second.length * (first.map (fun i => w i * x i)).sum - (first.map w).sum * (second.map x).sum -
        (first.map x).sum * (second.map w).sum + first.length * (second.map (fun j => w j * x j)).sum := by
  induction first with
  | nil => simp
  | cons i first ih =>
    rw [List.map_cons, List.sum_cons, ih, sum_differences]
    simp only [List.map_cons, List.sum_cons, List.length_cons, Nat.cast_succ]
    ring

/-- Weights change the mean exactly if they are correlated with the logarithms. -/
theorem weightedMean_eq_iff {items : List ι} {w : ι → ℝ} (f : ι → ℝ) (positive : ∀ i ∈ items, 0 < w i) :
    geomMean (items.map f) = weightedMean items w f ↔ Uncorrelated items w (fun i => Real.log (f i)) := by
  rcases items.eq_nil_or_concat' with rfl | ⟨front, last, rfl⟩
  · simp [weightedMean, Uncorrelated]
  · have some_ : ((front ++ [last]).length : ℝ) ≠ 0 := by
      simp only [List.length_append, List.length_singleton]
      exact_mod_cast (Nat.succ_ne_zero front.length)
    have total : ((front ++ [last]).map w).sum ≠ 0 := by
      refine (List.sum_pos _ (fun x member => ?_) (by simp)).ne'
      obtain ⟨i, within, rfl⟩ := List.mem_map.mp member
      exact positive i within
    have logs : ((front ++ [last]).map f).map Real.log = (front ++ [last]).map (fun i => Real.log (f i)) :=
      List.map_map
    rw [geomMean, weightedMean, Uncorrelated, sum_pairs, Real.exp_eq_exp, List.length_map, logs,
      div_eq_div_iff some_ total]
    constructor
    · intro same
      linear_combination (-2) * same
    · intro cancel
      linear_combination (-1 / 2) * cancel

end Families

end GeometricMean
