import Mathlib.Data.Bool.Count
import ServMark.Library.Loops
import ServMark.Outliers

/-! The outliers that stats_detect_outliers flags with any function in the place of its critical
value: the loop peels off extremes. -/
namespace ServMark

section Code
variable {α : Type} [Field α] [LinearOrder α] [Libm α] (lambda : Nat → α)

/-- The indices that the loop flags, one after the other. -/
def peeled : Nat → List (α × Nat) → List Nat
  | 0, _ => []
  | steps + 1, cells =>
    if cells.length ≤ 2 then []
    else
      let mean := (statsMeanStddev (cells.map Prod.fst)).1
      let stddev := (statsMeanStddev (cells.map Prod.fst)).2
      if stddev < ratio 1 (10 ^ 10) then []
      else
        match Esd.scan (fun c => |c.1 - mean|) cells 0 0 none with
        | (maxDev, some maxIdx) =>
          if maxDev / stddev > lambda cells.length then
            (cells.map Prod.snd).getD maxIdx 0 :: peeled steps (cells.eraseIdx maxIdx)
          else []
        | (_, none) => []

def setFlags (mask : List Bool) (places : List Nat) : List Bool :=
  places.foldl (fun mask place => mask.set place true) mask

def outlierPlaces (values : List α) (maxOutliers : Int) : List Nat :=
  if values.length < 3 then [] else peeled lambda maxOutliers.toNat (indexed values)

/-- The array outlier_mask, for any critical value of a working set. -/
def outlierMask (values : List α) (maxOutliers : Int) : List Bool :=
  setFlags (List.replicate values.length false) (outlierPlaces lambda values maxOutliers)

variable (quantile : α → α → α) (alpha : α)

theorem esdLoop_flags (steps : Nat) (cells : List (α × Nat)) (mask : List Bool) :
    esdLoop quantile alpha steps cells mask = setFlags mask (peeled (esdLambda quantile alpha) steps cells) := by
  induction steps generalizing cells mask with
  | zero => rfl
  | succ steps ih =>
    rw [esdLoop, peeled]
    dsimp only
    split
    · rfl
    · split
      · rfl
      · generalize Esd.scan (fun c => |c.1 - (statsMeanStddev (cells.map Prod.fst)).1|) cells 0 0 none = found
        obtain ⟨maxDev, _ | maxIdx⟩ := found
        · rfl
        · dsimp only
          split
          · exact ih _ _
          · rfl

/-- With the critical value of the source this is what stats_detect_outliers computes. -/
theorem outlierMask_lambda (values : List α) (maxOutliers : Int) :
    statsDetectOutliersBy quantile alpha values maxOutliers =
      outlierMask (esdLambda quantile alpha) values maxOutliers := by
  unfold statsDetectOutliersBy outlierMask outlierPlaces
  split
  · rfl
  · exact esdLoop_flags quantile alpha _ _ _

end Code

section Peel
variable (lambda : Nat → ℝ)

/-- A value that no other exceeds, or that exceeds no other. -/
def Extreme (cells : List (ℝ × Nat)) (x : ℝ) : Prop := (∀ c ∈ cells, c.1 ≤ x) ∨ ∀ c ∈ cells, x ≤ c.1

/-- The value furthest from any point is an extreme one. -/
theorem furthest_extreme {cells : List (ℝ × Nat)} {x mean : ℝ} (most : ∀ c ∈ cells, |c.1 - mean| ≤ |x - mean|) :
    Extreme cells x := by
  rcases le_total mean x with above | below
  · refine Or.inl (fun c member => ?_)
    have le := (le_abs_self _).trans (most c member)
    rw [abs_of_nonneg (sub_nonneg.mpr above)] at le
    linarith
  · refine Or.inr (fun c member => ?_)
    have le := (neg_le_abs _).trans (most c member)
    rw [abs_of_nonpos (sub_nonpos.mpr below)] at le
    linarith

/-- One turn of the loop ends it, or flags an extreme of at least three values and removes it. -/
theorem peeled_step (steps : Nat) (cells : List (ℝ × Nat)) : peeled lambda (steps + 1) cells = [] ∨
    ∃ e, ∃ h : e < cells.length, 2 < cells.length ∧ Extreme cells cells[e].1 ∧
      peeled lambda (steps + 1) cells = cells[e].2 :: peeled lambda steps (cells.eraseIdx e) := by
  rw [peeled]
  dsimp only
  split
  · exact Or.inl rfl
  · rename_i several
    split
    · exact Or.inl rfl
    · rcases Esd.scan_cases (fun c : ℝ × Nat => |c.1 - (statsMeanStddev (cells.map Prod.fst)).1|) cells 0 0 none with
        ⟨-, result⟩ | ⟨e, inside, -, most, -, result⟩
      · rw [result]
        exact Or.inl rfl
      · rw [result, Nat.zero_add]
        dsimp only
        split
        · refine Or.inr ⟨e, inside, not_le.mp several, furthest_extreme most, ?_⟩
          rw [List.getD_eq_getElem _ _ (by rwa [List.length_map]), List.getElem_map]
        · exact Or.inl rfl

theorem peeled_subset (steps : Nat) (cells : List (ℝ × Nat)) : peeled lambda steps cells ⊆ cells.map Prod.snd := by
  induction steps generalizing cells with
  | zero => exact List.nil_subset _
  | succ steps ih =>
    rcases peeled_step lambda steps cells with stop | ⟨e, inside, -, -, result⟩
    · rw [stop]
      exact List.nil_subset _
    · rw [result]
      refine List.cons_subset.mpr ⟨List.mem_map_of_mem (List.getElem_mem inside), fun place later => ?_⟩
      exact ((List.eraseIdx_sublist _ _).map Prod.snd).subset (ih _ later)

theorem peeled_length (steps : Nat) (cells : List (ℝ × Nat)) :
    (peeled lambda steps cells).length ≤ steps ∧ (peeled lambda steps cells).length ≤ cells.length - 2 := by
  induction steps generalizing cells with
  | zero => exact ⟨le_rfl, Nat.zero_le _⟩
  | succ steps ih =>
    rcases peeled_step lambda steps cells with stop | ⟨e, inside, several, -, result⟩
    · rw [stop]
      exact ⟨Nat.zero_le _, Nat.zero_le _⟩
    · obtain ⟨turns, left⟩ := ih (cells.eraseIdx e)
      rw [List.length_eraseIdx_of_lt inside] at left
      rw [result, List.length_cons]
      omega

/-- The mark of a removed cell is not among those left. -/
theorem mark_removed {cells : List (ℝ × Nat)} (own : (cells.map Prod.snd).Nodup) {e : Nat} (inside : e < cells.length) :
    cells[e].2 ∉ (cells.eraseIdx e).map Prod.snd := by
  have perm : ((cells[e] :: cells.eraseIdx e).map Prod.snd).Perm (cells.map Prod.snd) :=
    (List.getElem_cons_eraseIdx_perm inside).map Prod.snd
  rw [List.map_cons] at perm
  exact (List.nodup_cons.mp (perm.nodup_iff.mpr own)).1

theorem peeled_nodup (steps : Nat) {cells : List (ℝ × Nat)} (own : (cells.map Prod.snd).Nodup) :
    (peeled lambda steps cells).Nodup := by
  induction steps generalizing cells with
  | zero => exact List.nodup_nil
  | succ steps ih =>
    rcases peeled_step lambda steps cells with stop | ⟨e, inside, -, -, result⟩
    · rw [stop]
      exact List.nodup_nil
    · have rest : ((cells.eraseIdx e).map Prod.snd).Nodup := own.sublist ((List.eraseIdx_sublist _ _).map Prod.snd)
      rw [result]
      exact List.nodup_cons.mpr ⟨fun again => mark_removed own inside (peeled_subset lambda _ _ again), ih rest⟩

/-- What is flagged was an extreme of what was left then: of the values on its two sides one is flagged
with it. -/
theorem peeled_sides (steps : Nat) {cells : List (ℝ × Nat)} {a b c : ℝ × Nat} (low : a ∈ cells) (mid : b ∈ cells)
    (high : c ∈ cells) (left : a.1 < b.1) (right : b.1 < c.1) (own : (cells.map Prod.snd).Nodup)
    (flagged : b.2 ∈ peeled lambda steps cells) : a.2 ∈ peeled lambda steps cells ∨ c.2 ∈ peeled lambda steps cells := by
  induction steps generalizing cells with
  | zero => cases flagged
  | succ steps ih =>
    rcases peeled_step lambda steps cells with stop | ⟨e, inside, -, extreme, result⟩
    · rw [stop] at flagged
      cases flagged
    · have rest : ((cells.eraseIdx e).map Prod.snd).Nodup := own.sublist ((List.eraseIdx_sublist _ _).map Prod.snd)
      have kept : ∀ x ∈ cells, x = cells[e] ∨ x ∈ cells.eraseIdx e := fun x member =>
        List.mem_cons.mp ((List.getElem_cons_eraseIdx_perm inside).mem_iff.mpr member)
      rw [result] at flagged ⊢
      rcases kept a low with rfl | lowLeft
      · exact Or.inl List.mem_cons_self
      · rcases kept c high with rfl | highLeft
        · exact Or.inr List.mem_cons_self
        · rcases kept b mid with rfl | midLeft
          · rcases extreme with most | least
            · exact absurd (most c high) (not_le.mpr right)
            · exact absurd (least a low) (not_le.mpr left)
          · rcases List.mem_cons.mp flagged with same | later
            · exact absurd (same ▸ List.mem_map_of_mem midLeft) (mark_removed own inside)
            · exact (ih lowLeft midLeft highLeft rest later).imp (List.mem_cons_of_mem _) (List.mem_cons_of_mem _)

end Peel

/- The mask. -/

theorem setFlags_getElem (places : List Nat) (mask : List Bool) {i : Nat} (inside : i < mask.length) :
    (setFlags mask places)[i]? = some (decide (i ∈ places) || mask[i]) := by
  induction places generalizing mask with
  | nil => simp [setFlags, inside]
  | cons place places ih =>
    have step : setFlags mask (place :: places) = setFlags (mask.set place true) places := rfl
    rw [step, ih _ (by simpa using inside)]
    rcases eq_or_ne place i with rfl | other
    · simp
    · simp [List.getElem_set_ne other, other.symm]

@[simp] theorem setFlags_length (places : List Nat) (mask : List Bool) : (setFlags mask places).length = mask.length := by
  induction places generalizing mask with
  | nil => rfl
  | cons place places ih =>
    have step : setFlags mask (place :: places) = setFlags (mask.set place true) places := rfl
    rw [step, ih, List.length_set]

theorem setFlags_eq (places : List Nat) (n : Nat) :
    setFlags (List.replicate n false) places = (List.range n).map (fun i => decide (i ∈ places)) := by
  apply List.ext_getElem?
  intro i
  rcases Nat.lt_or_ge i n with inside | outside
  · rw [setFlags_getElem _ _ (by rwa [List.length_replicate]), List.getElem?_map, List.getElem?_range inside]
    simp
  · rw [List.getElem?_eq_none (by simpa using outside), List.getElem?_eq_none (by simpa using outside)]

theorem flags_count {places : List Nat} {n : Nat} (single : places.Nodup) (inside : ∀ place ∈ places, place < n) :
    ((List.range n).map (fun i => decide (i ∈ places))).count true = places.length := by
  have perm : ((List.range n).filter (fun i => i ∈ places)).Perm places := by
    refine Loops.kept_perm List.nodup_range single (fun i => ?_)
    rw [List.mem_range, decide_eq_true_eq]
    exact ⟨fun both => both.2, fun member => ⟨inside i member, member⟩⟩
  rw [← perm.length_eq, ← List.countP_eq_length_filter, List.count, List.countP_map]
  exact List.countP_congr (fun i _ => by simp)

section Mask
variable (lambda : Nat → ℝ) {values : List ℝ}

theorem places_peeled (enough : 3 ≤ values.length) (maxOutliers : Int) :
    outlierPlaces lambda values maxOutliers = peeled lambda maxOutliers.toNat (indexed values) := if_neg (by omega)

theorem outlierMask_eq (values : List ℝ) (maxOutliers : Int) : outlierMask lambda values maxOutliers =
    (List.range values.length).map (fun i => decide (i ∈ outlierPlaces lambda values maxOutliers)) := setFlags_eq _ _

theorem unflagged_iff {maxOutliers : Int} {place : Nat} (inside : place < values.length) :
    (outlierMask lambda values maxOutliers)[place]? = some false ↔ place ∉ outlierPlaces lambda values maxOutliers := by
  rw [outlierMask_eq, List.getElem?_map, List.getElem?_range inside, Option.map_some, Option.some.injEq,
    decide_eq_false_iff_not]

/-- Between two values that are left none is flagged. -/
theorem left_between (enough : 3 ≤ values.length) {maxOutliers : Int} {i j k : Nat} {a b c : ℝ}
    (first : values[i]? = some a) (second : values[j]? = some b) (third : values[k]? = some c) (less : a < b)
    (more : b < c) (low : (outlierMask lambda values maxOutliers)[i]? = some false)
    (high : (outlierMask lambda values maxOutliers)[k]? = some false) :
    (outlierMask lambda values maxOutliers)[j]? = some false := by
  have cell : ∀ {p : Nat} {x : ℝ}, values[p]? = some x → p < values.length ∧ (x, p) ∈ indexed values := by
    intro p x value
    obtain ⟨below, -⟩ := List.getElem?_eq_some_iff.mp value
    exact ⟨below, (indexed_perm values).mem_iff.mpr (List.mem_zipIdx_iff_getElem?.mpr value)⟩
  have own : ((indexed values).map Prod.snd).Nodup := (indexed_places values).nodup_iff.mpr List.nodup_range
  obtain ⟨belowI, cellI⟩ := cell first
  obtain ⟨belowJ, cellJ⟩ := cell second
  obtain ⟨belowK, cellK⟩ := cell third
  rw [unflagged_iff lambda belowI, places_peeled lambda enough] at low
  rw [unflagged_iff lambda belowK, places_peeled lambda enough] at high
  rw [unflagged_iff lambda belowJ, places_peeled lambda enough]
  intro flagged
  exact (peeled_sides lambda _ cellI cellJ cellK less more own flagged).elim low high

end Mask

/-- Whatever the critical values: few values are flagged, each once; two are left; and between two
values that are left none is flagged. -/
theorem outliers_peeled (lambda : Nat → ℝ) (values : List ℝ) (enough : 3 ≤ values.length) (maxOutliers : Int) :
    (outlierPlaces lambda values maxOutliers).Nodup ∧
      (∀ place ∈ outlierPlaces lambda values maxOutliers, place < values.length) ∧
      ((outlierMask lambda values maxOutliers).count true : Int) ≤ max 0 maxOutliers ∧
      2 ≤ (outlierMask lambda values maxOutliers).count false ∧
      ∀ (i j k : Nat) (a b c : ℝ), values[i]? = some a → values[j]? = some b → values[k]? = some c → a < b → b < c →
        (outlierMask lambda values maxOutliers)[i]? = some false →
        (outlierMask lambda values maxOutliers)[k]? = some false →
        (outlierMask lambda values maxOutliers)[j]? = some false := by
  have places := places_peeled lambda enough maxOutliers
  have marks := indexed_places values
  have single : (outlierPlaces lambda values maxOutliers).Nodup := by
    rw [places]
    exact peeled_nodup lambda _ (marks.nodup_iff.mpr List.nodup_range)
  have inside : ∀ place ∈ outlierPlaces lambda values maxOutliers, place < values.length := by
    intro place member
    rw [places] at member
    exact List.mem_range.mp (marks.subset (peeled_subset lambda _ _ member))
  have count := flags_count single inside
  rw [← outlierMask_eq] at count
  obtain ⟨turns, left⟩ := peeled_length lambda maxOutliers.toNat (indexed values)
  rw [← places, indexed_length] at left
  rw [← places] at turns
  refine ⟨single, inside, ?_, ?_, fun i j k a b c => left_between lambda enough⟩
  · rw [count]
    omega
  · have all := List.count_false_add_count_true (outlierMask lambda values maxOutliers)
    have length : (outlierMask lambda values maxOutliers).length = values.length := by simp [outlierMask_eq]
    omega

theorem outliers_peeled_five :
    let values : List ℝ := [1, 2, 9, 3, 4]
    let mask := outlierMask (fun _ => 1) values 2
    (outlierPlaces (fun _ => 1) values 2).Nodup ∧ (∀ place ∈ outlierPlaces (fun _ => 1) values 2, place < 5) ∧
      (mask.count true : Int) ≤ 2 ∧ 2 ≤ mask.count false ∧
      (mask[0]? = some false → mask[4]? = some false → mask[3]? = some false) := by
  obtain ⟨single, inside, few, left, between⟩ := outliers_peeled (fun _ => 1) [1, 2, 9, 3, 4] (by decide) 2
  exact ⟨single, inside, few, left, between 0 3 4 1 3 4 rfl rfl rfl (by norm_num) (by norm_num)⟩

end ServMark
