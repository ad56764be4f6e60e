import Mathlib.Data.List.GetD
import ServMark.Stats
import ServMark.Library.Loops
import ServMark.Library.Ordered

/-! The false discovery rate of stats_benjamini_hochberg. The code turns the largest rank on its line
into a bound on the values, and the bound cuts the list behind that rank, equal values included. -/
namespace ServMark
open Ordered

section Code
variable {α : Type} [Field α] [LinearOrder α]

def bhCrit (fdr : α) (count i : Nat) : α := fdr * ((i + 1 : Nat) : α) / (count : α)

def bhThreshold (fdr : α) (sorted : List α) : α :=
  (List.range sorted.length).foldl
    (fun threshold i => if sorted.getD i 0 ≤ bhCrit fdr sorted.length i then sorted.getD i 0 else threshold) 0

/-- The array p_values after the call. -/
def statsBenjaminiHochberg (pValues : List α) (fdr : α) : List α :=
  let threshold := bhThreshold fdr (statsSort pValues)
  pValues.map (fun p => if p ≤ threshold then p else -1)

end Code

variable {α : Type} [Field α] [LinearOrder α]

/-- The smallest p-value of this rank is at most its share of the rate. -/
def OnLine (pValues : List α) (fdr : α) (rank : Nat) : Prop :=
  1 ≤ rank ∧ ∃ p, (inOrder pValues)[rank - 1]? = some p ∧ p ≤ fdr * (rank : α) / (pValues.length : α)

/-- The entries in place: k of them stay, the k smallest, and every other is -1. -/
structure KeepsSmallest (k : Nat) (pValues out : List α) : Prop where
  length : out.length = pValues.length
  cells : ∀ x ∈ pValues.zip out, x.2 = x.1 ∨ x.2 = -1
  kept : (pValues.zip out).countP (fun x => decide (x.2 = x.1)) = k
  smallest : ∀ x ∈ pValues.zip out, ∀ y ∈ pValues.zip out, x.2 = x.1 → y.2 ≠ y.1 → x.1 < y.1

theorem zip_marked {β : Type} (xs : List β) (f : β → β) : xs.zip (xs.map f) = xs.map (fun x => (x, f x)) := by
  simpa only [List.map_id'] using List.zip_map' (f := fun x => x) (g := f) (l := xs)

variable {pValues : List α}

section Cut
variable [IsStrictOrderedRing α]

/-- A bound above k values cuts the k smallest off, if -1 is no p-value. -/
theorem cut_keeps (proper : ∀ p ∈ pValues, 0 ≤ p) {bound : α} {k : Nat}
    (upTo : pValues.countP (fun p => decide (p ≤ bound)) = k) :
    KeepsSmallest k pValues (pValues.map (fun p => if p ≤ bound then p else -1)) := by
  have stays {p : α} (member : p ∈ pValues) : (if p ≤ bound then p else -1) = p ↔ p ≤ bound := by
    have nonneg := proper p member
    split
    · rename_i le
      exact iff_of_true rfl le
    · rename_i gt
      refine iff_of_false (fun eq => ?_) gt
      linarith
  constructor
  · exact List.length_map _
  · intro x member
    simp only [zip_marked, List.mem_map] at member
    obtain ⟨p, _, rfl⟩ := member
    dsimp only
    split
    · exact Or.inl rfl
    · exact Or.inr rfl
  · rw [zip_marked, List.countP_map, ← upTo]
    apply List.countP_congr
    intro p member
    simp only [Function.comp_apply, decide_eq_true_eq]
    exact stays member
  · intro x left y right
    simp only [zip_marked, List.mem_map] at left right
    obtain ⟨p, low, rfl⟩ := left
    obtain ⟨r, high, rfl⟩ := right
    intro kept gone
    exact ((stays low).mp kept).trans_lt (not_le.mp (mt (stays high).mpr gone))

theorem bhCrit_mono {fdr : α} (nonneg : 0 ≤ fdr) (count : Nat) {i j : Nat} (le : i ≤ j) :
    bhCrit fdr count i ≤ bhCrit fdr count j := by
  have cells : ((i + 1 : Nat) : α) ≤ ((j + 1 : Nat) : α) := by exact_mod_cast Nat.succ_le_succ le
  exact div_le_div_of_nonneg_right (mul_le_mul_of_nonneg_left cells nonneg) (Nat.cast_nonneg count)

end Cut

theorem onLine_succ {fdr : α} {j : Nat} (inside : j < (inOrder pValues).length) :
    OnLine pValues fdr (j + 1) ↔ (inOrder pValues)[j] ≤ bhCrit fdr pValues.length j := by
  unfold OnLine bhCrit
  rw [Nat.add_sub_cancel, List.getElem?_eq_getElem inside]
  constructor
  · rintro ⟨_, p, same, le⟩
    rwa [Option.some.inj same]
  · exact fun le => ⟨Nat.succ_pos j, _, rfl, le⟩

theorem onLine_within {fdr : α} {rank : Nat} (held : OnLine pValues fdr rank) :
    ∃ j, rank = j + 1 ∧ ∃ h : j < (inOrder pValues).length, (inOrder pValues)[j] ≤ bhCrit fdr pValues.length j := by
  obtain ⟨positive, p, cell, le⟩ := held
  obtain ⟨j, rfl⟩ : ∃ j, rank = j + 1 := ⟨rank - 1, by omega⟩
  have inside : j < (inOrder pValues).length := (List.getElem?_eq_some_iff.mp cell).1
  exact ⟨j, rfl, inside, (onLine_succ inside).mp ⟨positive, p, cell, le⟩⟩

/-- What the threshold loop finds: no rank on its line and zero, or the last such rank's value. -/
theorem bhThreshold_cases (pValues : List α) (fdr : α) :
    ((∀ rank, ¬ OnLine pValues fdr rank) ∧ bhThreshold fdr (statsSort pValues) = 0) ∨
      ∃ j, ∃ h : j < (inOrder pValues).length, OnLine pValues fdr (j + 1) ∧
        (∀ rank, OnLine pValues fdr rank → rank ≤ j + 1) ∧
        bhThreshold fdr (statsSort pValues) = (inOrder pValues)[j] := by
  have cell {i : Nat} (inside : i < (inOrder pValues).length) :
      (inOrder pValues).getD i 0 ≤ bhCrit fdr (inOrder pValues).length i ↔ OnLine pValues fdr (i + 1) := by
    rw [List.getD_eq_getElem _ _ inside, onLine_succ inside, inOrder_length]
  rcases Loops.foldl_last (fun i => (inOrder pValues).getD i 0 ≤ bhCrit fdr (inOrder pValues).length i)
    (fun i => (inOrder pValues).getD i 0) 0 (inOrder pValues).length with ⟨none, zero⟩ | ⟨j, inside, held, later, value⟩
  · refine Or.inl ⟨fun rank held => ?_, zero⟩
    obtain ⟨i, rfl, within, _⟩ := onLine_within held
    exact none i within ((cell within).mpr held)
  · refine Or.inr ⟨j, inside, (cell inside).mp held, fun rank other => ?_, ?_⟩
    · obtain ⟨i, rfl, within, _⟩ := onLine_within other
      by_contra above
      exact later i (by omega) within ((cell within).mpr other)
    · exact value.trans (List.getD_eq_getElem _ _ inside)

/-- The call keeps exactly the k smallest p-values, k the largest rank on its line. -/
theorem benjamini_hochberg_steps_up [IsStrictOrderedRing α] (pValues : List α) (some_ : 1 ≤ pValues.length)
    (unit : ∀ p ∈ pValues, 0 ≤ p ∧ p ≤ 1) (fdr : α) (nonneg : 0 ≤ fdr) :
    ∃ k, IsGreatest {rank | rank = 0 ∨ OnLine pValues fdr rank} k ∧
      KeepsSmallest k pValues (statsBenjaminiHochberg pValues fdr) := by
  have proper : ∀ p ∈ pValues, 0 ≤ p := fun p member => (unit p member).1
  rcases bhThreshold_cases pValues fdr with ⟨none, zero⟩ | ⟨j, inside, held, largest, value⟩
  · have none_low : pValues.countP (fun p => decide (p ≤ 0)) = 0 := by
      apply countP_le (Nat.zero_le _)
      · exact fun i _ below => absurd below (Nat.not_lt_zero i)
      · intro i h _
        have off := mt (onLine_succ h).mpr (none (i + 1))
        have line : 0 ≤ bhCrit fdr pValues.length i := by
          unfold bhCrit
          positivity
        exact line.trans_lt (not_le.mp off)
    refine ⟨0, ⟨Or.inl rfl, fun rank among => ?_⟩, ?_⟩
    · exact (among.resolve_right (none rank)).le
    · simp only [statsBenjaminiHochberg, zero]
      exact cut_keeps proper none_low
  · have sorted := inOrder_sorted pValues
    have upTo : pValues.countP (fun p => decide (p ≤ (inOrder pValues)[j])) = j + 1 := by
      apply countP_le (by rw [inOrder_length] at inside; omega)
      · exact fun i h below => sorted.getElem_le_getElem_of_le (by omega)
      · intro i h above
        -- Behind the last rank on its line a value is above a line that is no lower.
        have off : ¬ OnLine pValues fdr (i + 1) := fun other => absurd (largest (i + 1) other) (by omega)
        calc (inOrder pValues)[j] ≤ bhCrit fdr pValues.length j := (onLine_succ inside).mp held
          _ ≤ bhCrit fdr pValues.length i := bhCrit_mono nonneg _ (by omega)
          _ < (inOrder pValues)[i] := not_le.mp (mt (onLine_succ h).mpr off)
    refine ⟨j + 1, ⟨Or.inr held, fun rank among => ?_⟩, ?_⟩
    · rcases among with rfl | other
      · exact Nat.zero_le _
      · exact largest rank other
    · simp only [statsBenjaminiHochberg, value]
      exact cut_keeps proper upTo

theorem tied_p_values_step_up : ∃ k, IsGreatest {rank | rank = 0 ∨ OnLine [1 / 2, 1 / 25, (1 / 25 : ℚ)] (1 / 10) rank} k ∧
    KeepsSmallest k [1 / 2, 1 / 25, (1 / 25 : ℚ)] (statsBenjaminiHochberg [1 / 2, 1 / 25, 1 / 25] (1 / 10)) :=
  benjamini_hochberg_steps_up [1 / 2, 1 / 25, 1 / 25] (by decide) (by decide +kernel) (1 / 10) (by norm_num)

end ServMark
