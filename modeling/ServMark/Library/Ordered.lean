import Mathlib.Data.List.GetD
import Mathlib.Data.List.Sort
import Mathlib.Tactic

/-! A list put in order. The sorted list of given elements is unique, so it follows every map that
keeps or turns the order, and the number of its elements up to a bound is a cell of it. -/
namespace Ordered
variable {α β : Type} [LinearOrder α] [LinearOrder β]

def inOrder (xs : List α) : List α := xs.mergeSort (fun a b => decide (a ≤ b))

@[simp] theorem inOrder_length (xs : List α) : (inOrder xs).length = xs.length := List.length_mergeSort xs

theorem inOrder_perm (xs : List α) : (inOrder xs).Perm xs := List.mergeSort_perm xs _

@[simp] theorem mem_inOrder {x : α} {xs : List α} : x ∈ inOrder xs ↔ x ∈ xs := (inOrder_perm xs).mem_iff

theorem inOrder_sorted (xs : List α) : (inOrder xs).SortedLE := (List.pairwise_mergeSort' (· ≤ ·) xs).sortedLE

theorem inOrder_unique {xs ys : List α} (sorted : ys.SortedLE) (same : ys.Perm xs) : inOrder xs = ys :=
  List.Perm.eq_of_sortedLE (inOrder_sorted xs) sorted ((inOrder_perm xs).trans same.symm)

theorem inOrder_congr {xs ys : List α} (same : xs.Perm ys) : inOrder xs = inOrder ys :=
  inOrder_unique (inOrder_sorted ys) ((inOrder_perm ys).trans same.symm)

theorem inOrder_map {f : α → β} (mono : Monotone f) (xs : List α) : inOrder (xs.map f) = (inOrder xs).map f := by
  apply inOrder_unique
  · exact (List.Pairwise.map f (fun _ _ le => mono le) (inOrder_sorted xs).pairwise).sortedLE
  · exact (inOrder_perm xs).map f

theorem inOrder_turned {f : α → β} (anti : Antitone f) (xs : List α) :
    inOrder (xs.map f) = ((inOrder xs).map f).reverse := by
  apply inOrder_unique
  · rw [List.sortedLE_reverse]
    have falling : ((inOrder xs).map f).Pairwise (· ≥ ·) :=
      List.Pairwise.map f (fun _ _ le => anti le) (inOrder_sorted xs).pairwise
    exact falling.sortedGE
  · exact (List.reverse_perm _).trans ((inOrder_perm xs).map f)

/-- As many elements stand up to a bound as cells of the sorted list do. -/
theorem countP_le {xs : List α} {bound : α} {k : Nat} (most : k ≤ xs.length)
    (below : ∀ i, (h : i < (inOrder xs).length) → i < k → (inOrder xs)[i] ≤ bound)
    (above : ∀ i, (h : i < (inOrder xs).length) → k ≤ i → bound < (inOrder xs)[i]) :
    xs.countP (fun x => decide (x ≤ bound)) = k := by
  have front : ((inOrder xs).take k).countP (fun x => decide (x ≤ bound)) = ((inOrder xs).take k).length := by
    rw [List.countP_eq_length]
    intro x member
    obtain ⟨i, inside, rfl⟩ := List.mem_iff_getElem.mp member
    simp only [List.length_take, inOrder_length] at inside
    rw [List.getElem_take]
    exact decide_eq_true (below i (by rw [inOrder_length]; omega) (by omega))
  have back : ((inOrder xs).drop k).countP (fun x => decide (x ≤ bound)) = 0 := by
    rw [List.countP_eq_zero]
    intro x member
    obtain ⟨i, inside, rfl⟩ := List.mem_iff_getElem.mp member
    simp only [List.length_drop, inOrder_length] at inside
    rw [List.getElem_drop, decide_eq_true_eq, not_le]
    exact above (k + i) (by rw [inOrder_length]; omega) (Nat.le_add_right k i)
  rw [← (inOrder_perm xs).countP_eq, ← List.take_append_drop k (inOrder xs), List.countP_append, front, back,
    List.length_take, inOrder_length]
  omega

/-- The smallest and the largest element. -/
theorem extremes {xs : List α} (some_ : xs ≠ []) :
    ∃ lowest ∈ xs, ∃ highest ∈ xs, ∀ x ∈ xs, lowest ≤ x ∧ x ≤ highest := by
  have nonempty : xs.toFinset.Nonempty := (List.toFinset_nonempty_iff xs).mpr some_
  obtain ⟨lowest, low, least⟩ := xs.toFinset.exists_min_image id nonempty
  obtain ⟨highest, high, most⟩ := xs.toFinset.exists_max_image id nonempty
  simp only [List.mem_toFinset, id] at low high least most
  exact ⟨lowest, low, highest, high, fun x member => ⟨least x member, most x member⟩⟩

section Median
variable {α : Type} [Field α] [LinearOrder α]

/-- The middle value, or half the sum of the two in the middle. -/
def median (xs : List α) : α :=
  let sorted := inOrder xs
  let count := sorted.length
  if count % 2 = 0 then (sorted.getD (count / 2 - 1) 0 + sorted.getD (count / 2) 0) / (2 : Nat)
  else sorted.getD (count / 2) 0

theorem median_congr {xs ys : List α} (same : xs.Perm ys) : median xs = median ys := by
  unfold median
  rw [inOrder_congr same]

variable [IsStrictOrderedRing α]

/-- Of an odd number of values the two in the middle are one. -/
theorem median_eq {xs : List α} (some_ : xs ≠ []) : median xs =
    ((inOrder xs).getD ((xs.length - 1) / 2) 0 + (inOrder xs).getD (xs.length / 2) 0) / 2 := by
  have size := List.length_pos_iff.mpr some_
  unfold median
  simp only [inOrder_length, Nat.cast_ofNat]
  split
  · rename_i even
    have cell : xs.length / 2 - 1 = (xs.length - 1) / 2 := by omega
    rw [cell]
  · rename_i odd
    have cell : (xs.length - 1) / 2 = xs.length / 2 := by omega
    rw [cell, add_self_div_two]

theorem median_between {xs : List α} (some_ : xs ≠ []) {least most : α} (within : ∀ x ∈ xs, least ≤ x ∧ x ≤ most) :
    least ≤ median xs ∧ median xs ≤ most := by
  have size := List.length_pos_iff.mpr some_
  have cell {i : Nat} (inside : i < xs.length) : least ≤ (inOrder xs).getD i 0 ∧ (inOrder xs).getD i 0 ≤ most := by
    have bound : i < (inOrder xs).length := by rwa [inOrder_length]
    rw [List.getD_eq_getElem _ _ bound]
    exact within _ (mem_inOrder.mp (List.getElem_mem bound))
  have first := cell (i := (xs.length - 1) / 2) (by omega)
  have second := cell (i := xs.length / 2) (by omega)
  rw [median_eq some_]
  constructor
  · linarith [first.1, second.1]
  · linarith [first.2, second.2]

theorem median_shift {xs : List α} (some_ : xs ≠ []) (c : α) : median (xs.map (fun x => x + c)) = median xs + c := by
  have size := List.length_pos_iff.mpr some_
  have mono : Monotone (fun x : α => x + c) := fun _ _ le => add_le_add_left le c
  have cell {i : Nat} (inside : i < xs.length) :
      ((inOrder xs).map (fun x => x + c)).getD i 0 = (inOrder xs).getD i 0 + c := by
    have bound : i < (inOrder xs).length := by rwa [inOrder_length]
    rw [List.getD_eq_getElem _ _ (by rwa [List.length_map]), List.getD_eq_getElem _ _ bound, List.getElem_map]
  rw [median_eq (by simpa using some_), median_eq some_, inOrder_map mono, List.length_map, cell (by omega),
    cell (by omega)]
  ring

/-- The values turned around stand in reverse, and the two middle cells change places. -/
theorem median_neg {xs : List α} (some_ : xs ≠ []) : median (xs.map (fun x => -x)) = -median xs := by
  have size := List.length_pos_iff.mpr some_
  have anti : Antitone (fun x : α => -x) := fun _ _ le => neg_le_neg le
  have cell {i j : Nat} (mirror : i + j + 1 = xs.length) :
      (((inOrder xs).map (fun x => -x)).reverse).getD i 0 = -(inOrder xs).getD j 0 := by
    have bound : j < (inOrder xs).length := by
      rw [inOrder_length]
      omega
    have place : i < (((inOrder xs).map (fun x => -x)).reverse).length := by
      simp only [List.length_reverse, List.length_map, inOrder_length]
      omega
    have index : (inOrder xs).length - 1 - i = j := by
      rw [inOrder_length]
      omega
    rw [List.getD_eq_getElem _ _ place, List.getD_eq_getElem _ _ bound, List.getElem_reverse]
    simp only [List.getElem_map, List.length_map, index]
  rw [median_eq (by simpa using some_), median_eq some_, inOrder_turned anti, List.length_map,
    cell (j := xs.length / 2) (by omega), cell (j := (xs.length - 1) / 2) (by omega)]
  ring

end Median

end Ordered
