import Mathlib.Data.List.Nodup
import ServMark.Library.Sample

/-! The generalised extreme Studentized deviate test. From a list of values, each with a mark of its own,
the value furthest from the mean is removed again and again, of equally far ones the first; each
removal has a statistic and a critical value, and the last significant one decides. -/
namespace Esd

section Peak
variable {α β : Type} [LinearOrder α]

/-- The first place of the largest value of f. -/
def peak (f : β → α) (xs : List β) : Nat := xs.findIdx (fun x => decide (∀ y ∈ xs, f y ≤ f x))

theorem peak_unique {f : β → α} {xs : List β} {e : Nat} (inside : e < xs.length) (most : ∀ y ∈ xs, f y ≤ f xs[e])
    (first : ∀ j, (h : j < e) → f xs[j] < f xs[e]) : peak f xs = e := by
  unfold peak
  rw [List.findIdx_eq inside]
  refine ⟨decide_eq_true most, fun j before => decide_eq_false (fun all => ?_)⟩
  exact absurd (all _ (List.getElem_mem inside)) (first j before).not_ge

theorem peak_lt {f : β → α} {xs : List β} (some_ : xs ≠ []) : peak f xs < xs.length := by
  unfold peak
  rw [List.findIdx_lt_length]
  have nonempty : (xs.map f).toFinset.Nonempty := by simpa using some_
  obtain ⟨m, among, most⟩ := (xs.map f).toFinset.exists_max_image id nonempty
  simp only [List.mem_toFinset, List.mem_map, id] at among most
  obtain ⟨x, member, rfl⟩ := among
  exact ⟨x, member, decide_eq_true (fun y other => most (f y) ⟨y, other, rfl⟩)⟩

/-- The loop "if (f(x) > most) most = f(x), at = i". -/
def scan (f : β → α) : List β → Nat → α → Option Nat → α × Option Nat
  | [], _, most, place => (most, place)
  | x :: rest, i, most, place => if f x > most then scan f rest (i + 1) (f x) (some i) else scan f rest (i + 1) most place

/-- The loop ends with what it started from, or with the first largest value above that. -/
theorem scan_cases (f : β → α) (xs : List β) (i : Nat) (most : α) (place : Option Nat) :
    ((∀ y ∈ xs, f y ≤ most) ∧ scan f xs i most place = (most, place)) ∨
      ∃ e, ∃ h : e < xs.length, most < f xs[e] ∧ (∀ y ∈ xs, f y ≤ f xs[e]) ∧
        (∀ j, (before : j < e) → f xs[j] < f xs[e]) ∧ scan f xs i most place = (f xs[e], some (i + e)) := by
  induction xs generalizing i most place with
  | nil => exact Or.inl ⟨by simp, rfl⟩
  | cons x rest ih =>
    unfold scan
    split
    · rename_i greater
      rcases ih (i + 1) (f x) (some i) with ⟨all, result⟩ | ⟨e, inside, above, all, first, result⟩
      · exact Or.inr ⟨0, Nat.succ_pos _, greater, List.forall_mem_cons.mpr ⟨le_rfl, all⟩,
          fun j before => absurd before (Nat.not_lt_zero j), result⟩
      · refine Or.inr ⟨e + 1, Nat.succ_lt_succ inside, greater.trans above,
          List.forall_mem_cons.mpr ⟨above.le, all⟩, fun j before => ?_, ?_⟩
        · cases j with
          | zero => exact above
          | succ j => exact first j (Nat.lt_of_succ_lt_succ before)
        · rw [result, List.getElem_cons_succ, Nat.add_right_comm, Nat.add_assoc]
    · rename_i le
      have held : f x ≤ most := not_lt.mp le
      rcases ih (i + 1) most place with ⟨all, result⟩ | ⟨e, inside, above, all, first, result⟩
      · exact Or.inl ⟨List.forall_mem_cons.mpr ⟨held, all⟩, result⟩
      · refine Or.inr ⟨e + 1, Nat.succ_lt_succ inside, above,
          List.forall_mem_cons.mpr ⟨held.trans above.le, all⟩, fun j before => ?_, ?_⟩
        · cases j with
          | zero => exact held.trans_lt above
          | succ j => exact first j (Nat.lt_of_succ_lt_succ before)
        · rw [result, List.getElem_cons_succ, Nat.add_right_comm, Nat.add_assoc]

/-- Where some value is above the start, the loop finds the peak. -/
theorem scan_peak {f : β → α} {xs : List β} {most : α} (higher : ∃ x ∈ xs, most < f x) (place : Option Nat) :
    ∃ h : peak f xs < xs.length, scan f xs 0 most place = (f xs[peak f xs], some (peak f xs)) := by
  rcases scan_cases f xs 0 most place with ⟨all, _⟩ | ⟨e, inside, _, all, first, result⟩
  · obtain ⟨x, member, above⟩ := higher
    exact absurd (all x member) above.not_ge
  · obtain rfl := peak_unique inside all first
    rw [Nat.zero_add] at result
    exact ⟨inside, result⟩

end Peak

variable {γ : Type}

noncomputable def deviation (cells : List (ℝ × γ)) (c : ℝ × γ) : ℝ := |c.1 - Sample.mean (cells.map Prod.fst)|

/-- The place of the value furthest from the mean. -/
noncomputable def extreme (cells : List (ℝ × γ)) : Nat := peak (deviation cells) cells

/-- The cells left after so many removals. -/
noncomputable def remaining (cells : List (ℝ × γ)) : Nat → List (ℝ × γ)
  | 0 => cells
  | i + 1 => (remaining cells i).eraseIdx (extreme (remaining cells i))

/-- The mark removed after so many removals. -/
noncomputable def removed (cells : List (ℝ × γ)) (i : Nat) : Option γ :=
  ((remaining cells i)[extreme (remaining cells i)]?).map Prod.snd

/-- The largest deviation in standard deviations, after so many removals. -/
noncomputable def statistic (cells : List (ℝ × γ)) (i : Nat) : ℝ :=
  ((remaining cells i)[extreme (remaining cells i)]?).elim 0 (deviation (remaining cells i)) /
    √(Sample.variance ((remaining cells i).map Prod.fst))

/-- The critical value of the i-th removal from n values, at a level of the quantile q. -/
noncomputable def critical (q : ℝ → ℝ → ℝ) (n i : Nat) (level : ℝ) : ℝ :=
  ((n : ℝ) - i) * q level ((n : ℝ) - i - 1) /
    √(((n : ℝ) - i - 1 + q level ((n : ℝ) - i - 1) ^ (2 : Nat)) * ((n : ℝ) - i + 1))

theorem extreme_lt {cells : List (ℝ × γ)} (some_ : cells ≠ []) : extreme cells < cells.length := peak_lt some_

theorem remaining_length (cells : List (ℝ × γ)) {i : Nat} (few : i ≤ cells.length) :
    (remaining cells i).length = cells.length - i := by
  induction i with
  | zero => rfl
  | succ i ih =>
    have before := ih (by omega)
    have inside : extreme (remaining cells i) < (remaining cells i).length :=
      extreme_lt (List.ne_nil_of_length_pos (by omega))
    rw [remaining, List.length_eraseIdx_of_lt inside, before]
    omega

theorem remaining_sublist (cells : List (ℝ × γ)) {i j : Nat} (le : i ≤ j) :
    (remaining cells j).Sublist (remaining cells i) := by
  induction j, le using Nat.le_induction with
  | base => exact List.Sublist.refl _
  | succ j _ ih => exact (List.eraseIdx_sublist _ _).trans ih

theorem removed_eq (cells : List (ℝ × γ)) {i : Nat} (few : i < cells.length) :
    ∃ h : extreme (remaining cells i) < (remaining cells i).length,
      removed cells i = some (remaining cells i)[extreme (remaining cells i)].2 := by
  have inside : extreme (remaining cells i) < (remaining cells i).length := by
    apply extreme_lt
    apply List.ne_nil_of_length_pos
    rw [remaining_length cells few.le]
    omega
  refine ⟨inside, ?_⟩
  rw [removed, List.getElem?_eq_getElem inside, Option.map_some]

/-- With marks of their own no two removals take the same mark. -/
theorem removed_ne {cells : List (ℝ × γ)} (own : (cells.map Prod.snd).Nodup) {i j : Nat} (less : i < j)
    (few : j < cells.length) : removed cells i ≠ removed cells j := by
  obtain ⟨first, firstMark⟩ := removed_eq cells (less.trans few)
  obtain ⟨second, secondMark⟩ := removed_eq cells few
  have marks : ((remaining cells i).map Prod.snd).Nodup :=
    own.sublist ((remaining_sublist cells (Nat.zero_le i)).map Prod.snd)
  have later : (remaining cells j)[extreme (remaining cells j)].2 ∈ (remaining cells (i + 1)).map Prod.snd :=
    List.mem_map_of_mem ((remaining_sublist cells less).subset (List.getElem_mem second))
  rw [firstMark, secondMark]
  intro same
  obtain ⟨c, left, mark⟩ := List.mem_map.mp later
  obtain ⟨k, inside, other, rfl⟩ := List.mem_eraseIdx_iff_getElem.mp left
  have equal : ((remaining cells i).map Prod.snd)[k]? =
      ((remaining cells i).map Prod.snd)[extreme (remaining cells i)]? := by
    rw [List.getElem?_map, List.getElem?_map, List.getElem?_eq_getElem inside, List.getElem?_eq_getElem first]
    exact congrArg some (mark.trans (Option.some.inj same).symm)
  exact other ((List.getElem?_inj (by simpa using inside) marks).mp equal)

/-- Which of n marks the first r removals take. -/
noncomputable def flags (cells : List (ℝ × Nat)) (n r : Nat) : List Bool :=
  (List.range n).map (fun mark => (List.range r).any (fun j => removed cells j == some mark))

theorem flags_getElem (cells : List (ℝ × Nat)) (n r : Nat) {mark : Nat} (inside : mark < n) :
    (flags cells n r)[mark]? = some true ↔ ∃ j < r, removed cells j = some mark := by
  rw [flags, List.getElem?_map, List.getElem?_range inside]
  simp

theorem flags_zero (cells : List (ℝ × Nat)) (n : Nat) : flags cells n 0 = List.replicate n false := by
  simp [flags]

theorem flags_succ (cells : List (ℝ × Nat)) (n r : Nat) {mark : Nat} (taken : removed cells r = some mark) :
    flags cells n (r + 1) = (flags cells n r).set mark true := by
  apply List.ext_getElem
  · simp [flags]
  · intro k first second
    simp only [flags, List.getElem_set, List.getElem_map, List.getElem_range, List.range_succ, List.any_append,
      List.any_cons, List.any_nil, taken, Bool.or_false]
    split
    · rename_i same
      simp [same]
    · rename_i differs
      simp [differs]

/-- The marks taken tell the number of removals. -/
theorem flags_injective {cells : List (ℝ × Nat)} (own : (cells.map Prod.snd).Nodup)
    (bounded : ∀ mark ∈ cells.map Prod.snd, mark < cells.length) {r s : Nat} (less : r < s) (few : s ≤ cells.length) :
    flags cells cells.length r ≠ flags cells cells.length s := by
  obtain ⟨inside, mark⟩ := removed_eq cells (Nat.lt_of_lt_of_le less few)
  have among : (remaining cells r)[extreme (remaining cells r)].2 ∈ cells.map Prod.snd :=
    List.mem_map_of_mem ((remaining_sublist cells (Nat.zero_le r)).subset (List.getElem_mem inside))
  have place := bounded _ among
  intro same
  have taken := (flags_getElem cells cells.length s place).mpr ⟨r, less, mark⟩
  rw [← same] at taken
  obtain ⟨j, before, other⟩ := (flags_getElem cells cells.length r place).mp taken
  exact removed_ne own before (Nat.lt_of_lt_of_le less few) (other.trans mark.symm)

end Esd
