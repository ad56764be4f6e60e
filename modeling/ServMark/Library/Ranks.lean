import Mathlib.Data.List.ProdSigma
import Mathlib.Tactic

/-! Two samples compared pair by pair, and the ranks of one in both together, where equal values share
the rank of the first of them. -/
namespace Ranks
variable {α : Type} [LinearOrder α]

/-- The pairs with the left value above the right one. -/
def above (a b : List α) : Nat := (a ×ˢ b).countP (fun pair => decide (pair.2 < pair.1))

/-- The pairs of equal values. -/
def tied (a b : List α) : Nat := (a ×ˢ b).countP (fun pair => decide (pair.1 = pair.2))

/-- The pairs of equal values within one sample. -/
def repeats : List α → Nat
  | [] => 0
  | x :: rest => rest.count x + repeats rest

def lower (xs : List α) (x : α) : Nat := xs.countP (fun y => decide (y < x))

theorem lower_append (xs ys : List α) (x : α) : lower (xs ++ ys) x = lower xs x + lower ys x := List.countP_append

theorem lower_perm {xs ys : List α} (same : xs.Perm ys) (x : α) : lower xs x = lower ys x := same.countP_eq _

theorem above_cons (x : α) (a b : List α) : above (x :: a) b = lower b x + above a b := by
  simp only [above, lower, List.product_cons, List.countP_append, List.countP_map, Function.comp_def]

theorem above_eq_sum (a b : List α) : above a b = (a.map (lower b)).sum := by
  induction a with
  | nil => simp [above]
  | cons x a ih => rw [above_cons, ih, List.map_cons, List.sum_cons]

theorem tied_cons (x : α) (a b : List α) : tied (x :: a) b = b.count x + tied a b := by
  have equal : b.count x = b.countP (fun y => decide (x = y)) := by
    apply List.countP_congr
    intro y _
    rw [beq_iff_eq, decide_eq_true_eq]
    exact eq_comm
  simp only [tied, equal, List.product_cons, List.countP_append, List.countP_map, Function.comp_def]

theorem lower_cons (y : α) (b : List α) (x : α) : lower (y :: b) x = lower b x + if y < x then 1 else 0 := by
  simp [lower, List.countP_cons]

theorem above_cons_right (a : List α) (y : α) (b : List α) :
    above a (y :: b) = above a b + a.countP (fun x => decide (y < x)) := by
  induction a with
  | nil => simp [above]
  | cons x a ih =>
    rw [above_cons, above_cons, ih, lower_cons, List.countP_cons]
    simp only [decide_eq_true_eq]
    omega

/-- Each value is below, above or equal. -/
theorem trichotomy (b : List α) (x : α) :
    lower b x + b.countP (fun y => decide (x < y)) + b.count x = b.length := by
  induction b with
  | nil => rfl
  | cons y b ih =>
    rw [lower_cons, List.countP_cons, List.count_cons, List.length_cons]
    rcases lt_trichotomy y x with less | same | greater
    · simp only [less, less.not_gt, less.ne, beq_iff_eq, decide_false, if_true, if_false, Bool.false_eq_true]
      omega
    · simp only [same, lt_irrefl, beq_self_eq_true, decide_false, if_true, if_false, Bool.false_eq_true]
      omega
    · simp only [greater, greater.not_gt, greater.ne', beq_iff_eq, decide_true, if_true, if_false]
      omega

/-- Each pair is decided one way, the other way, or tied. -/
theorem above_add (a b : List α) : above a b + above b a + tied a b = a.length * b.length := by
  induction a with
  | nil => simp [above, tied]
  | cons x a ih =>
    have one := trichotomy b x
    rw [above_cons, above_cons_right, tied_cons, List.length_cons, Nat.succ_mul]
    omega

/-- Of two different places of one sample one holds the higher value, if the two are not equal. -/
theorem above_self (a : List α) : 2 * (above a a + repeats a + a.length) = a.length * (a.length + 1) := by
  induction a with
  | nil => simp [above, repeats]
  | cons x a ih =>
    have one := trichotomy a x
    have self : lower (x :: a) x = lower a x := by
      rw [lower_cons, if_neg (lt_irrefl x), Nat.add_zero]
    have square : (a.length + 1) * (a.length + 1 + 1) = a.length * (a.length + 1) + 2 * (a.length + 1) := by ring
    rw [above_cons, above_cons_right, self, repeats, List.length_cons, square]
    omega

/-- The ranks of a sample in both together. -/
theorem ranks_sum (a b : List α) :
    (a.map (fun x => lower (a ++ b) x + 1)).sum = above a a + above a b + a.length := by
  have each : (fun x => lower (a ++ b) x + 1) = fun x => lower a x + lower b x + 1 := by
    funext x
    rw [lower_append]
  rw [each, List.sum_map_add, List.sum_map_add, ← above_eq_sum, ← above_eq_sum]
  simp

theorem lower_head {x : α} {rest : List α} (sorted : (x :: rest).Pairwise (· ≤ ·)) : lower (x :: rest) x = 0 := by
  apply List.countP_eq_zero.mpr
  intro y member
  have above : x ≤ y := by
    rcases List.mem_cons.mp member with rfl | among
    · exact le_rfl
    · exact (List.pairwise_cons.mp sorted).1 y among
  rw [decide_eq_true_eq]
  exact above.not_gt

/-- Behind a lower value the next one of a sorted list has every value in front of it below. -/
theorem lower_next {front : List α} {x y : α} {rest : List α} (sorted : (front ++ x :: y :: rest).Pairwise (· ≤ ·))
    (less : x < y) : lower (front ++ x :: y :: rest) y = front.length + 1 := by
  obtain ⟨_, tail, across⟩ := List.pairwise_append.mp sorted
  obtain ⟨_, later⟩ := List.pairwise_cons.mp tail
  have before : lower front y = front.length := by
    apply List.countP_eq_length.mpr
    exact fun z member => decide_eq_true ((across z member x List.mem_cons_self).trans_lt less)
  rw [lower_append, before, lower_cons x, lower_head later, if_pos less]

theorem repeats_eq_zero {a : List α} : repeats a = 0 ↔ a.Nodup := by
  induction a with
  | nil => simp [repeats]
  | cons x a ih => rw [repeats, Nat.add_eq_zero_iff, ih, List.count_eq_zero, List.nodup_cons]

theorem tied_eq_zero {a b : List α} : tied a b = 0 ↔ a.Disjoint b := by
  induction a with
  | nil => simp [tied]
  | cons x a ih => rw [tied_cons, Nat.add_eq_zero_iff, ih, List.count_eq_zero, List.disjoint_cons_left]

end Ranks
