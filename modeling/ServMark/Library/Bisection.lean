import Mathlib.Algebra.Order.Field.Basic
import Mathlib.Tactic

/-! Bisection of an interval by a test of its middle, until it is shorter than a tolerance or a number
of halvings is made. -/
namespace Bisection
variable {α : Type} [Field α] [LinearOrder α]

/-- A point that is below the goal becomes the lower end, any other the upper end. -/
def search (below : α → Bool) (tolerance : α) : Nat → α → α → α × α
  | 0, lo, hi => (lo, hi)
  | n + 1, lo, hi =>
    let mid := (lo + hi) / (2 : Nat)
    let ends := if below mid then (mid, hi) else (lo, mid)
    if ends.2 - ends.1 < tolerance then ends else search below tolerance n ends.1 ends.2

variable [IsStrictOrderedRing α] {below : α → Bool} {tolerance : α}

omit [IsStrictOrderedRing α] in
/-- What holds of the ends and is kept by each halving holds of the result. -/
theorem search_invariant (below : α → Bool) (tolerance : α) {p : α → α → Prop}
    (upper : ∀ {lo hi}, p lo hi → below ((lo + hi) / 2) = true → p ((lo + hi) / 2) hi)
    (lower : ∀ {lo hi}, p lo hi → below ((lo + hi) / 2) = false → p lo ((lo + hi) / 2))
    (n : Nat) {lo hi : α} (start : p lo hi) :
    p (search below tolerance n lo hi).1 (search below tolerance n lo hi).2 := by
  induction n generalizing lo hi with
  | zero => exact start
  | succ n ih =>
    simp only [search, Nat.cast_ofNat]
    cases test : below ((lo + hi) / 2) with
    | true =>
      have next := upper start test
      simp only [if_true]
      split
      · exact next
      · exact ih next
    | false =>
      have next := lower start test
      simp only [Bool.false_eq_true, if_false]
      split
      · exact next
      · exact ih next

/-- A goal that the test knows stays between the ends. -/
theorem search_brackets {goal : α} (n : Nat) {lo hi : α} (inside : lo ≤ goal ∧ goal ≤ hi)
    (knows : ∀ x, lo ≤ x → x ≤ hi → (below x = true ↔ x < goal)) :
    (search below tolerance n lo hi).1 ≤ goal ∧ goal ≤ (search below tolerance n lo hi).2 := by
  have both := search_invariant below tolerance
    (p := fun l r => (lo ≤ l ∧ r ≤ hi) ∧ l ≤ goal ∧ goal ≤ r) ?_ ?_ n ⟨⟨le_rfl, le_rfl⟩, inside⟩
  · exact both.2
  · rintro l r ⟨⟨first, last⟩, left, right⟩ test
    have less := (knows ((l + r) / 2) (by linarith) (by linarith)).mp test
    exact ⟨⟨by linarith, last⟩, less.le, right⟩
  · rintro l r ⟨⟨first, last⟩, left, right⟩ test
    have other := mt (knows ((l + r) / 2) (by linarith) (by linarith)).mpr (by rw [test]; exact Bool.false_ne_true)
    exact ⟨⟨first, by linarith⟩, left, not_lt.mp other⟩

/-- Where every point of the interval is below the goal, the upper end stays. -/
theorem search_climbs (n : Nat) {lo hi : α} (proper : lo < hi) (all : ∀ x, lo ≤ x → x < hi → below x = true) :
    (search below tolerance n lo hi).2 = hi := by
  have both := search_invariant below tolerance (p := fun l r => (lo ≤ l ∧ l < hi) ∧ r = hi)
    ?_ ?_ n ⟨⟨le_rfl, proper⟩, rfl⟩
  · exact both.2
  · rintro l r ⟨⟨first, less⟩, rfl⟩ _
    refine ⟨⟨?_, ?_⟩, rfl⟩ <;> linarith
  · rintro l r ⟨⟨first, less⟩, rfl⟩ test
    have held := all ((l + r) / 2) (by linarith) (by linarith)
    rw [held] at test
    exact absurd test (by decide)

/-- The width is halved until it is under the tolerance. -/
theorem search_width (below : α → Bool) (n : Nat) {k : Nat} {lo hi : α} (enough : k < n)
    (short : (hi - lo) / 2 ^ (k + 1) < tolerance) (long : ∀ j, 1 ≤ j → j ≤ k → tolerance ≤ (hi - lo) / 2 ^ j) :
    (search below tolerance n lo hi).2 - (search below tolerance n lo hi).1 = (hi - lo) / 2 ^ (k + 1) := by
  induction n generalizing k lo hi with
  | zero => exact absurd enough (Nat.not_lt_zero k)
  | succ n ih =>
    have half (ends : α × α) (width : ends.2 - ends.1 = (hi - lo) / 2) :
        (if ends.2 - ends.1 < tolerance then ends else search below tolerance n ends.1 ends.2).2 -
          (if ends.2 - ends.1 < tolerance then ends else search below tolerance n ends.1 ends.2).1 =
            (hi - lo) / 2 ^ (k + 1) := by
      have halves (j : Nat) : (ends.2 - ends.1) / 2 ^ j = (hi - lo) / 2 ^ (j + 1) := by
        rw [width, div_div, pow_succ']
      cases k with
      | zero =>
        rw [zero_add, pow_one, ← width] at short ⊢
        rw [if_pos short]
      | succ k =>
        have wide : ¬ ends.2 - ends.1 < tolerance := by
          rw [width, ← pow_one (2 : α)]
          exact not_lt.mpr (long 1 le_rfl (by omega))
        have later (j : Nat) (first : 1 ≤ j) (last : j ≤ k) : tolerance ≤ (ends.2 - ends.1) / 2 ^ j := by
          rw [halves]
          exact long (j + 1) (by omega) (by omega)
        rw [if_neg wide, ih (Nat.lt_of_succ_lt_succ enough) (by rwa [halves]) later, halves]
    simp only [search, Nat.cast_ofNat]
    cases below ((lo + hi) / 2) with
    | true => exact half _ (by simp only [if_true]; ring)
    | false => exact half _ (by simp only [Bool.false_eq_true, if_false]; ring)

end Bisection
