import Mathlib.Data.Nat.Bitwise
import ServMark.Library.Shuffle

/-! The low binary digits of a number in reverse, and the loop that exchanges each cell of an array
with its mirror image. -/
namespace BitReversal
open Shuffle

/-- The number whose k digits are the k low digits of this one, the lowest first. -/
def reversed : Nat → Nat → Nat
  | 0, _ => 0
  | k + 1, i => i % 2 * 2 ^ k + reversed k (i / 2)

theorem reversed_even (k i : Nat) : reversed (k + 1) (2 * i) = reversed k i := by
  rw [reversed, Nat.mul_mod_right, Nat.mul_div_cancel_left i Nat.two_pos, Nat.zero_mul, Nat.zero_add]

theorem reversed_odd (k i : Nat) : reversed (k + 1) (2 * i + 1) = reversed k i + 2 ^ k := by
  rw [reversed, show (2 * i + 1) % 2 = 1 by omega, show (2 * i + 1) / 2 = i by omega, Nat.one_mul, Nat.add_comm]

theorem reversed_lt (k i : Nat) : reversed k i < 2 ^ k := by
  induction k generalizing i with
  | zero => exact Nat.one_pos
  | succ k ih =>
    have low := ih (i / 2)
    have digit : i % 2 * 2 ^ k ≤ 1 * 2 ^ k := Nat.mul_le_mul_right _ (by omega)
    rw [reversed, pow_succ]
    omega

theorem reversed_testBit {k j : Nat} (inside : j < k) (i : Nat) :
    (reversed k i).testBit j = i.testBit (k - 1 - j) := by
  induction k generalizing i j with
  | zero => exact absurd inside (Nat.not_lt_zero j)
  | succ k ih =>
    have low := reversed_lt k (i / 2)
    have digits : reversed (k + 1) i = 2 ^ k * (i % 2) + reversed k (i / 2) := by rw [reversed, Nat.mul_comm]
    rw [digits, Nat.testBit_two_pow_mul_add _ low]
    split
    · rename_i below
      rw [ih below, Nat.testBit_div_two, show k - 1 - j + 1 = k + 1 - 1 - j by omega]
    · have top : j = k := by omega
      rw [top, Nat.sub_self, show k + 1 - 1 - k = 0 by omega]
      simp

/-- A number below 2 ^ k with the digits in reverse. -/
theorem eq_reversed {k x i : Nat} (below : x < 2 ^ k) (digits : ∀ j < k, x.testBit j = i.testBit (k - 1 - j)) :
    x = reversed k i := by
  refine Nat.eq_of_testBit_eq fun j => ?_
  rcases lt_or_ge j k with inside | above
  · rw [digits j inside, reversed_testBit inside]
  · have power : 2 ^ k ≤ 2 ^ j := Nat.pow_le_pow_right Nat.two_pos above
    rw [Nat.testBit_lt_two_pow (below.trans_le power), Nat.testBit_lt_two_pow ((reversed_lt k i).trans_le power)]

theorem reversed_reversed {k i : Nat} (below : i < 2 ^ k) : reversed k (reversed k i) = i := by
  refine (eq_reversed below fun j inside => ?_).symm
  rw [reversed_testBit (by omega), show k - 1 - (k - 1 - j) = j by omega]

section Exchanges
variable {β : Type} (mirror : Nat → Nat)

/-- Each cell is exchanged with its mirror image if that is still ahead. -/
def exchangeAhead (n : Nat) (cells : Nat → β) : Nat → β :=
  (List.range n).foldl (fun cells i => if i < mirror i then exchange cells i (mirror i) else cells) cells

variable {mirror} {n : Nat} (within : ∀ i < n, mirror i < n) (own : ∀ i < n, mirror (mirror i) = i)
include within own

/-- The pairs are exchanged of which one cell has been visited. -/
theorem exchangeAhead_visited (cells : Nat → β) {t : Nat} (range : t ≤ n) {i : Nat} (inside : i < n) :
    exchangeAhead mirror t cells i = if i < t ∨ mirror i < t then cells (mirror i) else cells i := by
  induction t generalizing i with
  | zero => simp [exchangeAhead]
  | succ t ih =>
    have next : exchangeAhead mirror (t + 1) cells = if t < mirror t then
        exchange (exchangeAhead mirror t cells) t (mirror t) else exchangeAhead mirror t cells := by
      simp [exchangeAhead, List.range_succ]
    have back : ∀ {j}, j < n → mirror j = t → j = mirror t := fun below eq => by rw [← eq, own _ below]
    rw [next]
    split
    · rename_i ahead
      rw [exchange_eq, Function.comp_apply]
      rcases eq_or_ne i t with rfl | other
      · rw [Equiv.swap_apply_left, ih (by omega) (within i inside), own i inside, if_neg (by omega), if_pos (by omega)]
      · rcases eq_or_ne i (mirror t) with rfl | apart
        · rw [Equiv.swap_apply_right, ih (by omega) range, own t range, if_neg (by omega), if_pos (by omega)]
        · rw [Equiv.swap_apply_of_ne_of_ne other apart, ih (by omega) inside]
          have unlike : mirror i ≠ t := fun eq => apart (back inside eq)
          exact if_congr (by omega) rfl rfl
    · rename_i passed
      rw [ih (by omega) inside]
      rcases eq_or_ne (mirror i) i with fixed | moved
      · rw [fixed, ite_self, ite_self]
      · refine if_congr ⟨fun visited => by omega, fun visited => ?_⟩ rfl rfl
        rcases eq_or_ne i t with rfl | other
        · exact Or.inr (by omega)
        · rcases eq_or_ne (mirror i) t with image | unlike
          · have := back inside image
            exact Or.inl (by omega)
          · omega

/-- After the loop each cell holds what its mirror image held. -/
theorem exchangeAhead_all (cells : Nat → β) {i : Nat} (inside : i < n) :
    exchangeAhead mirror n cells i = cells (mirror i) := by
  rw [exchangeAhead_visited within own cells le_rfl inside, if_pos (Or.inl inside)]

end Exchanges

end BitReversal
