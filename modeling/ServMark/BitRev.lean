import ServMark.Types
import ServMark.Library.BitReversal

/-! The table bit_rev of fp_fft_init for n values, and the loop of fft_radix2 that puts the values
in its order. -/
namespace ServMark
open BitReversal Shuffle

/-- The loop that sets the digits of one entry. -/
def bitRevDigits (n i b rev : Nat) : Nat :=
  if 1 <<< b < n then bitRevDigits n i (b + 1) (if i &&& 1 <<< b ≠ 0 then rev ||| n >>> (b + 1) else rev) else rev
termination_by n - b
decreasing_by
  rename_i more
  rw [Nat.one_shiftLeft] at more
  have := Nat.lt_two_pow_self (n := b)
  omega

/-- The entry bit_rev[i]. -/
def bitRev (n i : Nat) : Nat := bitRevDigits n i 0 0

/-- A complex array: one C array for the real parts and one for the imaginary parts. -/
structure Samples (α : Type) where
  real : Nat → α
  imag : Nat → α

/-- The first loop of fft_radix2. -/
def swapLoop {α : Type} (rev : Nat → Nat) (n : Nat) (s : Samples α) : Samples α :=
  (List.range n).foldl
    (fun s i => if i < rev i then ⟨exchange s.real i (rev i), exchange s.imag i (rev i)⟩ else s) s

/-- From digit b on, the loop turns digit b of i into digit k - 1 - b. -/
theorem bitRevDigits_testBit (k i b rev j : Nat) : (bitRevDigits (2 ^ k) i b rev).testBit j =
    (rev.testBit j || (decide (j + b < k) && i.testBit (k - 1 - j))) := by
  fun_induction bitRevDigits (2 ^ k) i b rev with
  | case1 b rev more ih =>
    rw [Nat.one_shiftLeft, Nat.pow_lt_pow_iff_right (by decide)] at more
    have shifted : 2 ^ k >>> (b + 1) = 2 ^ (k - (b + 1)) := by
      rw [Nat.shiftRight_eq_div_pow, Nat.pow_div more Nat.two_pos]
    have tested : i &&& 1 <<< b ≠ 0 ↔ i.testBit b = true := by
      rw [Nat.one_shiftLeft, Nat.and_two_pow]
      cases i.testBit b <;> simp
    have entered : (if i &&& 1 <<< b ≠ 0 then rev ||| 2 ^ k >>> (b + 1) else rev).testBit j =
        (rev.testBit j || (decide (k - (b + 1) = j) && i.testBit b)) := by
      rw [if_congr tested rfl rfl, shifted]
      cases i.testBit b <;> simp [Nat.testBit_two_pow]
    simp only [dite_eq_ite] at ih
    rw [ih, entered, Bool.or_assoc]
    congr 1
    rcases eq_or_ne (k - (b + 1)) j with rfl | other
    · have digit : k - 1 - (k - (b + 1)) = b := by omega
      have next : ¬ k - (b + 1) + (b + 1) < k := by omega
      have here : k - (b + 1) + b < k := by omega
      simp [digit, next, here]
    · have same : j + (b + 1) < k ↔ j + b < k := by omega
      simp [other, same]
  | case2 b rev done =>
    rw [Nat.one_shiftLeft, Nat.pow_lt_pow_iff_right (by decide)] at done
    rw [decide_eq_false (by omega), Bool.false_and, Bool.or_false]

/-- The table for 2 ^ k values reverses k digits. -/
theorem bitRev_reversed (k i : Nat) : bitRev (2 ^ k) i = reversed k i := by
  refine Nat.eq_of_testBit_eq fun j => ?_
  rw [bitRev, bitRevDigits_testBit, Nat.zero_testBit, Bool.false_or, Nat.add_zero]
  rcases lt_or_ge j k with inside | above
  · rw [decide_eq_true inside, Bool.true_and, reversed_testBit inside]
  · have power : 2 ^ k ≤ 2 ^ j := Nat.pow_le_pow_right Nat.two_pos above
    rw [decide_eq_false (not_lt.mpr above), Bool.false_and, Nat.testBit_lt_two_pow ((reversed_lt k i).trans_le power)]

/-- The loop treats the two arrays alike. -/
theorem swapLoop_parts {α : Type} (rev : Nat → Nat) (n : Nat) (s : Samples α) :
    (swapLoop rev n s).real = exchangeAhead rev n s.real ∧ (swapLoop rev n s).imag = exchangeAhead rev n s.imag := by
  constructor
  · refine (List.foldl_hom Samples.real fun s i => ?_).symm
    split <;> rfl
  · refine (List.foldl_hom Samples.imag fun s i => ?_).symm
    split <;> rfl

/-- The loop reads each value from where the table says. -/
theorem swapLoop_cells {α : Type} {k i : Nat} (inside : i < 2 ^ k) (s : Samples α) :
    (swapLoop (bitRev (2 ^ k)) (2 ^ k) s).real i = s.real (reversed k i) ∧
      (swapLoop (bitRev (2 ^ k)) (2 ^ k) s).imag i = s.imag (reversed k i) := by
  have table : bitRev (2 ^ k) = reversed k := funext (bitRev_reversed k)
  have within : ∀ i < 2 ^ k, reversed k i < 2 ^ k := fun i _ => reversed_lt k i
  have own : ∀ i < 2 ^ k, reversed k (reversed k i) = i := fun i below => reversed_reversed below
  obtain ⟨real, imag⟩ := swapLoop_parts (reversed k) (2 ^ k) s
  rw [table, real, imag]
  exact ⟨exchangeAhead_all within own s.real inside, exchangeAhead_all within own s.imag inside⟩

/-- The table permutes the indices, digit by digit and in pairs, and the loop moves the values along. -/
theorem bit_rev_permutes {α : Type} (k : Nat) (s : Samples α) :
    (∀ i < 2 ^ k, bitRev (2 ^ k) i < 2 ^ k) ∧
    (∀ i < 2 ^ k, ∀ j < k, (bitRev (2 ^ k) i).testBit j = i.testBit (k - 1 - j)) ∧
    (∀ i < 2 ^ k, bitRev (2 ^ k) (bitRev (2 ^ k) i) = i) ∧
    ∀ i < 2 ^ k, (swapLoop (bitRev (2 ^ k)) (2 ^ k) s).real i = s.real (bitRev (2 ^ k) i) ∧
      (swapLoop (bitRev (2 ^ k)) (2 ^ k) s).imag i = s.imag (bitRev (2 ^ k) i) := by
  have table : bitRev (2 ^ k) = reversed k := funext (bitRev_reversed k)
  refine ⟨fun i _ => ?_, fun i _ j below => ?_, fun i inside => ?_, fun i inside => ?_⟩
  · rw [table]
    exact reversed_lt k i
  · rw [table]
    exact reversed_testBit below i
  · rw [table]
    exact reversed_reversed inside
  · rw [bitRev_reversed]
    exact swapLoop_cells inside s

end ServMark
