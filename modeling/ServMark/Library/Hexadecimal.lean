import Mathlib.Data.Nat.Bitwise
import ServMark.Library.Printf

/-! Unsigned numbers as strtoul reads them, in particular the hexadecimal ones of printf, and the
bits of a number counted. -/
namespace CText
open Printf

/-- The value of a digit in a base of at most sixteen. -/
def digitValue (c : Char) : Option Nat :=
  if c.isDigit then some (c.toNat - '0'.toNat)
  else if 'a' ≤ c ∧ c ≤ 'f' then some (c.toNat - 'a'.toNat + 10)
  else if 'A' ≤ c ∧ c ≤ 'F' then some (c.toNat - 'A'.toNat + 10)
  else none

def baseDigit (base : Nat) (c : Char) : Bool := (digitValue c).any (fun d => d < base)

def baseNumber (base : Nat) (digits : List Char) : Nat :=
  digits.foldl (fun n c => base * n + (digitValue c).getD 0) 0

/-- What follows the "0x" that a hexadecimal number may begin with. -/
def behindMark : List Char → List Char
  | '0' :: x :: c :: s => if (x = 'x' ∨ x = 'X') ∧ baseDigit 16 c then c :: s else '0' :: x :: c :: s
  | s => s

/-- strtoul for an unsigned long of 64 bits. -/
def strtoul (base : Nat) (s : List Char) : Nat :=
  let parts := signed (s.dropWhile isspace)
  let behind := if base = 16 then behindMark parts.2 else parts.2
  let n := baseNumber base (behind.takeWhile (baseDigit base))
  if 2 ^ 64 ≤ n then 2 ^ 64 - 1
  else if parts.1 < 0 then (2 ^ 64 - n) % 2 ^ 64 else n

example : strtoul 16 "0000fF1c,7".toList = 65308 ∧ strtoul 16 "0x1f".toList = 31 ∧
    strtoul 10 " 42 kB".toList = 42 := by decide +kernel

theorem hex_digit : ∀ d < 16, digitValue (Nat.digitChar d) = some d ∧ isspace (Nat.digitChar d) = false ∧
    Nat.digitChar d ≠ '-' ∧ Nat.digitChar d ≠ '+' ∧ Nat.digitChar d ≠ 'x' ∧ Nat.digitChar d ≠ 'X' ∧
    Nat.digitChar d ≠ ',' ∧ Nat.digitChar d ≠ '\n' ∧ Nat.digitChar d ≠ '\r' ∧
    Nat.digitChar d ≠ Char.ofNat 0 := by decide

theorem baseNumber_append (base : Nat) (digits : List Char) (c : Char) :
    baseNumber base (digits ++ [c]) = base * baseNumber base digits + (digitValue c).getD 0 := by
  simp [baseNumber]

theorem baseNumber_toDigits (n : Nat) : baseNumber 16 (Nat.toDigits 16 n) = n := by
  induction n using Nat.strongRecOn with
  | ind n ih =>
    by_cases small : n < 16
    · rw [Nat.toDigits_of_lt_base small]
      simp [baseNumber, (hex_digit n small).1]
    · rw [Nat.toDigits_of_base_le (by decide) (by omega), baseNumber_append, ih (n / 16) (by omega),
        (hex_digit (n % 16) (by omega)).1]
      exact Nat.div_add_mod n 16

theorem baseNumber_printHex (width n : Nat) : baseNumber 16 (printHex width n) = n := by
  have zeros : ∀ count, baseNumber 16 (List.replicate count '0') = 0 := by
    intro count
    induction count with
    | zero => rfl
    | succ count ih =>
      rw [List.replicate_succ', baseNumber_append, ih]
      rfl
  have start : baseNumber 16 (printHex width n) = (Nat.toDigits 16 n).foldl
      (fun n c => 16 * n + (digitValue c).getD 0)
      (baseNumber 16 (List.replicate (width - (Nat.toDigits 16 n).length) '0')) := by
    rw [printHex, List.leftpad, baseNumber, List.foldl_append, ← baseNumber]
  rw [start, zeros]
  exact baseNumber_toDigits n

theorem printHex_length {width n : Nat} (positive : 0 < width) (fits : n < 16 ^ width) :
    (printHex width n).length = width := by
  have short : (Nat.toDigits 16 n).length ≤ width := (Nat.length_toDigits_le_iff (by decide) positive).mpr fits
  rw [printHex, List.leftpad, List.length_append, List.length_replicate]
  omega

/- The digits of a number, so many of them. -/
def hexDigits : Nat → Nat → List Char
  | 0, _ => []
  | width + 1, n => hexDigits width (n / 16) ++ [Nat.digitChar (n % 16)]

theorem printHex_eq {width n : Nat} (fits : n < 16 ^ (width + 1)) : printHex (width + 1) n = hexDigits (width + 1) n := by
  have padded (width : Nat) (s : List Char) (c : Char) : (s ++ [c]).leftpad (width + 1) '0' = s.leftpad width '0' ++ [c] := by
    simp [List.leftpad]
  induction width generalizing n with
  | zero =>
    have small : n < 16 := by omega
    rw [printHex, Nat.toDigits_of_lt_base small, hexDigits, Nat.mod_eq_of_lt small]
    rfl
  | succ width ih =>
    have shorter : n / 16 < 16 ^ (width + 1) := by
      rw [pow_succ] at fits
      omega
    rcases Nat.lt_or_ge n 16 with small | large
    · have zero : printHex (width + 1) 0 = List.replicate (width + 1) '0' := by
        simp [printHex, List.leftpad, List.replicate_succ']
      rw [hexDigits, ← ih shorter, Nat.div_eq_of_lt small, zero, Nat.mod_eq_of_lt small, printHex,
        Nat.toDigits_of_lt_base small]
      simp [List.leftpad]
    · rw [hexDigits, ← ih shorter, printHex, Nat.toDigits_of_base_le (by decide) large, padded]
      rfl

theorem hexDigits_append (front back n : Nat) :
    hexDigits (front + back) n = hexDigits front (n / 16 ^ back) ++ hexDigits back n := by
  induction back generalizing n with
  | zero => simp [hexDigits]
  | succ back ih =>
    rw [← Nat.add_assoc, hexDigits, hexDigits, ih, Nat.div_div_eq_div_mul, ← pow_succ', List.append_assoc]

/-- strtoul reads back what printf wrote. -/
theorem strtoul_printHex {width n : Nat} (fits : n < 2 ^ 64) : strtoul 16 (printHex width n) = n := by
  have digits : ∀ c ∈ printHex width n, ∃ d < 16, c = Nat.digitChar d := printHex_digits
  have whole : (printHex width n).takeWhile (baseDigit 16) = printHex width n := by
    refine List.takeWhile_eq_self_iff.mpr (fun c member => ?_)
    obtain ⟨d, small, rfl⟩ := digits c member
    simp [baseDigit, hex_digit d small, small]
  have solid : (printHex width n).dropWhile isspace = printHex width n := by
    refine List.dropWhile_eq_self_iff.mpr (fun some_ => ?_)
    obtain ⟨d, small, eq⟩ := digits _ (List.getElem_mem some_)
    simp [eq, hex_digit d small]
  have unsigned : signed (printHex width n) = (1, printHex width n) := by
    unfold signed
    split
    · rename_i eq
      obtain ⟨d, small, minus⟩ := digits '-' (by simp [eq])
      exact absurd minus.symm (hex_digit d small).2.2.1
    · rename_i eq
      obtain ⟨d, small, plus⟩ := digits '+' (by simp [eq])
      exact absurd plus.symm (hex_digit d small).2.2.2.1
    · rfl
  have unmarked : behindMark (printHex width n) = printHex width n := by
    unfold behindMark
    split
    · rename_i x c s eq
      obtain ⟨d, small, digit⟩ := digits x (by simp [eq])
      have plain := hex_digit d small
      rw [if_neg (by simp [digit, plain]), eq]
    · rfl
  simp only [strtoul, solid, unsigned, if_true, unmarked, whole, baseNumber_printHex]
  rw [if_neg (by omega), if_neg (by decide)]

/- Bits. -/

theorem and_bit (val b : Nat) : val &&& (1 <<< b) ≠ 0 ↔ val.testBit b = true := by
  rw [Nat.one_shiftLeft, Nat.and_two_pow]
  cases val.testBit b <;> simp

/-- The members of a set among so many numbers, as bits from the lowest on. -/
def memberBits (width : Nat) (set : Finset Nat) (start : Nat) : Nat :=
  Nat.ofBits (fun b : Fin width => decide (start + b ∈ set))

theorem memberBits_count (width : Nat) (set : Finset Nat) (start : Nat) :
    ((List.range width).filter (fun b => (memberBits width set start).testBit b)).length =
      (List.range width).countP (fun b => start + b ∈ set) := by
  rw [← List.countP_eq_length_filter]
  refine List.countP_congr (fun b member => ?_)
  rw [memberBits, Nat.testBit_ofBits_lt _ _ (List.mem_range.mp member)]

/-- A set of numbers below a bound has as many members as the numbers below the bound that are in it. -/
theorem card_countP {set : Finset Nat} {bound : Nat} (below : ∀ n ∈ set, n < bound) :
    set.card = (List.range bound).countP (fun n => n ∈ set) := by
  have same : set = (Finset.range bound).filter (fun n => n ∈ set) := by
    ext n
    simp only [Finset.mem_filter, Finset.mem_range]
    exact ⟨fun member => ⟨below n member, member⟩, fun both => both.2⟩
  conv_lhs => rw [same]
  rw [List.countP_eq_length_filter]
  rfl

end CText
