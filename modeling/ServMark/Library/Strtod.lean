import Mathlib.Data.Int.Log
import ServMark.Library.Hexadecimal

/-! strtod: decimal and hexadecimal numbers, infinities and NaN, rounded to the nearest double. -/
namespace CText
open Printf

/-- What a double holds. The two zeros are one, and so are all NaN. -/
inductive Double where
  | finite (value : ℚ)
  | infinite (negative : Bool)
  | nan
  deriving DecidableEq

instance : Zero Double := ⟨.finite 0⟩

/-- The distance of the doubles around x, as a power of two. -/
def spacing (x : ℚ) : Int := max (Int.log 2 |x| - 52) (-1074)

/-- The double next to x, of two the one with an even mantissa. -/
def nearestDouble (x : ℚ) : Double :=
  let value : ℚ := nearest (x / 2 ^ spacing x) * 2 ^ spacing x
  if 2 ^ 1024 ≤ |value| then .infinite (decide (x < 0)) else .finite value

/-- The text begins with this word of small letters, in any case. -/
def beginsFolded : List Char → List Char → Bool
  | [], _ => true
  | _ :: _, [] => false
  | x :: word, c :: s => c.toLower == x && beginsFolded word s

/-- The hexadecimal number at the start of the text, none without a digit behind its mark. -/
def hexadecimalValue (s : List Char) : Option ℚ :=
  let number := mantissa (baseDigit 16) (s.drop 2)
  if beginsFolded "0x".toList s = false ∨ number.1 = [] ∧ number.2.1 = [] then none
  else some (baseNumber 16 (number.1 ++ number.2.1) * 2 ^ (exponent ['p', 'P'] number.2.2 - 4 * number.2.1.length))

/-- strtod, and atof with it: what the longest number at the start of the text stands for. -/
def atof (s : List Char) : Double :=
  let parts := signed (s.dropWhile isspace)
  if beginsFolded "inf".toList parts.2 then .infinite (decide (parts.1 < 0))
  else if beginsFolded "nan".toList parts.2 then .nan
  else
    match hexadecimalValue parts.2 with
    | some value => nearestDouble (parts.1 * value)
    | none => nearestDouble (decimalValue s)

example : atof " -0x1.8p1 ".toList = .finite (-3) ∧ atof "-Infinity".toList = .infinite true ∧
    atof "1e309".toList = .infinite false ∧ atof "NaN".toList = .nan ∧ atof "0xg".toList = .finite 0 := by
  decide +kernel

/- A number ends before a byte that no number has. -/

/-- The bytes that the numbers of strtod are spelt with. -/
def spelling (c : Char) : Bool := c.isAlphanum || c == '.' || c == '+' || c == '-'

theorem spelling_parts {c : Char} (stop : spelling c = false) :
    (c.isUpper = false ∧ c.isLower = false) ∧ c.isDigit = false := by
  have parts : ((((c.isUpper || c.isLower) || c.isDigit) || c == '.') || c == '+' || c == '-') = false := stop
  simp only [Bool.or_eq_false_iff] at parts
  exact parts.1.1.1

theorem spelling_numeric {c : Char} (stop : spelling c = false) : numeric c = false := by
  cases own : numeric c with
  | false => rfl
  | true =>
    simp only [numeric, Bool.or_eq_true, beq_iff_eq] at own
    rcases own with ((((digit | rfl) | rfl) | rfl) | rfl) | rfl
    · rw [(spelling_parts stop).2] at digit
      cases digit
    all_goals exact absurd stop (by decide)

/-- Both bounds of a test by two comparisons. -/
theorem within_of_both {low c high : UInt32} (both : (decide (c ≥ low) && decide (c ≤ high)) = true) :
    low.toNat ≤ c.toNat ∧ c.toNat ≤ high.toNat := by
  obtain ⟨above, below⟩ := Bool.and_eq_true_iff.mp both
  exact ⟨UInt32.le_iff_toNat_le.mp (of_decide_eq_true above), UInt32.le_iff_toNat_le.mp (of_decide_eq_true below)⟩

theorem isspace_alphanum {c : Char} (own : c.isAlphanum = true) : isspace c = false := by
  have low : 48 ≤ c.toNat := by
    have parts : ((c.isUpper || c.isLower) || c.isDigit) = true := own
    simp only [Bool.or_eq_true] at parts
    rcases parts with (upper | lower) | digit
    · have within : 'A'.val ≤ c.val ∧ c.val ≤ 'Z'.val := of_decide_eq_true upper
      exact le_trans (by decide) (UInt32.le_iff_toNat_le.mp within.1)
    · exact le_trans (by decide) (@within_of_both 'a'.val _ 'z'.val lower).1
    · exact (@within_of_both '0'.val _ '9'.val digit).1
  have space : ' '.toNat = 32 := rfl
  have other : c ≠ ' ' := fun eq => by rw [eq] at low; omega
  simp [isspace, other]
  omega

theorem spelling_toLower {c : Char} (stop : spelling c = false) : c.toLower = c := by
  refine dif_neg (fun upper => ?_)
  have letter : c.isUpper = true := decide_eq_true upper
  rw [(spelling_parts stop).1.1] at letter
  cases letter

theorem spelling_digit {c : Char} (stop : spelling c = false) : baseDigit 16 c = false := by
  obtain ⟨⟨upper, lower⟩, digit⟩ := spelling_parts stop
  have small : ¬ ('a' ≤ c ∧ c ≤ 'f') := fun within => by
    have letter : c.isLower = true :=
      Bool.and_eq_true_iff.mpr ⟨decide_eq_true within.1, decide_eq_true (UInt32.le_trans within.2 (by decide))⟩
    rw [lower] at letter
    cases letter
  have capital : ¬ ('A' ≤ c ∧ c ≤ 'F') := fun within => by
    have letter : c.isUpper = true := decide_eq_true ⟨within.1, UInt32.le_trans within.2 (by decide)⟩
    rw [upper] at letter
    cases letter
  simp only [baseDigit, digitValue, digit, small, capital, Bool.false_eq_true, if_false, Option.any_none]

theorem beginsFolded_length {word s : List Char} (begins : beginsFolded word s = true) : word.length ≤ s.length := by
  induction word generalizing s with
  | nil => exact Nat.zero_le _
  | cons x word ih =>
    cases s with
    | nil => cases begins
    | cons c s =>
      rw [beginsFolded, Bool.and_eq_true] at begins
      exact Nat.succ_le_succ (ih begins.2)

section Suffix
variable {rest : List Char} (stops : ∀ c ∈ rest.head?, spelling c = false)
include stops

theorem beginsFolded_append {word : List Char} (spelt : ∀ x ∈ word, spelling x = true) (s : List Char) :
    beginsFolded word (s ++ rest) = beginsFolded word s := by
  induction word generalizing s with
  | nil => rfl
  | cons x word ih =>
    obtain ⟨own, spelt⟩ := List.forall_mem_cons.mp spelt
    cases s with
    | cons c s => rw [List.cons_append, beginsFolded, beginsFolded, ih spelt]
    | nil =>
      cases rest with
      | nil => rfl
      | cons c rest =>
        have other : c ≠ x := fun eq => by
          rw [eq] at stops
          rw [stops x rfl] at own
          cases own
        simp [beginsFolded, spelling_toLower (stops c rfl), other]

theorem spelling_absent {x : Char} (own : spelling x = true) : rest.head? ≠ some x := by
  intro first
  rw [stops x first] at own
  cases own

theorem hexadecimalValue_append (s : List Char) : hexadecimalValue (s ++ rest) = hexadecimalValue s := by
  have digits : ∀ c ∈ rest.head?, baseDigit 16 c = false := fun c first => spelling_digit (stops c first)
  have numbers : ∀ c ∈ rest.head?, numeric c = false := fun c first => spelling_numeric (stops c first)
  have point : rest.head? ≠ some '.' := spelling_absent stops (by decide)
  have letters : ∀ c ∈ rest.head?, c ∉ ['p', 'P'] := by
    intro c first letter
    rcases List.mem_pair.mp letter with rfl | rfl
    · exact spelling_absent stops (by decide) first
    · exact spelling_absent stops (by decide) first
  have mark : ∀ x ∈ "0x".toList, spelling x = true := List.all_eq_true.mp (by decide)
  unfold hexadecimalValue
  rw [beginsFolded_append stops mark]
  cases marked : beginsFolded "0x".toList s with
  | false => rfl
  | true =>
    have long : 2 ≤ s.length := beginsFolded_length marked
    simp only [List.drop_append_of_le_length long, mantissa_append digits point, exponent_append numbers letters]

/-- What follows a number and cannot continue it does not change what is read. -/
theorem atof_append {s : List Char} (skips : (s ++ rest).dropWhile isspace = s.dropWhile isspace ++ rest) :
    atof (s ++ rest) = atof s := by
  have numbers : ∀ c ∈ rest.head?, numeric c = false := fun c first => spelling_numeric (stops c first)
  have infinity : ∀ x ∈ "inf".toList, spelling x = true := List.all_eq_true.mp (by decide)
  have nan : ∀ x ∈ "nan".toList, spelling x = true := List.all_eq_true.mp (by decide)
  simp only [atof, skips, signed_append numbers, decimalValue_append numbers skips,
    beginsFolded_append stops infinity, beginsFolded_append stops nan, hexadecimalValue_append stops]

end Suffix

end CText
