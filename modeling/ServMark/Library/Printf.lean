import ServMark.Library.CText

/-! Numbers as printf writes them, and the numbers these texts stand for. -/
namespace Printf
open CText

def printNat (n : Nat) : List Char := Nat.toDigits 10 n

/-- The conversion %d. -/
def printInt (n : Int) : List Char := (if n < 0 then ['-'] else []) ++ printNat n.natAbs

/-- The conversions %02x, %04x and %08x. -/
def printHex (width n : Nat) : List Char := (Nat.toDigits 16 n).leftpad width '0'

def zeroPadded (width n : Nat) : List Char := (printNat n).leftpad width '0'

section Fixed
variable {α : Type} [Field α] [LinearOrder α] [FloorRing α]

/- The integer next to x, the even one halfway between two. -/
def nearest (x : α) : Int :=
  if Int.fract x < 1 - Int.fract x then ⌊x⌋
  else if 1 - Int.fract x < Int.fract x then ⌊x⌋ + 1
  else if ⌊x⌋ % 2 = 0 then ⌊x⌋ else ⌊x⌋ + 1

/-- The conversion %.Nf of a finite number. -/
def printFixed (places : Nat) (x : α) : List Char :=
  let scale : Nat := 10 ^ places
  let units := (nearest (|x| * scale)).toNat
  (if x < 0 then ['-'] else []) ++ printNat (units / scale) ++
    if places = 0 then [] else '.' :: zeroPadded places (units % scale)

end Fixed

example : printFixed 6 (1 / 8 : ℚ) = "0.125000".toList ∧ printFixed 1 (-9 / 4 : ℚ) = "-2.2".toList ∧
    printInt (-15) = "-15".toList := by decide +kernel

theorem printNat_some (n : Nat) : printNat n ≠ [] := Nat.toDigits_ne_nil

theorem printNat_digits {n : Nat} : ∀ c ∈ printNat n, c.isDigit = true := fun _ member =>
  Nat.isDigit_of_mem_toDigits (by decide) (by decide) member

theorem zeroPadded_digits {width n : Nat} : ∀ c ∈ zeroPadded width n, c.isDigit = true := by
  intro c member
  simp only [zeroPadded, List.leftpad, List.mem_append] at member
  rcases member with zero | digit
  · rw [List.eq_of_mem_replicate zero]
    decide
  · exact printNat_digits c digit

theorem zeroPadded_length {width n : Nat} (positive : 0 < width) (fits : n < 10 ^ width) :
    (zeroPadded width n).length = width := by
  have short : (printNat n).length ≤ width := (Nat.length_toDigits_le_iff (by decide) positive).mpr fits
  rw [zeroPadded, List.leftpad, List.length_append, List.length_replicate]
  omega

theorem hex_digits (n : Nat) : ∀ c ∈ Nat.toDigits 16 n, ∃ d, d < 16 ∧ c = Nat.digitChar d := by
  induction n using Nat.strongRecOn with
  | ind n ih =>
    intro c member
    by_cases small : n < 16
    · rw [Nat.toDigits_of_lt_base small, List.mem_singleton] at member
      exact ⟨n, small, member⟩
    · rw [Nat.toDigits_of_base_le (by decide) (by omega), List.mem_append, List.mem_singleton] at member
      rcases member with front | last
      · exact ih (n / 16) (by omega) c front
      · exact ⟨n % 16, by omega, last⟩

theorem printHex_digits {width n : Nat} : ∀ c ∈ printHex width n, ∃ d, d < 16 ∧ c = Nat.digitChar d := by
  intro c member
  simp only [printHex, List.leftpad, List.mem_append] at member
  rcases member with zero | digit
  · exact ⟨0, by decide, List.eq_of_mem_replicate zero⟩
  · exact hex_digits n c digit

theorem decimal_eq (digits : List Char) : decimal digits = Nat.ofDigitChars 10 digits 0 :=
  Nat.ofDigitChars_eq_foldl.symm

theorem decimal_append (front back : List Char) :
    decimal (front ++ back) = 10 ^ back.length * decimal front + decimal back := by
  simp only [decimal_eq, Nat.ofDigitChars_append]
  exact Nat.ofDigitChars_eq_ofDigitChars_zero

theorem decimal_printNat (n : Nat) : decimal (printNat n) = n := by
  rw [decimal_eq]
  exact Nat.ofDigitChars_ten_toDigits

theorem decimal_zeroPadded (width n : Nat) : decimal (zeroPadded width n) = n := by
  rw [zeroPadded, List.leftpad, decimal_append, decimal_printNat, decimal_eq, Nat.ofDigitChars_replicate_zero,
    Nat.mul_zero, Nat.mul_zero, Nat.zero_add]

section Exact
variable {α : Type} [Field α] [LinearOrder α] [IsStrictOrderedRing α] [FloorRing α]

theorem nearest_natCast (n : Nat) : nearest (n : α) = n := by
  simp only [nearest, Int.fract_natCast, sub_zero, zero_lt_one, if_true, Int.floor_natCast]

/-- A number of that many places is printed exactly. -/
theorem printFixed_units {places : Nat} (positive : 0 < places) (units : Nat) :
    printFixed places (units / 10 ^ places : α) =
      printNat (units / 10 ^ places) ++ '.' :: zeroPadded places (units % 10 ^ places) := by
  have scale : (0 : α) < 10 ^ places := by positivity
  have sign : (0 : α) ≤ units / 10 ^ places := by positivity
  have whole : |(units / 10 ^ places : α)| * (10 ^ places : Nat) = units := by
    rw [abs_of_nonneg sign, Nat.cast_pow, Nat.cast_ofNat, div_mul_cancel₀ _ scale.ne']
  simp only [printFixed, whole, nearest_natCast, Int.toNat_natCast, if_neg sign.not_gt, if_neg positive.ne',
    List.nil_append]

end Exact

/-- A number of that many places is printed as itself. -/
theorem decimalValue_printed {places : Nat} (positive : 0 < places) (units : Nat) :
    decimalValue (printNat (units / 10 ^ places) ++ '.' :: zeroPadded places (units % 10 ^ places)) =
      units / 10 ^ places := by
  let n : Numeral := ⟨printNat (units / 10 ^ places), printNat_some _, List.all_eq_true.mpr printNat_digits⟩
  have scale : 0 < 10 ^ places := by positivity
  have fraction : (zeroPadded places (units % 10 ^ places)).takeWhile Char.isDigit =
      zeroPadded places (units % 10 ^ places) := List.takeWhile_eq_self_iff.mpr zeroPadded_digits
  have behind : (zeroPadded places (units % 10 ^ places)).dropWhile Char.isDigit = [] :=
    List.dropWhile_eq_nil_iff.mpr zeroPadded_digits
  have length : (zeroPadded places (units % 10 ^ places)).length = places :=
    zeroPadded_length positive (Nat.mod_lt units scale)
  have stops : ∀ c ∈ ('.' :: zeroPadded places (units % 10 ^ places)).head?, c.isDigit = false := by
    rintro c ⟨⟩
    decide
  have digits : decimal (printNat (units / 10 ^ places) ++ zeroPadded places (units % 10 ^ places)) = units := by
    rw [decimal_append, decimal_printNat, decimal_zeroPadded, length]
    exact Nat.div_add_mod units (10 ^ places)
  have exponent : exponent ['e', 'E'] [] = 0 := rfl
  have start : decimalValue (n.chars ++ '.' :: zeroPadded places (units % 10 ^ places)) = units / 10 ^ places := by
    simp only [decimalValue, mantissa, n.behind, n.taken stops, List.head?_cons, if_true, List.tail_cons, fraction,
      behind, n.some_, false_and, if_false, exponent, length]
    rw [show n.chars = printNat (units / 10 ^ places) from rfl, digits]
    rw [zero_sub, zpow_neg, zpow_natCast, Int.cast_one, one_mul, div_eq_mul_inv]
  exact start

theorem printed_numeric (places units : Nat) :
    ∀ c ∈ printNat (units / 10 ^ places) ++ '.' :: zeroPadded places (units % 10 ^ places), numeric c = true := by
  intro c member
  have digit : c.isDigit = true → numeric c = true := fun own => by simp [numeric, own]
  rcases List.mem_append.mp member with whole | (_ | ⟨_, part⟩)
  · exact digit (printNat_digits c whole)
  · decide
  · exact digit (zeroPadded_digits c part)

section Close
variable {α : Type} [Field α] [LinearOrder α] [IsStrictOrderedRing α] [FloorRing α]

end Close

end Printf
