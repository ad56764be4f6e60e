import ServMark.Library.Printf

/-! The numbers of int_parse.c as its generator writes them and as its parser reads them. -/
namespace ServMark
open CText Printf

abbrev int64Max : Int := 2 ^ 63 - 1

/-- The size that every snprintf is given. -/
def itemRoom : Nat := 32

/-- The bytes written to the buffer so far and the offset of the next write. -/
structure ItemBuffer where
  bytes : List Char
  p : Nat

/-- One snprintf with the format "%ld,"; a zero follows the text. -/
def writeItem (b : ItemBuffer) (val : Int) : ItemBuffer :=
  let text := printInt val ++ [',']
  ⟨b.bytes.take b.p ++ text.take (itemRoom - 1) ++ [Char.ofNat 0], b.p + text.length⟩

def intParseInit (vals : List Int) : ItemBuffer := vals.foldl writeItem ⟨[], 0⟩

/-- The loop over the digits. It has no result where a sum overflows or where it reads a byte
that nothing was written to. -/
def parseDigits : Int → List Char → Option (Int × List Char)
  | _, [] => none
  | val, c :: p =>
    if c.isDigit then
      let next := val * 10 + ((c.toNat : Int) - '0'.toNat)
      if next ≤ int64Max then parseDigits next p else none
    else some (val, c :: p)

/-- The value and the pointer that are left. -/
def parseIntFast (p : List Char) : Option (Int × List Char) :=
  (parseDigits 0 p).map (fun parsed =>
    (parsed.1, if parsed.2.head? = some ',' then parsed.2.tail else parsed.2))

/-- So many calls, each from where the one before has left the pointer. -/
def parseItems : Nat → List Char → Option (List Int × List Char)
  | 0, p => some ([], p)
  | n + 1, p => (parseIntFast p).bind (fun parsed =>
      (parseItems n parsed.2).map (fun rest => (parsed.1 :: rest.1, rest.2)))

theorem decimal_cons (c : Char) (digits : List Char) :
    decimal (c :: digits) = 10 ^ digits.length * (c.toNat - '0'.toNat) + decimal digits := by
  have split := decimal_append [c] digits
  rw [List.singleton_append] at split
  rw [split]
  simp [decimal]

theorem digit_low {c : Char} (digit : c.isDigit = true) : '0'.toNat ≤ c.toNat := by
  simp only [Char.isDigit, Bool.and_eq_true, decide_eq_true_eq, ge_iff_le, UInt32.le_iff_toNat_le] at digit
  exact digit.1

/-- The loop reads digits up to a byte that is none, if the whole number fits. -/
theorem parseDigits_run {digits : List Char} (all : ∀ c ∈ digits, c.isDigit = true) {stop : Char}
    (stops : stop.isDigit = false) (rest : List Char) {val : Int} (sign : 0 ≤ val)
    (fits : val * 10 ^ digits.length + decimal digits ≤ int64Max) :
    parseDigits val (digits ++ stop :: rest) =
      some (val * 10 ^ digits.length + decimal digits, stop :: rest) := by
  induction digits generalizing val with
  | nil => simp [parseDigits, stops, decimal]
  | cons c digits ih =>
    obtain ⟨digit, later⟩ := List.forall_mem_cons.mp all
    have low := digit_low digit
    have whole : val * 10 ^ (c :: digits).length + decimal (c :: digits) =
        (val * 10 + ((c.toNat : Int) - '0'.toNat)) * 10 ^ digits.length + decimal digits := by
      rw [decimal_cons, Nat.cast_add, Nat.cast_mul, Int.ofNat_sub low, List.length_cons, pow_succ]
      push_cast
      ring
    have next : 0 ≤ val * 10 + ((c.toNat : Int) - '0'.toNat) := by omega
    have grows : val * 10 + ((c.toNat : Int) - '0'.toNat) ≤
        (val * 10 + ((c.toNat : Int) - '0'.toNat)) * 10 ^ digits.length :=
      le_mul_of_one_le_right next (one_le_pow₀ (by decide))
    rw [whole] at fits ⊢
    rw [List.cons_append, parseDigits, if_pos digit, if_pos (by omega), ih later next fits]

theorem printInt_nat (n : Nat) : printInt n = printNat n := by
  have sign : ¬ (n : Int) < 0 := by omega
  rw [printInt, if_neg sign, List.nil_append, Int.natAbs_natCast]

/-- One call reads one number and its comma. -/
theorem parseIntFast_item {n : Nat} (fits : (n : Int) ≤ int64Max) (rest : List Char) :
    parseIntFast (printInt n ++ ',' :: rest) = some ((n : Int), rest) := by
  have run := parseDigits_run (fun c member => printNat_digits (n := n) c member)
    (show ','.isDigit = false by decide) rest le_rfl (by rwa [zero_mul, zero_add, decimal_printNat])
  rw [zero_mul, zero_add, decimal_printNat] at run
  rw [printInt_nat, parseIntFast, run]
  rfl

/-- The text of the numbers, each with its comma. -/
def itemsText (vals : List Int) : List Char := vals.flatMap (fun val => printInt val ++ [','])

theorem itemsText_cons (val : Int) (vals : List Int) :
    itemsText (val :: vals) = printInt val ++ ',' :: itemsText vals := by simp [itemsText]

/-- A value of the parser: none is negative or beyond the int64_t. -/
def Item (val : Int) : Prop := 0 ≤ val ∧ val < 2 ^ 63

theorem parseItems_text {vals : List Int} (items : ∀ val ∈ vals, Item val) (rest : List Char) :
    parseItems vals.length (itemsText vals ++ rest) = some (vals, rest) := by
  induction vals with
  | nil => rfl
  | cons val vals ih =>
    obtain ⟨⟨sign, below⟩, later⟩ := List.forall_mem_cons.mp items
    obtain ⟨n, rfl⟩ := Int.eq_ofNat_of_zero_le sign
    rw [itemsText_cons, List.append_assoc, List.cons_append, List.length_cons, parseItems,
      parseIntFast_item (Int.le_sub_one_of_lt below), Option.bind_some, ih later]
    rfl

theorem item_length {val : Int} (item : Item val) : (printInt val ++ [',']).length ≤ itemRoom - 1 := by
  obtain ⟨n, rfl⟩ := Int.eq_ofNat_of_zero_le item.1
  have digits : (printNat n).length ≤ 19 :=
    (Nat.length_toDigits_le_iff (by decide) (by decide)).mpr (by have := item.2; omega)
  rw [printInt_nat, List.length_append, List.length_singleton, itemRoom]
  omega

theorem writeItem_text {front : List Char} {b : ItemBuffer} (front_ : b.bytes.take b.p = front)
    (end_ : b.p = front.length) {val : Int} (item : Item val) :
    writeItem b val = ⟨front ++ (printInt val ++ [',']) ++ [Char.ofNat 0],
      (front ++ (printInt val ++ [','])).length⟩ := by
  rw [writeItem, List.take_of_length_le (item_length item), front_, end_, @List.length_append _ front]

/-- The generator leaves the text of the numbers and a zero, and the offset of the zero. -/
theorem intParseInit_text {vals : List Int} (items : ∀ val ∈ vals, Item val) (some_ : vals ≠ []) :
    intParseInit vals = ⟨itemsText vals ++ [Char.ofNat 0], (itemsText vals).length⟩ := by
  induction vals using List.reverseRecOn with
  | nil => exact absurd rfl some_
  | append_singleton vals val ih =>
    have item : Item val := items val (by simp)
    have text : itemsText (vals ++ [val]) = itemsText vals ++ (printInt val ++ [',']) := by simp [itemsText]
    rw [intParseInit, List.foldl_append, ← intParseInit, List.foldl_cons, List.foldl_nil, text]
    rcases eq_or_ne vals [] with rfl | more
    · exact writeItem_text rfl rfl item
    · rw [ih (fun other member => items other (by simp [member])) more]
      exact writeItem_text (by simp) rfl item

/-- The parser reads back what the generator wrote and stops behind the last comma. -/
theorem parse_inverts_generator (vals : List Int) (items : ∀ val ∈ vals, 0 ≤ val ∧ val < 2 ^ 63) :
    parseItems vals.length (intParseInit vals).bytes =
        some (vals, (intParseInit vals).bytes.drop (intParseInit vals).p) ∧
      ',' ∉ (intParseInit vals).bytes.drop (intParseInit vals).p ∧
      (vals ≠ [] → (intParseInit vals).bytes[(intParseInit vals).p - 1]? = some ',') := by
  rcases eq_or_ne vals [] with rfl | some_
  · exact ⟨rfl, List.not_mem_nil, fun some_ => absurd rfl some_⟩
  · have whole := parseItems_text items [Char.ofNat 0]
    rw [intParseInit_text items some_]
    dsimp only
    rw [List.drop_left]
    refine ⟨whole, by decide, fun _ => ?_⟩
    obtain ⟨front, last, rfl⟩ := (List.eq_nil_or_concat' vals).resolve_left some_
    have text : itemsText (front ++ [last]) = itemsText front ++ printInt last ++ [','] := by simp [itemsText]
    rw [text]
    simp

theorem parse_inverts_generator_ends :
    parseItems 3 (intParseInit [0, 9223372036854775807, 42]).bytes =
      some ([0, 9223372036854775807, 42], [Char.ofNat 0]) := by
  have read := (parse_inverts_generator [0, 9223372036854775807, 42] (by decide)).1
  have rest : (intParseInit [0, 9223372036854775807, 42]).bytes.drop
      (intParseInit [0, 9223372036854775807, 42]).p = [Char.ofNat 0] := by decide +kernel
  rwa [rest] at read

end ServMark
