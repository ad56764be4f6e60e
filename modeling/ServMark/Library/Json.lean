import ServMark.Library.Printf

/-! JSON over bytes: a relation between what stands at some place of a text, the value read there
and what is left behind it. -/
namespace Json
open CText Printf

/- UTF-8: between two characters, or with bytes owed, the next of them in a range. -/
inductive Utf8 where
  | start
  | tail (more low high : Nat)

def Utf8.step (c : Char) : Utf8 → Option Utf8
  | start =>
    let b := c.toNat
    if b < 0x80 then some start
    else if 0xc2 ≤ b ∧ b ≤ 0xdf then some (tail 0 0x80 0xbf)
    else if b = 0xe0 then some (tail 1 0xa0 0xbf)
    else if b = 0xed then some (tail 1 0x80 0x9f)
    else if 0xe1 ≤ b ∧ b ≤ 0xef then some (tail 1 0x80 0xbf)
    else if b = 0xf0 then some (tail 2 0x90 0xbf)
    else if 0xf1 ≤ b ∧ b ≤ 0xf3 then some (tail 2 0x80 0xbf)
    else if b = 0xf4 then some (tail 2 0x80 0x8f)
    else none
  | tail more low high =>
    if low ≤ c.toNat ∧ c.toNat ≤ high then some (if more = 0 then start else tail (more - 1) 0x80 0xbf) else none

def Utf8.run : Utf8 → List Char → Option Utf8
  | st, [] => some st
  | st, c :: s => (st.step c).bind (fun next => next.run s)

def utf8 (s : List Char) : Prop := Utf8.start.run s = some .start

def Utf8.High : Utf8 → Prop
  | start => True
  | tail _ low _ => 0x80 ≤ low

theorem step_high {st next : Utf8} {c : Char} (step : st.step c = some next) : next.High := by
  cases st with
  | start =>
    simp only [Utf8.step] at step
    split_ifs at step <;> cases step <;> simp [Utf8.High]
  | tail more low high =>
    simp only [Utf8.step] at step
    split_ifs at step <;> cases step <;> simp [Utf8.High]

theorem run_ascii {st : Utf8} (high : st.High) {c : Char} (ascii : c.toNat < 0x80) (s t : List Char) :
    st.run (s ++ c :: t) = some .start ↔ st.run s = some .start ∧ utf8 t := by
  induction s generalizing st with
  | nil =>
    cases st with
    | start => simp [Utf8.run, Utf8.step, ascii, utf8]
    | tail more low _ =>
      have below : ¬ low ≤ c.toNat := fun reaches => absurd ascii (Nat.not_lt.mpr (high.trans reaches))
      simp [Utf8.run, Utf8.step, below]
  | cons x s ih =>
    cases step : st.step x with
    | none => simp [Utf8.run, step]
    | some next =>
      simp only [List.cons_append, Utf8.run, step, Option.bind_some]
      exact ih (step_high step)

/-- A byte below 0x80 separates what stands before it from what stands behind it. -/
theorem utf8_ascii {c : Char} (ascii : c.toNat < 0x80) (s t : List Char) :
    utf8 (s ++ c :: t) ↔ utf8 s ∧ utf8 t := @run_ascii .start trivial c ascii s t

theorem utf8_front {front : List Char} (ascii : ∀ c ∈ front, c.toNat < 0x80) (s : List Char) :
    utf8 (front ++ s) ↔ utf8 s := by
  induction front with
  | nil => rfl
  | cons c front ih =>
    obtain ⟨own, rest⟩ := List.forall_mem_cons.mp ascii
    have split := utf8_ascii own [] (front ++ s)
    rw [List.nil_append] at split
    rw [List.cons_append, split, ih rest]
    exact and_iff_right rfl

/- The bytes of one character. -/
def encode (u : Nat) : List Char :=
  if u < 0x80 then [Char.ofNat u]
  else if u < 0x800 then [0xc0 + u / 64, 0x80 + u % 64].map Char.ofNat
  else if u < 0x10000 then [0xe0 + u / 4096, 0x80 + u / 64 % 64, 0x80 + u % 64].map Char.ofNat
  else [0xf0 + u / 262144, 0x80 + u / 4096 % 64, 0x80 + u / 64 % 64, 0x80 + u % 64].map Char.ofNat

def isHex (c : Char) : Bool := c.isDigit || ('a' ≤ c && c ≤ 'f') || ('A' ≤ c && c ≤ 'F')

def hexValue (c : Char) : Nat :=
  if c.isDigit then c.toNat - '0'.toNat
  else if 'a' ≤ c then c.toNat - 'a'.toNat + 10 else c.toNat - 'A'.toNat + 10

def hex4 (digits : List Char) : Option Nat :=
  if digits.length = 4 ∧ digits.all isHex = true then some (digits.foldl (fun n c => 16 * n + hexValue c) 0) else none

/-- What may follow a backslash, and the bytes it stands for. A surrogate stands for nothing
without its partner. -/
inductive Escape : List Char → List Char → Prop
  | char {c b : Char} (listed : (c, b) ∈ [('"', '"'), ('\\', '\\'), ('/', '/'), ('b', Char.ofNat 8),
      ('f', Char.ofNat 12), ('n', '\n'), ('r', '\r'), ('t', '\t')]) : Escape [c] [b]
  | unicode {digits : List Char} {u : Nat} (hex : hex4 digits = some u) (own : ¬ (0xd800 ≤ u ∧ u ≤ 0xdfff)) :
      Escape ('u' :: digits) (encode u)
  | pair {high low : List Char} {u v : Nat} (hex : hex4 high = some u) (first : 0xd800 ≤ u ∧ u ≤ 0xdbff)
      (hex' : hex4 low = some v) (second : 0xdc00 ≤ v ∧ v ≤ 0xdfff) :
      Escape ('u' :: (high ++ '\\' :: 'u' :: low)) (encode (0x10000 + (u - 0xd800) * 0x400 + (v - 0xdc00)))

def isPlain (c : Char) : Bool := decide (0x20 ≤ c.toNat) && c != '"' && c != '\\'

/-- The rest of a string: what stands behind its opening quote, what it decodes to, and what
is left behind its closing quote. -/
inductive Chars : List Char → List Char → List Char → Prop
  | close {rest : List Char} : Chars ('"' :: rest) [] rest
  | plain {c : Char} {s d rest : List Char} (own : isPlain c = true) (later : Chars s d rest) :
      Chars (c :: s) (c :: d) rest
  | escape {e bytes s t d rest : List Char} (own : Escape e bytes) (split : t = e ++ s) (later : Chars s d rest) :
      Chars ('\\' :: t) (bytes ++ d) rest

/-- A string that needs no escapes. -/
def Plain (s : List Char) : Prop := ∀ c ∈ s, isPlain c = true

theorem plain_chars {s : List Char} (plain : Plain s) (rest : List Char) : Chars (s ++ '"' :: rest) s rest := by
  induction s with
  | nil => exact .close
  | cons c s ih =>
    obtain ⟨own, later⟩ := List.forall_mem_cons.mp plain
    exact .plain own (ih later)

theorem chars_plain {s : List Char} (plain : Plain s) {t d rest : List Char} (read : Chars (s ++ '"' :: t) d rest) :
    d = s ∧ rest = t := by
  induction s generalizing d with
  | nil =>
    cases read with
    | close => exact ⟨rfl, rfl⟩
    | plain own => exact absurd own (by decide)
  | cons c s ih =>
    obtain ⟨own, later⟩ := List.forall_mem_cons.mp plain
    cases read with
    | close => exact absurd own (by decide)
    | plain _ inner =>
      obtain ⟨rfl, rfl⟩ := ih later inner
      exact ⟨rfl, rfl⟩
    | escape => exact absurd own (by decide)

theorem encode_length (u : Nat) : (encode u).length ≤ 4 := by
  unfold encode
  split_ifs <;> simp

theorem hex4_facts {digits : List Char} {u : Nat} (hex : hex4 digits = some u) :
    digits.length = 4 ∧ '"' ∉ digits := by
  unfold hex4 at hex
  split at hex
  · rename_i all
    refine ⟨all.1, fun member => ?_⟩
    exact absurd (List.all_eq_true.mp all.2 _ member) (by decide)
  · cases hex

/-- An escape is at least as long as what it stands for, and holds a quote only if it is one. -/
theorem escape_facts {e bytes : List Char} (escape : Escape e bytes) :
    bytes.length ≤ e.length ∧ ('"' ∈ e → e = ['"']) := by
  cases escape with
  | @char c b _ =>
    refine ⟨Nat.le_refl 1, fun member => ?_⟩
    rw [List.mem_singleton.mp member]
  | @unicode digits u hex _ =>
    obtain ⟨length, free⟩ := hex4_facts hex
    have short := encode_length u
    refine ⟨by simp only [List.length_cons]; omega, fun member => ?_⟩
    simp [free] at member
  | @pair high low u v hex _ hex' _ =>
    obtain ⟨length, free⟩ := hex4_facts hex
    obtain ⟨length', free'⟩ := hex4_facts hex'
    have short := encode_length (0x10000 + (u - 0xd800) * 0x400 + (v - 0xdc00))
    refine ⟨by simp only [List.length_cons, List.length_append]; omega, fun member => ?_⟩
    simp [free, free'] at member

/-- A string that needs escapes is not read back: an escape is shorter decoded than written, and
a quote ends the string early. The text behind it must not be taken for the rest of a string. -/
theorem chars_only {s t d rest : List Char} (ends : ∀ d rest, ¬ Chars t d rest)
    (read : Chars (s ++ '"' :: t) d rest) :
    d.length ≤ s.length ∧ (d.length = s.length → Plain s ∧ d = s ∧ rest = t) := by
  generalize whole : s ++ '"' :: t = input at read
  induction read generalizing s with
  | close =>
    cases s with
    | nil =>
      cases whole
      exact ⟨Nat.le_refl 0, fun _ => ⟨nofun, rfl, rfl⟩⟩
    | cons c s => exact ⟨Nat.zero_le _, nofun⟩
  | @plain c input d rest own _ ih =>
    cases s with
    | nil =>
      cases whole
      exact absurd own (by decide)
    | cons x s =>
      obtain ⟨rfl, tail⟩ := List.cons.inj whole
      obtain ⟨short, exact⟩ := ih tail
      refine ⟨Nat.succ_le_succ short, fun same => ?_⟩
      obtain ⟨plain, rfl, left⟩ := exact (Nat.succ_inj.mp same)
      exact ⟨List.forall_mem_cons.mpr ⟨own, plain⟩, rfl, left⟩
  | @escape e bytes later input d rest own split read ih =>
    obtain ⟨short, quote⟩ := escape_facts own
    cases s with
    | nil => cases whole
    | cons x s =>
      obtain ⟨rfl, tail⟩ := List.cons.inj whole
      rw [split] at tail
      have decoded : (bytes ++ d).length ≤ s.length := by
        rw [List.length_append]
        obtain ⟨middle, eq, behind⟩ | ⟨middle, eq, behind⟩ := List.append_eq_append_iff.mp tail
        · cases middle with
          | nil =>
            have none := (@ih [] behind).1
            rw [List.append_nil] at eq
            rw [eq] at short
            rw [List.length_nil] at none
            omega
          | cons x middle =>
            -- the escape would be the closing quote itself
            obtain ⟨rfl, after⟩ := List.cons.inj behind
            have alone := quote (eq ▸ List.mem_append_right _ List.mem_cons_self)
            have last : middle = [] := by
              have length := congrArg List.length (eq.symm.trans alone)
              simp only [List.length_append, List.length_cons, List.length_nil] at length
              exact List.eq_nil_of_length_eq_zero (by omega)
            rw [last] at after
            exact absurd (after ▸ read) (ends d rest)
        · have rest_short := (@ih middle behind.symm).1
          have length := congrArg List.length eq
          rw [List.length_append] at length
          omega
      refine ⟨decoded.trans (Nat.le_succ _), fun same => ?_⟩
      rw [same, List.length_cons] at decoded
      omega

/- Numbers. -/

def Digits (s : List Char) : Prop := s ≠ [] ∧ ∀ c ∈ s, c.isDigit = true

/-- Digits without a leading zero. -/
def Whole (s : List Char) : Prop := Digits s ∧ (s.head? = some '0' → s = ['0'])

def Fraction (s : List Char) : Prop := s = [] ∨ ∃ digits, s = '.' :: digits ∧ Digits digits

def Exponent (s : List Char) : Prop :=
  s = [] ∨ ∃ e sign digits, s = e :: (sign ++ digits) ∧ e ∈ ['e', 'E'] ∧ sign ∈ [[], ['+'], ['-']] ∧ Digits digits

def Number (s : List Char) : Prop :=
  ∃ sign whole fraction exponent, s = sign ++ whole ++ fraction ++ exponent ∧ sign ∈ [[], ['-']] ∧ Whole whole ∧
    Fraction fraction ∧ Exponent exponent

theorem digits_numeric {s : List Char} (digits : Digits s) : ∀ c ∈ s, numeric c = true := by
  intro c member
  simp [numeric, digits.2 c member]

theorem number_numeric {s : List Char} (number : Number s) : ∀ c ∈ s, numeric c = true := by
  obtain ⟨sign, whole, fraction, exponent, rfl, signed, own, part, power⟩ := number
  simp only [List.forall_mem_append]
  refine ⟨⟨⟨?_, digits_numeric own.1⟩, ?_⟩, ?_⟩
  · simp only [List.mem_cons, List.not_mem_nil, or_false] at signed
    rcases signed with rfl | rfl
    · nofun
    · rintro c (_ | ⟨_, ⟨⟩⟩)
      decide
  · obtain rfl | ⟨digits, rfl, own⟩ := part
    · nofun
    · exact List.forall_mem_cons.mpr ⟨by decide, digits_numeric own⟩
  · obtain rfl | ⟨e, sign, digits, rfl, letter, signed, own⟩ := power
    · nofun
    · simp only [List.mem_cons, List.not_mem_nil, or_false] at letter signed
      refine List.forall_mem_cons.mpr ⟨?_, List.forall_mem_append.mpr ⟨?_, digits_numeric own⟩⟩
      · rcases letter with rfl | rfl <;> decide
      · rcases signed with rfl | rfl | rfl
        · nofun
        · rintro c (_ | ⟨_, ⟨⟩⟩)
          decide
        · rintro c (_ | ⟨_, ⟨⟩⟩)
          decide

theorem number_head {s : List Char} (number : Number s) : ∃ c rest, s = c :: rest ∧ (c.isDigit = true ∨ c = '-') := by
  obtain ⟨sign, whole, fraction, exponent, rfl, signed, ⟨⟨some_, digits⟩, _⟩, _⟩ := number
  obtain ⟨c, whole, rfl⟩ := List.exists_cons_of_ne_nil some_
  simp only [List.mem_cons, List.not_mem_nil, or_false] at signed
  rcases signed with rfl | rfl
  · exact ⟨c, _, rfl, Or.inl (digits c List.mem_cons_self)⟩
  · exact ⟨'-', _, rfl, Or.inr rfl⟩

theorem printNat_whole (n : Nat) : Whole (printNat n) := by
  refine ⟨⟨printNat_some n, printNat_digits⟩, ?_⟩
  induction n using Nat.strong_induction_on with
  | _ n ih =>
    intro zero
    rcases Nat.lt_or_ge n 10 with small | large
    · rw [printNat, Nat.toDigits_of_lt_base small] at zero ⊢
      rw [Option.some.inj zero]
    · have front : 0 < n / 10 := Nat.div_pos large (by decide)
      rw [printNat, Nat.toDigits_of_base_le (by decide) large,
        List.head?_append_of_ne_nil _ Nat.toDigits_ne_nil] at zero
      have alone := ih (n / 10) (Nat.div_lt_self (by omega) (by decide)) zero
      have value := decimal_printNat (n / 10)
      rw [alone] at value
      have none : decimal ['0'] = 0 := rfl
      omega

theorem printInt_number (n : Int) : Number (printInt n) := by
  refine ⟨if n < 0 then ['-'] else [], printNat n.natAbs, [], [], ?_, ?_, printNat_whole _, Or.inl rfl, Or.inl rfl⟩
  · simp only [printInt, List.append_nil]
  · split <;> simp

theorem printNat_number (n : Nat) : Number (printNat n) :=
  ⟨[], printNat n, [], [], by simp, by simp, printNat_whole n, Or.inl rfl, Or.inl rfl⟩

theorem printFixed_number {α : Type} [Field α] [LinearOrder α] [FloorRing α] (places : Nat) (x : α) :
    Number (printFixed places x) := by
  unfold printFixed
  dsimp only
  generalize (nearest (|x| * (10 ^ places : Nat))).toNat = units
  refine ⟨if x < 0 then ['-'] else [], printNat (units / 10 ^ places),
    if places = 0 then [] else '.' :: zeroPadded places (units % 10 ^ places), [], by simp, ?_, printNat_whole _, ?_,
    Or.inl rfl⟩
  · split <;> simp
  · split
    · exact Or.inl rfl
    · refine Or.inr ⟨_, rfl, ?_, zeroPadded_digits⟩
      intro none
      have tail : printNat (units % 10 ^ places) = [] := (List.append_eq_nil_iff.mp none).2
      exact printNat_some _ tail

inductive Value where
  | null
  | bool (b : Bool)
  | number (text : List Char)
  | string (s : List Char)
  | array (items : List Value)
  | object (members : List (List Char × Value))

def isBlank (c : Char) : Bool := c == ' ' || c == '\t' || c == '\n' || c == '\r'

/-- From the next byte on that is no blank. -/
def token (s : List Char) : List Char := s.dropWhile isBlank

mutual
/-- A value, perhaps behind blanks. -/
inductive Reads : List Char → Value → List Char → Prop
  | null {s rest : List Char} (here : token s = ['n', 'u', 'l', 'l'] ++ rest) : Reads s .null rest
  | no {s rest : List Char} (here : token s = ['f', 'a', 'l', 's', 'e'] ++ rest) : Reads s (.bool false) rest
  | yes {s rest : List Char} (here : token s = ['t', 'r', 'u', 'e'] ++ rest) : Reads s (.bool true) rest
  | number {s text rest : List Char} (here : token s = text ++ rest) (own : Number text)
      (stops : ∀ c ∈ rest.head?, numeric c = false) : Reads s (.number text) rest
  | string {s inner d rest : List Char} (here : token s = '"' :: inner) (chars : Chars inner d rest) :
      Reads s (.string d) rest
  | emptyArray {s inner rest : List Char} (here : token s = '[' :: inner) (ends : token inner = ']' :: rest) :
      Reads s (.array []) rest
  | array {s inner rest : List Char} {items : List Value} (here : token s = '[' :: inner)
      (read : ReadsItems inner items rest) : Reads s (.array items) rest
  | emptyObject {s inner rest : List Char} (here : token s = '\x7b' :: inner) (ends : token inner = '\x7d' :: rest) :
      Reads s (.object []) rest
  | object {s inner rest : List Char} {members : List (List Char × Value)} (here : token s = '\x7b' :: inner)
      (read : ReadsMembers inner members rest) : Reads s (.object members) rest

inductive ReadsItems : List Char → List Value → List Char → Prop
  | last {s behind rest : List Char} {v : Value} (read : Reads s v behind) (ends : token behind = ']' :: rest) :
      ReadsItems s [v] rest
  | more {s behind next rest : List Char} {v : Value} {items : List Value} (read : Reads s v behind)
      (comma : token behind = ',' :: next) (later : ReadsItems next items rest) : ReadsItems s (v :: items) rest

inductive ReadsMembers : List Char → List (List Char × Value) → List Char → Prop
  | last {s inner key after text behind rest : List Char} {v : Value} (here : token s = '"' :: inner)
      (chars : Chars inner key after) (colon : token after = ':' :: text) (read : Reads text v behind)
      (ends : token behind = '\x7d' :: rest) : ReadsMembers s [(key, v)] rest
  | more {s inner key after text behind next rest : List Char} {v : Value} {members : List (List Char × Value)}
      (here : token s = '"' :: inner) (chars : Chars inner key after) (colon : token after = ':' :: text)
      (read : Reads text v behind) (comma : token behind = ',' :: next)
      (later : ReadsMembers next members rest) : ReadsMembers s ((key, v) :: members) rest
end

/-- A whole text that is one value. -/
def Text (s : List Char) (v : Value) : Prop := utf8 s ∧ ∃ rest, Reads s v rest ∧ token rest = []

theorem token_blanks {gap : List Char} (blank : ∀ c ∈ gap, isBlank c = true) (s : List Char) :
    token (gap ++ s) = token s := List.dropWhile_append_of_pos blank

theorem token_solid {c : Char} (solid : isBlank c = false) (s : List Char) : token (c :: s) = c :: s := by
  simp [token, solid]

theorem reads_congr {s s' rest : List Char} {v : Value} (same : token s' = token s) (read : Reads s v rest) :
    Reads s' v rest := by
  cases read with
  | null here => exact .null (same.trans here)
  | no here => exact .no (same.trans here)
  | yes here => exact .yes (same.trans here)
  | number here own stops => exact .number (same.trans here) own stops
  | string here chars => exact .string (same.trans here) chars
  | emptyArray here ends => exact .emptyArray (same.trans here) ends
  | array here read => exact .array (same.trans here) read
  | emptyObject here ends => exact .emptyObject (same.trans here) ends
  | object here read => exact .object (same.trans here) read

theorem readsMembers_congr {s s' rest : List Char} {members : List (List Char × Value)} (same : token s' = token s)
    (read : ReadsMembers s members rest) : ReadsMembers s' members rest := by
  cases read with
  | last here chars colon read ends => exact .last (same.trans here) chars colon read ends
  | more here chars colon read comma later => exact .more (same.trans here) chars colon read comma later

theorem readsItems_congr {s s' rest : List Char} {items : List Value} (same : token s' = token s)
    (read : ReadsItems s items rest) : ReadsItems s' items rest := by
  cases read with
  | last read ends => exact .last (reads_congr same read) ends
  | more read comma later => exact .more (reads_congr same read) comma later

/-- The first byte decides what kind of value is read. -/
theorem reads_first {s inner rest : List Char} {c : Char} {v : Value} (first : token s = c :: inner)
    (read : Reads s v rest) :
    (c = '"' ∧ ∃ d, v = .string d ∧ Chars inner d rest) ∨
    (c = '[' ∧ ((v = .array [] ∧ token inner = ']' :: rest) ∨
      ∃ items, v = .array items ∧ ReadsItems inner items rest)) ∨
    (c = '\x7b' ∧ ((v = .object [] ∧ token inner = '\x7d' :: rest) ∨
      ∃ members, v = .object members ∧ ReadsMembers inner members rest)) ∨
    ((c.isDigit = true ∨ c = '-') ∧ ∃ text, v = .number text ∧ Number text ∧
      (∀ c ∈ rest.head?, numeric c = false) ∧ token s = text ++ rest) ∨ c ∈ ['n', 'f', 't'] := by
  cases read with
  | null here =>
    rw [first] at here
    obtain ⟨rfl, _⟩ := List.cons.inj here
    simp
  | no here =>
    rw [first] at here
    obtain ⟨rfl, _⟩ := List.cons.inj here
    simp
  | yes here =>
    rw [first] at here
    obtain ⟨rfl, _⟩ := List.cons.inj here
    simp
  | @number _ text _ here own stops =>
    obtain ⟨x, tail, rfl, head⟩ := number_head own
    have both := first.symm.trans here
    rw [List.cons_append] at both
    rw [(List.cons.inj both).1]
    exact Or.inr (Or.inr (Or.inr (Or.inl ⟨head, _, rfl, own, stops, here⟩)))
  | string here chars =>
    obtain ⟨rfl, rfl⟩ := List.cons.inj (first.symm.trans here)
    exact Or.inl ⟨rfl, _, rfl, chars⟩
  | emptyArray here ends =>
    obtain ⟨rfl, rfl⟩ := List.cons.inj (first.symm.trans here)
    exact Or.inr (Or.inl ⟨rfl, Or.inl ⟨rfl, ends⟩⟩)
  | array here read =>
    obtain ⟨rfl, rfl⟩ := List.cons.inj (first.symm.trans here)
    exact Or.inr (Or.inl ⟨rfl, Or.inr ⟨_, rfl, read⟩⟩)
  | emptyObject here ends =>
    obtain ⟨rfl, rfl⟩ := List.cons.inj (first.symm.trans here)
    exact Or.inr (Or.inr (Or.inl ⟨rfl, Or.inl ⟨rfl, ends⟩⟩))
  | object here read =>
    obtain ⟨rfl, rfl⟩ := List.cons.inj (first.symm.trans here)
    exact Or.inr (Or.inr (Or.inl ⟨rfl, Or.inr ⟨_, rfl, read⟩⟩))

theorem readsItems_closed {s inner rest : List Char} {items : List Value} (first : token s = ']' :: inner) :
    ¬ ReadsItems s items rest := by
  have none : ∀ v left, ¬ Reads s v left := by
    intro v left read
    rcases reads_first first read with ⟨other, _⟩ | ⟨other, _⟩ | ⟨other, _⟩ | ⟨other, _⟩ | other
    all_goals exact absurd other (by decide)
  intro reads
  cases reads with
  | last read => exact none _ _ read
  | more read => exact none _ _ read

theorem reads_string {s inner rest : List Char} {v : Value} (first : token s = '"' :: inner)
    (read : Reads s v rest) : ∃ d, v = .string d ∧ Chars inner d rest := by
  rcases reads_first first read with own | ⟨other, _⟩ | ⟨other, _⟩ | ⟨other, _⟩ | other
  · exact own.2
  all_goals exact absurd other (by decide)

theorem reads_array {s inner rest : List Char} {v : Value} (first : token s = '[' :: inner) (read : Reads s v rest) :
    (v = .array [] ∧ token inner = ']' :: rest) ∨ ∃ items, v = .array items ∧ ReadsItems inner items rest := by
  rcases reads_first first read with ⟨other, _⟩ | own | ⟨other, _⟩ | ⟨other, _⟩ | other
  case inr.inl => exact own.2
  all_goals exact absurd other (by decide)

theorem reads_object {s inner rest : List Char} {v : Value} (first : token s = '\x7b' :: inner)
    (read : Reads s v rest) : (v = .object [] ∧ token inner = '\x7d' :: rest) ∨
      ∃ members, v = .object members ∧ ReadsMembers inner members rest := by
  rcases reads_first first read with ⟨other, _⟩ | ⟨other, _⟩ | own | ⟨other, _⟩ | other
  case inr.inr.inl => exact own.2
  all_goals exact absurd other (by decide)

theorem number_solid {text : List Char} (number : Number text) (rest : List Char) :
    token (text ++ rest) = text ++ rest := by
  obtain ⟨c, tail, rfl, head⟩ := number_head number
  apply token_solid
  rcases head with digit | rfl
  · cases blank : isBlank c with
    | false => rfl
    | true =>
      simp only [isBlank, Bool.or_eq_true, beq_iff_eq] at blank
      rcases blank with ((rfl | rfl) | rfl) | rfl <;> exact absurd digit (by decide)
  · decide

/-- A number ends where no byte continues it. -/
theorem reads_number {s text behind rest : List Char} {v : Value} (here : token s = text ++ behind)
    (number : Number text) (stops : ∀ c ∈ behind.head?, numeric c = false) (read : Reads s v rest) :
    v = .number text ∧ rest = behind := by
  obtain ⟨c, tail, rfl, head⟩ := number_head number
  have other : ∀ x, x.isDigit = false → x ≠ '-' → c ≠ x := by
    rintro x digit minus rfl
    rcases head with own | own
    · rw [digit] at own
      cases own
    · exact minus own
  rcases reads_first here read with ⟨eq, _⟩ | ⟨eq, _⟩ | ⟨eq, _⟩ | ⟨_, text', rfl, own, ends, whole⟩ | member
  case inr.inr.inr.inl =>
    have mine := takeWhile_stop stops (c :: tail)
    have theirs := takeWhile_stop ends text'
    rw [← here, whole] at mine
    have all : ∀ text, Number text → text.takeWhile numeric = text ∧ text.dropWhile numeric = [] := fun text own =>
      ⟨List.takeWhile_eq_self_iff.mpr (number_numeric own), List.dropWhile_eq_nil_iff.mpr (number_numeric own)⟩
    rw [(all _ number).1, (all _ number).2, theirs.1, theirs.2, (all _ own).1, (all _ own).2] at mine
    exact ⟨congrArg Value.number mine.1, mine.2⟩
  case inr.inr.inr.inr =>
    simp only [List.mem_cons, List.not_mem_nil, or_false] at member
    rcases member with eq | eq | eq <;> exact absurd eq (other _ (by decide) (by decide))
  all_goals exact absurd eq (other _ (by decide) (by decide))

end Json
