import Mathlib.Data.List.DropRight
import Mathlib.Tactic

/-! Text as the C library reads it. A character stands for one byte; a C string is the
list of its bytes without the terminating zero. -/
namespace CText

def isspace (c : Char) : Bool := c == ' ' || (9 ≤ c.toNat && c.toNat ≤ 13)

def isblank (c : Char) : Bool := c == ' ' || c == '\t'

def cString (buffer : List Char) : List Char := buffer.takeWhile (· ≠ Char.ofNat 0)

def strchr (c : Char) : List Char → Option (List Char × List Char)
  | [] => none
  | x :: s => if x = c then some ([], s) else (strchr c s).map (fun parts => (x :: parts.1, parts.2))

/- One call of fgets with room for so many bytes: the bytes it stores and what it leaves. -/
def fgets : Nat → List Char → List Char × List Char
  | 0, text => ([], text)
  | _ + 1, [] => ([], [])
  | room + 1, c :: text =>
    if c = '\n' then ([c], text) else (c :: (fgets room text).1, (fgets room text).2)

theorem fgets_length (room : Nat) (text : List Char) : (fgets room text).2.length ≤ text.length := by
  induction text generalizing room with
  | nil => cases room <;> simp [fgets]
  | cons c text ih =>
    cases room with
    | zero => simp [fgets]
    | succ room =>
      rw [fgets]
      split
      · simp
      · exact (ih room).trans (Nat.le_succ _)

theorem fgets_shorter {room : Nat} {text : List Char} (some_ : text ≠ []) (positive : 0 < room) :
    (fgets room text).2.length < text.length := by
  obtain ⟨c, text, rfl⟩ := List.exists_cons_of_ne_nil some_
  obtain ⟨room, rfl⟩ := Nat.exists_eq_succ_of_ne_zero positive.ne'
  rw [fgets]
  split
  · simp
  · exact Nat.lt_succ_of_le (fgets_length room text)

/-- The loop "while (fgets(line, size, f))" over a whole text. -/
def fgetsAll (size : Nat) (text : List Char) : List (List Char) :=
  if text = [] ∨ size < 2 then []
  else (fgets (size - 1) text).1 :: fgetsAll size (fgets (size - 1) text).2
termination_by text.length
decreasing_by
  rename_i more
  push Not at more
  exact fgets_shorter more.1 (by omega)

theorem fgets_line {line : List Char} (single : '\n' ∉ line) {room : Nat} (fits : line.length < room)
    (rest : List Char) : fgets room (line ++ '\n' :: rest) = (line ++ ['\n'], rest) := by
  induction line generalizing room with
  | nil =>
    obtain ⟨room, rfl⟩ := Nat.exists_eq_succ_of_ne_zero (by omega : room ≠ 0)
    simp [fgets]
  | cons c line ih =>
    obtain ⟨room, rfl⟩ := Nat.exists_eq_succ_of_ne_zero (by omega : room ≠ 0)
    have other : c ≠ '\n' := fun eq => single (eq ▸ List.mem_cons_self)
    have tail := ih (fun member => single (List.mem_cons_of_mem _ member))
      (Nat.lt_of_succ_lt_succ fits)
    simp [fgets, other, tail]

theorem fgets_last {line : List Char} (single : '\n' ∉ line) {room : Nat} (fits : line.length ≤ room) :
    fgets room line = (line, []) := by
  induction line generalizing room with
  | nil => cases room <;> rfl
  | cons c line ih =>
    obtain ⟨room, rfl⟩ := Nat.exists_eq_succ_of_ne_zero (by rintro rfl; simp at fits : room ≠ 0)
    have other : c ≠ '\n' := fun eq => single (eq ▸ List.mem_cons_self)
    have tail := ih (fun member => single (List.mem_cons_of_mem _ member))
      (Nat.le_of_succ_le_succ fits)
    simp [fgets, other, tail]

/-- A text of whole lines: no byte is left behind the last newline. -/
def Closed (text : List Char) : Prop := text = [] ∨ ∃ front, text = front ++ ['\n']

theorem closed_tail {c : Char} {text : List Char} (closed : Closed (c :: text)) :
    Closed text ∧ (c ≠ '\n' → text ≠ []) := by
  obtain none | ⟨front, eq⟩ := closed
  · cases none
  · cases front with
    | nil =>
      obtain ⟨rfl, rfl⟩ := List.cons.inj eq
      exact ⟨Or.inl rfl, fun other => absurd rfl other⟩
    | cons x front =>
      have tail : text = front ++ ['\n'] := (List.cons.inj eq).2
      exact ⟨Or.inr ⟨front, tail⟩, fun _ => by simp [tail]⟩

/-- What follows a text of whole lines does not change how they are read. -/
theorem fgets_closed {text : List Char} (closed : Closed text) (some_ : text ≠ []) (room : Nat) (rest : List Char) :
    fgets room (text ++ rest) = ((fgets room text).1, (fgets room text).2 ++ rest) ∧ Closed (fgets room text).2 := by
  induction text generalizing room with
  | nil => exact absurd rfl some_
  | cons c text ih =>
    obtain ⟨tail, more⟩ := closed_tail closed
    cases room with
    | zero => exact ⟨rfl, closed⟩
    | succ room =>
      rcases eq_or_ne c '\n' with rfl | other
      · simpa [fgets] using tail
      · obtain ⟨read, left⟩ := ih tail (more other) room
        simp only [List.cons_append, fgets, other, if_false, read, true_and]
        exact left

theorem fgetsAll_append {size : Nat} {text : List Char} (closed : Closed text) (rest : List Char) :
    fgetsAll size (text ++ rest) = fgetsAll size text ++ fgetsAll size rest := by
  fun_induction fgetsAll size text with
  | case1 text stop =>
    rcases stop with rfl | small
    · rfl
    · rw [fgetsAll, if_pos (Or.inr small), fgetsAll, if_pos (Or.inr small), List.nil_append]
  | case2 text more ih =>
    push Not at more
    obtain ⟨read, left⟩ := fgets_closed closed more.1 (size - 1) rest
    have goes : ¬ (text ++ rest = [] ∨ size < 2) := by
      rintro (none | small)
      · exact more.1 (List.append_eq_nil_iff.mp none).1
      · omega
    rw [fgetsAll, if_neg goes, read, ih left, List.cons_append]

theorem fgetsAll_line {size : Nat} {line : List Char} (single : '\n' ∉ line) (fits : line.length + 1 < size) :
    fgetsAll size (line ++ ['\n']) = [line ++ ['\n']] := by
  have read := fgets_line single (by omega : line.length < size - 1) []
  rw [fgetsAll, if_neg (by simp; omega), read, fgetsAll, if_pos (Or.inl rfl)]

theorem fgetsAll_last {size : Nat} {line : List Char} (single : '\n' ∉ line) (some_ : line ≠ [])
    (fits : line.length < size) : fgetsAll size line = [line] := by
  have positive := List.length_pos_of_ne_nil some_
  have goes : ¬ (line = [] ∨ size < 2) := by
    rintro (none | small)
    · exact some_ none
    · omega
  rw [fgetsAll, if_neg goes, fgets_last single (by omega), fgetsAll, if_pos (Or.inl rfl)]

/-- A line that fills the buffer leaves its newline to the next read. -/
theorem fgets_full {line : List Char} (single : '\n' ∉ line) (rest : List Char) :
    fgets line.length (line ++ rest) = (line, rest) := by
  induction line with
  | nil => rfl
  | cons c line ih =>
    have other : c ≠ '\n' := fun eq => single (eq ▸ List.mem_cons_self)
    have tail := ih (fun member => single (List.mem_cons_of_mem _ member))
    simp [fgets, other, tail]

theorem fgetsAll_full {size : Nat} {line : List Char} (single : '\n' ∉ line) (some_ : line ≠ [])
    (full : line.length + 1 = size) : fgetsAll size (line ++ ['\n']) = [line, ['\n']] := by
  have positive := List.length_pos_of_ne_nil some_
  have room : size - 1 = line.length := by omega
  have last : fgetsAll size ['\n'] = [['\n']] := @fgetsAll_line size [] (by simp) (by simp; omega)
  rw [fgetsAll, if_neg (by simp; omega), room, fgets_full single, last]

/- A line of any length is read in pieces. -/

theorem fgets_take {line : List Char} (single : '\n' ∉ line) (room : Nat) : fgets room (line ++ ['\n']) =
    ((line ++ ['\n']).take room, (line ++ ['\n']).drop room) := by
  induction line generalizing room with
  | nil => cases room <;> simp [fgets]
  | cons c line ih =>
    cases room with
    | zero => rfl
    | succ room =>
      have other : c ≠ '\n' := fun eq => single (eq ▸ List.mem_cons_self)
      have tail := ih (fun member => single (List.mem_cons_of_mem _ member)) room
      simp [fgets, other, tail]

theorem fgetsAll_pieces {size : Nat} {line : List Char} (single : '\n' ∉ line) :
    ∀ piece ∈ fgetsAll size (line ++ ['\n']), ∃ k, piece <+: (line ++ ['\n']).drop ((size - 1) * k) := by
  generalize measure : line.length = n
  induction n using Nat.strongRecOn generalizing line with
  | ind n ih =>
    intro piece member
    rw [fgetsAll] at member
    split at member
    · cases member
    · rename_i goes
      push Not at goes
      rw [fgets_take single] at member
      rcases List.mem_cons.mp member with rfl | later
      · exact ⟨0, by simpa using List.take_prefix _ _⟩
      · rcases Nat.lt_or_ge line.length (size - 1) with whole | long
        · rw [List.drop_eq_nil_of_le (by simp; omega), fgetsAll, if_pos (Or.inl rfl)] at later
          cases later
        · rw [List.drop_append_of_le_length long] at later
          obtain ⟨k, rest⟩ := ih (line.drop (size - 1)).length (by simp; omega)
            (fun inside => single (List.mem_of_mem_drop inside)) rfl piece later
          rw [← List.drop_append_of_le_length long, List.drop_drop, Nat.add_comm, ← Nat.mul_succ] at rest
          exact ⟨k + 1, rest⟩

/-- Lines, each with its newline. -/
def ended (lines : List (List Char)) : List Char := lines.flatMap (fun line => line ++ ['\n'])

theorem ended_cons (line : List Char) (lines : List (List Char)) :
    ended (line :: lines) = line ++ '\n' :: ended lines := by simp [ended]

theorem ended_append (front back : List (List Char)) : ended (front ++ back) = ended front ++ ended back :=
  List.flatMap_append

theorem splitOn_ended {lines : List (List Char)} (single : ∀ line ∈ lines, '\n' ∉ line) :
    (ended lines).splitOn '\n' = lines ++ [[]] := by
  induction lines with
  | nil => rfl
  | cons line lines ih =>
    obtain ⟨own, rest⟩ := List.forall_mem_cons.mp single
    rw [ended_cons, List.splitOn_append_cons_self, ih rest, List.splitOn_eq_singleton own]
    rfl

theorem splitOn_lines (text : List Char) :
    (∀ line ∈ text.splitOn '\n', '\n' ∉ line) ∧ ended (text.splitOn '\n') = text ++ ['\n'] := by
  induction text with
  | nil => simp [ended]
  | cons c text ih =>
    obtain ⟨first, rest, eq⟩ := List.exists_cons_of_ne_nil (List.splitOn_ne_nil '\n' text)
    rw [eq] at ih
    rw [List.splitOn_cons_eq_if_modifyHead, eq]
    obtain ⟨single, whole⟩ := ih
    rcases eq_or_ne c '\n' with rfl | other
    · refine ⟨List.forall_mem_cons.mpr ⟨List.not_mem_nil, single⟩, ?_⟩
      rw [List.cons_append, ← whole]
      rfl
    · have kept : (c == '\n') = false := by simpa using other
      obtain ⟨own, later⟩ := List.forall_mem_cons.mp single
      simp only [kept, Bool.false_eq_true, if_false, List.modifyHead_cons]
      constructor
      · refine List.forall_mem_cons.mpr ⟨?_, later⟩
        rintro (_ | ⟨_, member⟩)
        · exact other rfl
        · exact own member
      · rw [List.cons_append, ← whole]
        rfl

/-- Lines shorter than the buffer are read one by one. -/
theorem fgetsAll_lines {size : Nat} {lines : List (List Char)}
    (short : ∀ line ∈ lines, '\n' ∉ line ∧ line.length + 1 < size) (rest : List Char) :
    fgetsAll size (ended lines ++ rest) = lines.map (fun line => line ++ ['\n']) ++ fgetsAll size rest := by
  induction lines with
  | nil => rfl
  | cons line lines ih =>
    obtain ⟨⟨single, fits⟩, short⟩ := List.forall_mem_cons.mp short
    have closed : Closed (line ++ ['\n']) := Or.inr ⟨line, rfl⟩
    have split : ended (line :: lines) ++ rest = line ++ ['\n'] ++ (ended lines ++ rest) := by simp [ended]
    rw [split, fgetsAll_append closed, fgetsAll_line single fits, ih short]
    rfl

/-- Reading short lines one after the other: an item that a line ending does not change is found as often
as the lines hold it. A line that fills the buffer is read in two pieces, the second only its newline. -/
theorem fgetsAll_ended {β : Type} {size : Nat} {f : List Char → Option β} (room : 2 ≤ size)
    (newline : ∀ line, f (line ++ ['\n']) = f line) (nothing : f [] = none) {lines : List (List Char)}
    (short : ∀ line ∈ lines, '\n' ∉ line ∧ line.length < size) :
    (fgetsAll size (ended lines)).filterMap f = lines.filterMap f := by
  induction lines with
  | nil => simp [ended, fgetsAll]
  | cons line lines ih =>
    obtain ⟨⟨single, fits⟩, rest⟩ := List.forall_mem_cons.mp short
    have own : Closed (line ++ ['\n']) := Or.inr ⟨line, rfl⟩
    have split : ended (line :: lines) = line ++ ['\n'] ++ ended lines := List.flatMap_cons
    have first : (fgetsAll size (line ++ ['\n'])).filterMap f = (f line).toList := by
      rcases Nat.lt_or_ge (line.length + 1) size with below | full
      · rw [fgetsAll_line single below, List.filterMap_cons, newline]
        cases f line <;> rfl
      · have some_ : line ≠ [] := by
          rintro rfl
          simp at full
          omega
        have blank : f ['\n'] = none := (newline []).trans nothing
        rw [fgetsAll_full single some_ (by omega), List.filterMap_cons, List.filterMap_cons, blank]
        cases f line <;> rfl
    rw [split, fgetsAll_append own, List.filterMap_append, ih rest, first, List.filterMap_cons]
    cases f line <;> rfl

theorem strchr_append {c : Char} {before : List Char} (absent : c ∉ before) (after : List Char) :
    strchr c (before ++ c :: after) = some (before, after) := by
  induction before with
  | nil => simp [strchr]
  | cons x before ih =>
    have other : x ≠ c := fun eq => absent (eq ▸ List.mem_cons_self)
    simp [strchr, other, ih (fun member => absent (List.mem_cons_of_mem _ member))]

theorem strchr_split {c : Char} {s before after : List Char} (found : strchr c s = some (before, after)) :
    s = before ++ c :: after ∧ c ∉ before := by
  induction s generalizing before after with
  | nil => cases found
  | cons x s ih =>
    rw [strchr] at found
    split at found
    · rename_i same
      cases found
      exact ⟨by rw [same, List.nil_append], List.not_mem_nil⟩
    · rename_i other
      obtain ⟨⟨front, back⟩, behind, eq⟩ := Option.map_eq_some_iff.mp found
      cases eq
      obtain ⟨split, absent⟩ := ih behind
      refine ⟨by rw [split, List.cons_append], ?_⟩
      rintro (_ | ⟨_, member⟩)
      · exact other rfl
      · exact absent member

theorem strchr_none {c : Char} {s : List Char} (absent : c ∉ s) : strchr c s = none := by
  induction s with
  | nil => rfl
  | cons x s ih =>
    have other : x ≠ c := fun eq => absent (eq ▸ List.mem_cons_self)
    simp [strchr, other, ih (fun member => absent (List.mem_cons_of_mem _ member))]

theorem cString_eq {buffer : List Char} (text : ∀ c ∈ buffer, c ≠ Char.ofNat 0) : cString buffer = buffer :=
  List.takeWhile_eq_self_iff.mpr (fun c member => by simpa using text c member)

theorem cString_append (buffer more : List Char) :
    cString (buffer ++ more) = cString buffer ∨ cString (buffer ++ more) = cString buffer ++ cString more := by
  unfold cString
  rw [List.takeWhile_append]
  split
  · rename_i whole
    rw [(List.takeWhile_prefix _).eq_of_length whole]
    exact Or.inr rfl
  · exact Or.inl rfl

theorem cString_stop {buffer : List Char} (ended : Char.ofNat 0 ∈ buffer) (more : List Char) :
    cString (buffer ++ more) = cString buffer := by
  unfold cString
  rw [List.takeWhile_append, if_neg]
  intro whole
  have all := List.takeWhile_eq_self_iff.mp ((List.takeWhile_prefix _).eq_of_length whole)
  exact absurd (all _ ended) (by decide)

/- Text without what is blank at its two ends. -/
section Strip
variable (blank : Char → Bool)

def strip (s : List Char) : List Char := (s.dropWhile blank).rdropWhile blank

variable {blank}

theorem dropWhile_split {c : Char} (solid : blank c = false) (before after : List Char) :
    (before ++ c :: after).dropWhile blank = before.dropWhile blank ++ c :: after := by
  induction before with
  | nil => simp [solid]
  | cons x before ih => cases h : blank x <;> simp [h, ih]

theorem rdropWhile_split {c : Char} (solid : blank c = false) (before after : List Char) :
    (before ++ c :: after).rdropWhile blank = before ++ c :: after.rdropWhile blank := by
  have mirrored := dropWhile_split solid after.reverse before.reverse
  simp only [List.rdropWhile, List.reverse_append, List.reverse_cons, List.append_assoc, List.singleton_append,
    mirrored, List.reverse_reverse]

/-- A byte that is not blank separates what the two ends lose. -/
theorem strip_split {c : Char} (solid : blank c = false) (before after : List Char) :
    strip blank (before ++ c :: after) = before.dropWhile blank ++ c :: after.rdropWhile blank := by
  rw [strip, dropWhile_split solid, rdropWhile_split solid]

theorem strip_dropWhile (s : List Char) : strip blank (s.dropWhile blank) = strip blank s := by
  rw [strip, strip, List.dropWhile_idempotent]

theorem strip_rdropWhile (s : List Char) : strip blank (s.rdropWhile blank) = strip blank s := by
  rcases em (∀ c ∈ s, blank c = true) with all | some_
  · have none : s.rdropWhile blank = [] := List.rdropWhile_eq_nil_iff.mpr all
    have none' : s.dropWhile blank = [] := List.dropWhile_eq_nil_iff.mpr all
    rw [none, strip, strip, none']
    rfl
  · push Not at some_
    obtain ⟨c, member, solid⟩ := some_
    obtain ⟨before, after, rfl⟩ := List.append_of_mem member
    have solid : blank c = false := by simpa using solid
    rw [rdropWhile_split solid, strip_split solid, strip_split solid, List.rdropWhile_idempotent]

theorem strip_left {left : List Char} (blanks : ∀ c ∈ left, blank c = true) (s : List Char) :
    strip blank (left ++ s) = strip blank s := by
  rw [strip, strip, List.dropWhile_append_of_pos blanks]

theorem strip_right {right : List Char} (blanks : ∀ c ∈ right, blank c = true) (s : List Char) :
    strip blank (s ++ right) = strip blank s := by
  have dropped : (s ++ right).rdropWhile blank = s.rdropWhile blank := by
    rw [List.rdropWhile, List.reverse_append, List.dropWhile_append_of_pos (by simpa using blanks), List.rdropWhile]
  rw [← strip_rdropWhile, dropped, strip_rdropWhile]

theorem dropWhile_solid {s : List Char} (solid : ∀ c ∈ s.head?, blank c = false) (some_ : s ≠ [])
    (behind : List Char) : (s ++ behind).dropWhile blank = s ++ behind := by
  cases s with
  | nil => exact absurd rfl some_
  | cons c s => simp [solid c rfl]

theorem strip_head (s : List Char) : ∀ c ∈ (strip blank s).head?, blank c = false := by
  intro c first
  obtain ⟨behind, eq⟩ := List.rdropWhile_prefix blank (l := s.dropWhile blank)
  have lead : (s.dropWhile blank).head? = some c := by
    rw [← eq, List.head?_append_of_ne_nil]
    · exact first
    · intro none
      rw [strip, none] at first
      cases first
  have stays := List.head?_dropWhile_not blank s
  rw [lead] at stays
  simpa using stays

theorem strip_ends (s : List Char) : ∃ left right, s = left ++ strip blank s ++ right ∧
    (∀ c ∈ left, blank c = true) ∧ ∀ c ∈ right, blank c = true := by
  refine ⟨s.takeWhile blank, (s.dropWhile blank).rtakeWhile blank, ?_, fun c member => ?_, fun c member => ?_⟩
  · rw [List.append_assoc, strip, List.rdropWhile_append_rtakeWhile, List.takeWhile_append_dropWhile]
  · exact List.mem_takeWhile_imp member
  · exact List.mem_rtakeWhile_imp member

end Strip

/- Numbers. -/

def decimal (digits : List Char) : Nat := digits.foldl (fun n c => 10 * n + (c.toNat - '0'.toNat)) 0

/-- The sign and what follows it. -/
def signed : List Char → Int × List Char
  | '-' :: s => (-1, s)
  | '+' :: s => (1, s)
  | s => (1, s)

/-- strtol in base ten for a long of 64 bits. -/
def strtol (s : List Char) : Int :=
  let parts := signed (s.dropWhile isspace)
  max (-2 ^ 63) (min (2 ^ 63 - 1) (parts.1 * decimal (parts.2.takeWhile Char.isDigit)))

/-- The value of strtol converted to an int of 32 bits. -/
def atoi (s : List Char) : Int := (strtol s).bmod (2 ^ 32)

/- The exponent behind a mantissa and one of these letters, zero where there is none. -/
def exponent (letters : List Char) : List Char → Int
  | [] => 0
  | c :: s =>
    let parts := signed s
    if c ∈ letters then parts.1 * decimal (parts.2.takeWhile Char.isDigit) else 0

/-- Digits with a point among them: those in front of it, those behind it, and what follows. -/
def mantissa (digit : Char → Bool) (s : List Char) : List Char × List Char × List Char :=
  let rest := s.dropWhile digit
  if rest.head? = some '.' then (s.takeWhile digit, rest.tail.takeWhile digit, rest.tail.dropWhile digit)
  else (s.takeWhile digit, [], rest)

/-- The number that decimal notation stands for, exactly. -/
def decimalValue (s : List Char) : ℚ :=
  let parts := signed (s.dropWhile isspace)
  let number := mantissa Char.isDigit parts.2
  if number.1 = [] ∧ number.2.1 = [] then 0
  else parts.1 * decimal (number.1 ++ number.2.1) * 10 ^ (exponent ['e', 'E'] number.2.2 - number.2.1.length)

example : atoi " -12x".toList = -12 ∧ decimalValue "0.025".toList = 1 / 40 := by decide +kernel

theorem takeWhile_stop {p : Char → Bool} {rest : List Char} (stops : ∀ c ∈ rest.head?, p c = false)
    (s : List Char) : (s ++ rest).takeWhile p = s.takeWhile p ∧ (s ++ rest).dropWhile p = s.dropWhile p ++ rest := by
  induction s with
  | nil =>
    cases rest with
    | nil => exact ⟨rfl, rfl⟩
    | cons c rest => simp [show p c = false from stops c rfl]
  | cons x s ih => cases inside : p x <;> simp [inside, ih]

theorem mantissa_append {digit : Char → Bool} {rest : List Char} (stops : ∀ c ∈ rest.head?, digit c = false)
    (point : rest.head? ≠ some '.') (s : List Char) : mantissa digit (s ++ rest) =
      ((mantissa digit s).1, (mantissa digit s).2.1, (mantissa digit s).2.2 ++ rest) := by
  simp only [mantissa, takeWhile_stop stops]
  cases s.dropWhile digit with
  | nil => simp [point]
  | cons c behind =>
    rcases eq_or_ne c '.' with rfl | other
    · simp [takeWhile_stop stops]
    · simp [other]

/-- The bytes that decimal notation is made of. -/
def numeric (c : Char) : Bool := c.isDigit || c == '.' || c == 'e' || c == 'E' || c == '+' || c == '-'

section Suffix
variable {rest : List Char} (stops : ∀ c ∈ rest.head?, numeric c = false)
include stops

theorem stop_digit : ∀ c ∈ rest.head?, c.isDigit = false := by
  intro c first
  have stop := stops c first
  simp only [numeric, Bool.or_eq_false_iff] at stop
  exact stop.1.1.1.1.1

theorem stop_char {x : Char} (part : numeric x = true) : rest.head? ≠ some x := by
  intro first
  have stop := stops x first
  rw [part] at stop
  cases stop

theorem signed_append (s : List Char) : signed (s ++ rest) = ((signed s).1, (signed s).2 ++ rest) := by
  cases s with
  | nil =>
    cases rest with
    | nil => rfl
    | cons c rest =>
      have minus : c ≠ '-' := fun eq => stop_char stops (show numeric '-' = true by decide) (by rw [eq]; rfl)
      have plus : c ≠ '+' := fun eq => stop_char stops (show numeric '+' = true by decide) (by rw [eq]; rfl)
      simp [signed, minus, plus]
  | cons c s =>
    rcases eq_or_ne c '-' with rfl | minus
    · rfl
    · rcases eq_or_ne c '+' with rfl | plus
      · rfl
      · simp [signed, minus, plus]

theorem digits_append (s : List Char) : (s ++ rest).takeWhile Char.isDigit = s.takeWhile Char.isDigit ∧
    (s ++ rest).dropWhile Char.isDigit = s.dropWhile Char.isDigit ++ rest :=
  takeWhile_stop (stop_digit stops) s

theorem exponent_append {letters : List Char} (other : ∀ c ∈ rest.head?, c ∉ letters) (s : List Char) :
    exponent letters (s ++ rest) = exponent letters s := by
  cases s with
  | nil =>
    cases rest with
    | nil => rfl
    | cons c rest => exact if_neg (other c rfl)
  | cons c s => simp only [List.cons_append, exponent, signed_append stops, digits_append stops]

/-- What follows a number and cannot continue it does not change what is read. -/
theorem atoi_append {s : List Char} (skips : (s ++ rest).dropWhile isspace = s.dropWhile isspace ++ rest) :
    atoi (s ++ rest) = atoi s := by
  simp only [atoi, strtol, skips, signed_append stops, digits_append stops]

theorem decimalValue_append {s : List Char}
    (skips : (s ++ rest).dropWhile isspace = s.dropWhile isspace ++ rest) :
    decimalValue (s ++ rest) = decimalValue s := by
  have point : rest.head? ≠ some '.' := stop_char stops (by decide)
  have letters : ∀ c ∈ rest.head?, c ∉ ['e', 'E'] := by
    intro c first letter
    rcases List.mem_pair.mp letter with rfl | rfl
    · exact stop_char stops (by decide) first
    · exact stop_char stops (by decide) first
  simp only [decimalValue, skips, signed_append stops, mantissa_append (stop_digit stops) point,
    exponent_append stops letters]

end Suffix
/-- Where strtol stops: behind the last digit, at the start where there is none. -/
def strtolEnd (s : List Char) : List Char :=
  let behind := (signed (s.dropWhile isspace)).2
  if behind.takeWhile Char.isDigit = [] then s else behind.dropWhile Char.isDigit

/-- The conversion %d of sscanf: the int it stores and what it leaves. -/
def scanInt (s : List Char) : Option (Int × List Char) :=
  let behind := (signed (s.dropWhile isspace)).2
  if behind.takeWhile Char.isDigit = [] then none else some (atoi s, behind.dropWhile Char.isDigit)

/-- The conversion %lld of fscanf. -/
def scanLong (s : List Char) : Option Int :=
  let behind := (signed (s.dropWhile isspace)).2
  if behind.takeWhile Char.isDigit = [] then none else some (strtol s)

/-- sscanf with the format "%d-%d", where both conversions succeed. -/
def scanRange (s : List Char) : Option (Int × Int) :=
  match scanInt s with
  | some (first, '-' :: rest) => (scanInt rest).map (fun second => (first, second.1))
  | _ => none

example : scanRange "0-15".toList = some (0, 15) ∧ scanRange "-1-3".toList = some (-1, 3) ∧
    scanRange "7".toList = none := by decide +kernel

/-- The tokens of strtok for one separator: the longest runs without it. -/
def tokens (sep : Char) (s : List Char) : List (List Char) := (s.splitOn sep).filter (fun tok => !tok.isEmpty)

theorem tokens_append (sep : Char) (s rest : List Char) :
    tokens sep (s ++ sep :: rest) = tokens sep s ++ tokens sep rest := by
  rw [tokens, List.splitOn_append_cons_self, List.filter_append, tokens, tokens]

theorem tokens_single {sep : Char} {s : List Char} (some_ : s ≠ []) (free : sep ∉ s) : tokens sep s = [s] := by
  rw [tokens, List.splitOn_eq_singleton free, List.filter_cons_of_pos (by simpa using some_), List.filter_nil]

/-- Items in one text, each but the last with the separator behind it. -/
def listed (sep : Char) (front : List (List Char)) (last : List Char) : List Char :=
  front.flatMap (fun item => item ++ [sep]) ++ last

theorem listed_cons (sep : Char) (item : List Char) (front : List (List Char)) (last : List Char) :
    listed sep (item :: front) last = item ++ sep :: listed sep front last := by
  simp [listed]

theorem tokens_listed {sep : Char} {front : List (List Char)} {last : List Char}
    (items : ∀ item ∈ front ++ [last], item ≠ [] ∧ sep ∉ item) :
    tokens sep (listed sep front last) = front ++ [last] := by
  induction front with
  | nil => exact tokens_single (items last (by simp)).1 (items last (by simp)).2
  | cons item front ih =>
    have own := items item (by simp)
    rw [listed_cons, tokens_append, tokens_single own.1 own.2,
      ih (fun other member => items other (List.mem_cons_of_mem _ member)), List.singleton_append, List.cons_append]

/-- Items with the separator between them. -/
theorem tokens_intercalate {sep : Char} {items : List (List Char)} (own : ∀ item ∈ items, item ≠ [] ∧ sep ∉ item) :
    tokens sep ([sep].intercalate items) = items := by
  rcases eq_or_ne items [] with rfl | some_
  · rfl
  · rw [tokens, List.splitOn_intercalate sep (fun item member => (own item member).2) some_, List.filter_eq_self]
    intro item member
    simpa using (own item member).1

theorem intercalate_mem {sep c : Char} {items : List (List Char)} (member : c ∈ [sep].intercalate items) :
    c = sep ∨ ∃ item ∈ items, c ∈ item := by
  induction items with
  | nil => cases member
  | cons item items ih =>
    rcases eq_or_ne items [] with rfl | more
    · rw [List.intercalate_singleton] at member
      exact Or.inr ⟨item, by simp, member⟩
    · rw [List.intercalate_cons_of_ne_nil more, List.mem_append, List.mem_append, List.mem_singleton] at member
      rcases member with (own | sep) | later
      · exact Or.inr ⟨item, by simp, own⟩
      · exact Or.inl sep
      · exact (ih later).imp_right (fun ⟨other, within, inside⟩ => ⟨other, List.mem_cons_of_mem _ within, inside⟩)

/-- Items of one length, with a separator between them. -/
theorem intercalate_length {sep : Char} {width : Nat} {items : List (List Char)}
    (same : ∀ item ∈ items, item.length = width) :
    ([sep].intercalate items).length ≤ items.length * (width + 1) - 1 := by
  induction items with
  | nil => simp
  | cons item items ih =>
    obtain ⟨own, rest⟩ := List.forall_mem_cons.mp same
    rcases eq_or_ne items [] with rfl | more
    · simp [own]
    · have tail := ih rest
      have positive := List.length_pos_of_ne_nil more
      have room : width + 1 ≤ items.length * (width + 1) := Nat.le_mul_of_pos_left _ positive
      rw [List.intercalate_cons_of_ne_nil more, List.length_append, List.length_append, own, List.length_singleton,
        List.length_cons, Nat.succ_mul]
      omega

theorem isspace_digit {c : Char} (digit : c.isDigit = true) : isspace c = false := by
  simp only [Char.isDigit, Bool.and_eq_true, decide_eq_true_eq, ge_iff_le, UInt32.le_iff_toNat_le] at digit
  have low : 48 ≤ c.toNat := digit.1
  have space : ' '.toNat = 32 := rfl
  have other : c ≠ ' ' := fun eq => by rw [eq] at low; omega
  simp [isspace, other]
  omega

theorem signed_digit {c : Char} (digit : c.isDigit = true) (s : List Char) : signed (c :: s) = (1, c :: s) := by
  unfold signed
  split
  · rename_i eq
    rw [(List.cons.inj eq).1] at digit
    exact absurd digit (by decide)
  · rename_i eq
    rw [(List.cons.inj eq).1] at digit
    exact absurd digit (by decide)
  · rfl

structure Numeral where
  chars : List Char
  some_ : chars ≠ []
  digits : chars.all Char.isDigit = true

def Numeral.zero : Numeral := ⟨['0'], by decide, by decide⟩
def Numeral.one : Numeral := ⟨['1'], by decide, by decide⟩

def Numeral.value (n : Numeral) : Nat := decimal n.chars

@[simp] theorem Numeral.zero_value : Numeral.zero.value = 0 := rfl
@[simp] theorem Numeral.one_value : Numeral.one.value = 1 := rfl

theorem Numeral.behind (n : Numeral) (rest : List Char) :
    signed ((n.chars ++ rest).dropWhile isspace) = (1, n.chars ++ rest) := by
  obtain ⟨chars, some_, digits⟩ := n
  obtain ⟨c, chars, rfl⟩ := List.exists_cons_of_ne_nil some_
  rw [List.all_cons, Bool.and_eq_true] at digits
  simp only [List.cons_append, List.dropWhile_cons, isspace_digit digits.1]
  exact signed_digit digits.1 _

theorem Numeral.taken (n : Numeral) {rest : List Char} (stops : ∀ c ∈ rest.head?, c.isDigit = false) :
    (n.chars ++ rest).takeWhile Char.isDigit = n.chars ∧ (n.chars ++ rest).dropWhile Char.isDigit = rest := by
  have digits : ∀ c ∈ n.chars, c.isDigit = true := List.all_eq_true.mp n.digits
  have whole := takeWhile_stop stops n.chars
  have taken : n.chars.takeWhile Char.isDigit = n.chars := List.takeWhile_eq_self_iff.mpr digits
  have dropped : n.chars.dropWhile Char.isDigit = [] := List.dropWhile_eq_nil_iff.mpr digits
  rwa [taken, dropped, List.nil_append] at whole

theorem Numeral.scan (n : Numeral) {rest : List Char} (stops : ∀ c ∈ rest.head?, c.isDigit = false)
    (fits : n.value < 2 ^ 31) : scanInt (n.chars ++ rest) = some ((n.value : Int), rest) := by
  have whole := n.taken stops
  have number : strtol (n.chars ++ rest) = n.value := by
    simp only [strtol, n.behind, whole.1, one_mul]
    have value : decimal n.chars = n.value := rfl
    rw [value]
    omega
  have converted : atoi (n.chars ++ rest) = n.value := by
    rw [atoi, number, Int.bmod_eq_of_le] <;> omega
  simp only [scanInt, n.behind, whole, n.some_, if_false, converted]

theorem mem_dropWhile {p : Char → Bool} {c : Char} {s : List Char} (stays : p c = false) (member : c ∈ s) :
    c ∈ s.dropWhile p := by
  rw [← List.takeWhile_append_dropWhile (p := p) (l := s)] at member
  rcases List.mem_append.mp member with taken | dropped
  · rw [List.mem_takeWhile_imp taken] at stays
    cases stays
  · exact dropped

theorem mem_signed {c : Char} {s : List Char} (minus : c ≠ '-') (plus : c ≠ '+') (member : c ∈ s) :
    c ∈ (signed s).2 := by
  unfold signed
  split
  · exact (List.mem_cons.mp member).resolve_left minus
  · exact (List.mem_cons.mp member).resolve_left plus
  · exact member

/-- A byte that no number contains is left behind by strtol. -/
theorem mem_strtolEnd {c : Char} {s : List Char} (space : isspace c = false) (minus : c ≠ '-') (plus : c ≠ '+')
    (digit : c.isDigit = false) (member : c ∈ s) : c ∈ strtolEnd s := by
  unfold strtolEnd
  dsimp only
  split
  · exact member
  · exact mem_dropWhile digit (mem_signed minus plus (mem_dropWhile space member))

end CText
