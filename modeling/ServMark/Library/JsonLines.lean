import ServMark.Library.Json

/-! JSON texts written in lines, a member or an item in each. A string is printed as it is, without
escapes: the text is read back as it was meant unless a string in it needs them. -/
namespace Json
open CText

/-- What follows a member or an item: its line ends, perhaps behind a comma. -/
def LineEnd (rest : List Char) : Prop := ∃ t, rest = ',' :: '\n' :: t ∨ rest = '\n' :: t

/-- A printed value: its text, what it is meant to be, when it is read so, and what may be read
otherwise. -/
structure Piece where
  text : List Char
  value : Value
  good : Prop
  spoilt : Value → Prop

/-- At the end of a line the text is read as meant if it is good; what is read of another text
is spoilt. -/
structure Piece.Sound (p : Piece) : Prop where
  read : p.good → ∀ rest, LineEnd rest → Reads (p.text ++ rest) p.value rest
  only : ∀ rest v left, LineEnd rest → Reads (p.text ++ rest) v left →
    (p.good ∧ v = p.value ∧ left = rest) ∨ p.spoilt v

theorem lineEnd_stops {rest : List Char} (line : LineEnd rest) : ∀ c ∈ rest.head?, numeric c = false := by
  obtain ⟨t, rfl | rfl⟩ := line <;> rintro c ⟨⟩ <;> decide

theorem lineEnd_ends {t : List Char} (line : LineEnd t) : ∀ d rest, ¬ Chars t d rest := by
  have newline : ∀ t d rest, ¬ Chars ('\n' :: t) d rest := by
    intro t d rest read
    cases read with
    | plain own => exact absurd own (by decide)
  intro d rest read
  obtain ⟨t, rfl | rfl⟩ := line
  · cases read with
    | plain _ later => exact newline _ _ _ later
  · exact newline _ _ _ read

def numberPiece (text : List Char) : Piece := ⟨text, .number text, True, fun _ => False⟩

theorem numberPiece_sound {text : List Char} (number : Number text) : (numberPiece text).Sound where
  read _ rest line := .number (number_solid number rest) number (lineEnd_stops line)
  only rest _ _ line read :=
    Or.inl ⟨trivial, reads_number (number_solid number rest) number (lineEnd_stops line) read⟩

def quoted (s : List Char) : List Char := '"' :: (s ++ ['"'])

def stringPiece (s : List Char) : Piece :=
  ⟨quoted s, .string s, Plain s, fun v => ¬ Plain s ∧ ∃ d, v = .string d ∧ d ≠ s⟩

theorem stringPiece_sound (s : List Char) : (stringPiece s).Sound := by
  have here (rest : List Char) : token (quoted s ++ rest) = '"' :: (s ++ '"' :: rest) := by
    rw [quoted, List.cons_append, List.append_assoc, token_solid (by decide)]
    rfl
  constructor
  · exact fun plain rest _ => .string (here rest) (plain_chars plain rest)
  · intro rest v left line read
    obtain ⟨d, rfl, chars⟩ := reads_string (here rest) read
    obtain ⟨short, exact⟩ := chars_only (lineEnd_ends line) chars
    by_cases plain : Plain s
    · obtain ⟨rfl, rfl⟩ := chars_plain plain chars
      exact Or.inl ⟨plain, rfl, rfl⟩
    · exact Or.inr ⟨plain, d, rfl, fun same => plain (exact (congrArg List.length same)).1⟩

/-- Lines with a comma at the end of each but the last. -/
def commaLines : List (List Char) → List Char
  | [] => []
  | [line] => line ++ ['\n']
  | line :: next :: lines => line ++ ',' :: '\n' :: commaLines (next :: lines)

/-- The loop that prints a comma behind each line but the last. -/
theorem commaLines_loop (lines : List (List Char)) : commaLines lines = lines.zipIdx.flatMap (fun p =>
    p.1 ++ (if (p.2 : Int) < lines.length - 1 then [','] else []) ++ ['\n']) := by
  have general : ∀ (k n : Nat), k + lines.length = n → commaLines lines = (lines.zipIdx k).flatMap (fun p =>
      p.1 ++ (if (p.2 : Int) < n - 1 then [','] else []) ++ ['\n']) := by
    induction lines with
    | nil => exact fun _ _ _ => rfl
    | cons line lines ih =>
      intro k n eq
      rw [List.length_cons] at eq
      rw [List.zipIdx_cons, List.flatMap_cons, ← ih (k + 1) n (by omega)]
      cases lines with
      | nil =>
        have last : ¬ (k : Int) < n - 1 := by simp at eq; omega
        simp [commaLines, last]
      | cons next lines =>
        have inner : (k : Int) < n - 1 := by simp at eq; omega
        simp [commaLines, inner]
  exact general 0 lines.length (Nat.zero_add _)

theorem commaLines_snoc (front : List (List Char)) (last : List Char) :
    commaLines (front ++ [last]) = front.flatMap (fun line => line ++ [',', '\n']) ++ last ++ ['\n'] := by
  induction front with
  | nil => rfl
  | cons line front ih =>
    obtain ⟨next, rest, eq⟩ := List.exists_cons_of_ne_nil (show front ++ [last] ≠ [] by simp)
    rw [eq] at ih
    rw [List.cons_append, eq, commaLines, ih]
    simp only [List.flatMap_cons, List.append_assoc, List.cons_append, List.nil_append]

theorem commaLines_cons (line : List Char) (lines : List (List Char)) :
    ∃ behind, commaLines (line :: lines) = line ++ behind := by
  cases lines with
  | nil => exact ⟨_, rfl⟩
  | cons next lines => exact ⟨_, rfl⟩

def memberText (gap : List Char) (member : List Char × Piece) : List Char :=
  gap ++ quoted member.1 ++ ':' :: ' ' :: member.2.text

/-- An object with a member in each line. -/
def objectPiece (gap close : List Char) (members : List (List Char × Piece)) : Piece where
  text := '\x7b' :: '\n' :: (commaLines (members.map (memberText gap)) ++ close ++ ['\x7d'])
  value := .object (members.map (fun member => (member.1, member.2.value)))
  good := ∀ member ∈ members, member.2.good
  spoilt v := ∃ read, v = .object read ∧ ∃ member ∈ members, ∃ w, (member.1, w) ∈ read ∧ member.2.spoilt w

/-- An array with an item in each line. -/
def arrayPiece (gap close : List Char) (items : List Piece) : Piece where
  text := '[' :: '\n' :: (commaLines (items.map (fun item => gap ++ item.text)) ++ close ++ [']'])
  value := .array (items.map Piece.value)
  good := ∀ item ∈ items, item.good
  spoilt v := ∃ read, v = .array read ∧ ∃ (i : Nat) (item : Piece) (w : Value), items[i]? = some item ∧
    read[i]? = some w ∧ item.spoilt w

/-- Two numbers in one line. -/
def rangePiece (low high : List Char) : Piece :=
  ⟨'[' :: (low ++ ',' :: ' ' :: high ++ [']']), .array [.number low, .number high], True, fun _ => False⟩

theorem readsItems_newline {s rest : List Char} {items : List Value} :
    ReadsItems ('\n' :: s) items rest ↔ ReadsItems s items rest := ⟨readsItems_congr rfl, readsItems_congr rfl⟩

theorem readsMembers_newline {s rest : List Char} {members : List (List Char × Value)} :
    ReadsMembers ('\n' :: s) members rest ↔ ReadsMembers s members rest :=
  ⟨readsMembers_congr rfl, readsMembers_congr rfl⟩

theorem close_token {close : List Char} (blank : ∀ c ∈ close, isBlank c = true) {c : Char} (solid : isBlank c = false)
    (rest : List Char) : token ('\n' :: (close ++ c :: rest)) = c :: rest := by
  have both : ∀ x ∈ '\n' :: close, isBlank x = true := List.forall_mem_cons.mpr ⟨by decide, blank⟩
  rw [← List.cons_append, token_blanks both, token_solid solid]

section Members
variable {gap : List Char} (blank : ∀ c ∈ gap, isBlank c = true) {key : List Char} (plain : Plain key) {p : Piece}
    (sound : p.Sound) {t : List Char} (line : LineEnd t)
include blank

theorem memberText_token :
    token (memberText gap (key, p) ++ t) = '"' :: (key ++ '"' :: ':' :: ' ' :: (p.text ++ t)) := by
  have solid : isBlank '"' = false := by decide
  have split : memberText gap (key, p) ++ t = gap ++ '"' :: (key ++ '"' :: ':' :: ' ' :: (p.text ++ t)) := by
    simp only [memberText, quoted, List.append_assoc, List.cons_append, List.nil_append]
  rw [split, token_blanks blank, token_solid solid]

include plain sound line

theorem member_read (good : p.good) : ∃ inner after text, token (memberText gap (key, p) ++ t) = '"' :: inner ∧
    Chars inner key after ∧ token after = ':' :: text ∧ Reads text p.value t :=
  have space : token (' ' :: (p.text ++ t)) = token (p.text ++ t) := rfl
  ⟨_, _, _, memberText_token blank, plain_chars plain _, token_solid (by decide) _,
    reads_congr space (sound.read good t line)⟩

theorem member_only {inner key' after text behind : List Char} {v : Value}
    (here : token (memberText gap (key, p) ++ t) = '"' :: inner) (chars : Chars inner key' after)
    (colon : token after = ':' :: text) (read : Reads text v behind) :
    key' = key ∧ ((p.good ∧ v = p.value ∧ behind = t) ∨ p.spoilt v) := by
  rw [memberText_token blank] at here
  obtain ⟨_, rfl⟩ := List.cons.inj here
  obtain ⟨rfl, rfl⟩ := chars_plain plain chars
  rw [token_solid (by decide)] at colon
  obtain ⟨_, rfl⟩ := List.cons.inj colon
  have space : token (p.text ++ t) = token (' ' :: (p.text ++ t)) := rfl
  exact ⟨rfl, sound.only t v behind line (reads_congr space read)⟩

end Members

/-- What the first member of an object is read as, and what follows it. -/
theorem first_member {gap : List Char} (gap_blank : ∀ c ∈ gap, isBlank c = true) {key : List Char} {p : Piece}
    (plain : Plain key) (own : p.Sound) {t left : List Char}
    (line : LineEnd t) {read : List (List Char × Value)}
    (reads : ReadsMembers (memberText gap (key, p) ++ t) read left) :
    (∃ w, (key, w) ∈ read ∧ p.spoilt w) ∨ p.good ∧ ∃ more, read = (key, p.value) :: more ∧
      (more = [] ∧ token t = '\x7d' :: left ∨ ∃ after, token t = ',' :: after ∧ ReadsMembers after more left) := by
  cases reads with
  | last here chars colon value closed =>
    obtain ⟨rfl, ⟨fine, rfl, rfl⟩ | spoilt⟩ := member_only gap_blank plain own line here chars colon value
    · exact Or.inr ⟨fine, _, rfl, Or.inl ⟨rfl, closed⟩⟩
    · exact Or.inl ⟨_, List.mem_cons_self, spoilt⟩
  | more here chars colon value comma later =>
    obtain ⟨rfl, ⟨fine, rfl, rfl⟩ | spoilt⟩ := member_only gap_blank plain own line here chars colon value
    · exact Or.inr ⟨fine, _, rfl, Or.inr ⟨_, comma, later⟩⟩
    · exact Or.inl ⟨_, List.mem_cons_self, spoilt⟩

theorem first_item {gap : List Char} (gap_blank : ∀ c ∈ gap, isBlank c = true) {p : Piece} (own : p.Sound)
    {t left : List Char} (line : LineEnd t) {read : List Value}
    (reads : ReadsItems (gap ++ (p.text ++ t)) read left) :
    (∃ w, read[0]? = some w ∧ p.spoilt w) ∨ p.good ∧ ∃ more, read = p.value :: more ∧
      (more = [] ∧ token t = ']' :: left ∨ ∃ after, token t = ',' :: after ∧ ReadsItems after more left) := by
  have skip : token (p.text ++ t) = token (gap ++ (p.text ++ t)) := (token_blanks gap_blank _).symm
  cases reads with
  | last value closed =>
    obtain ⟨fine, rfl, rfl⟩ | spoilt := own.only _ _ _ line (reads_congr skip value)
    · exact Or.inr ⟨fine, _, rfl, Or.inl ⟨rfl, closed⟩⟩
    · exact Or.inl ⟨_, rfl, spoilt⟩
  | more value comma later =>
    obtain ⟨fine, rfl, rfl⟩ | spoilt := own.only _ _ _ line (reads_congr skip value)
    · exact Or.inr ⟨fine, _, rfl, Or.inr ⟨_, comma, later⟩⟩
    · exact Or.inl ⟨_, rfl, spoilt⟩

section Layout
variable {gap close : List Char} (gap_blank : ∀ c ∈ gap, isBlank c = true) (close_blank : ∀ c ∈ close, isBlank c = true)
include gap_blank close_blank

theorem members_read {members : List (List Char × Piece)} (some_ : members ≠ [])
    (sound : ∀ member ∈ members, Plain member.1 ∧ member.2.Sound) (good : ∀ member ∈ members, member.2.good)
    (rest : List Char) :
    ReadsMembers (commaLines (members.map (memberText gap)) ++ (close ++ '\x7d' :: rest))
      (members.map (fun member => (member.1, member.2.value))) rest := by
  induction members with
  | nil => exact absurd rfl some_
  | cons member members ih =>
    obtain ⟨key, p⟩ := member
    obtain ⟨⟨plain, own⟩, sound⟩ := List.forall_mem_cons.mp sound
    obtain ⟨fine, good⟩ := List.forall_mem_cons.mp good
    cases members with
    | nil =>
      obtain ⟨inner, after, text, here, chars, colon, read⟩ :=
        member_read gap_blank plain own ⟨close ++ '\x7d' :: rest, Or.inr rfl⟩ fine
      have whole : commaLines ([(key, p)].map (memberText gap)) ++ (close ++ '\x7d' :: rest) =
          memberText gap (key, p) ++ '\n' :: (close ++ '\x7d' :: rest) := by simp [commaLines]
      rw [whole]
      exact .last here chars colon read (close_token close_blank (by decide) rest)
    | cons next members =>
      let later := commaLines ((next :: members).map (memberText gap)) ++ (close ++ '\x7d' :: rest)
      obtain ⟨inner, after, text, here, chars, colon, read⟩ :=
        member_read gap_blank plain own ⟨later, Or.inl rfl⟩ fine
      have whole : commaLines (((key, p) :: next :: members).map (memberText gap)) ++ (close ++ '\x7d' :: rest) =
          memberText gap (key, p) ++ ',' :: '\n' :: later := by simp [commaLines, later]
      rw [whole]
      exact .more here chars colon read (token_solid (by decide) _)
        (readsMembers_newline.mpr (ih (by simp) sound good))

theorem members_only {members : List (List Char × Piece)} (some_ : members ≠ [])
    (sound : ∀ member ∈ members, Plain member.1 ∧ member.2.Sound) {read : List (List Char × Value)}
    {rest left : List Char}
    (reads : ReadsMembers (commaLines (members.map (memberText gap)) ++ (close ++ '\x7d' :: rest)) read left) :
    ((∀ member ∈ members, member.2.good) ∧ read = members.map (fun member => (member.1, member.2.value)) ∧
      left = rest) ∨ ∃ member ∈ members, ∃ w, (member.1, w) ∈ read ∧ member.2.spoilt w := by
  induction members generalizing read with
  | nil => exact absurd rfl some_
  | cons member members ih =>
    obtain ⟨key, p⟩ := member
    obtain ⟨⟨plain, own⟩, others⟩ := List.forall_mem_cons.mp sound
    cases members with
    | nil =>
      have whole : commaLines ([(key, p)].map (memberText gap)) ++ (close ++ '\x7d' :: rest) =
          memberText gap (key, p) ++ '\n' :: (close ++ '\x7d' :: rest) := by simp [commaLines]
      have ends := close_token close_blank (show isBlank '\x7d' = false by decide) rest
      rw [whole] at reads
      obtain ⟨w, found, spoilt⟩ | ⟨fine, more, rfl, ⟨rfl, closed⟩ | ⟨after, comma, _⟩⟩ :=
        first_member gap_blank plain own ⟨_, Or.inr rfl⟩ reads
      · exact Or.inr ⟨_, List.mem_cons_self, w, found, spoilt⟩
      · rw [ends] at closed
        exact Or.inl ⟨by simpa using fine, rfl, (List.cons.inj closed).2.symm⟩
      · rw [ends] at comma
        exact absurd (List.cons.inj comma).1 (by decide)
    | cons next members =>
      let behind := commaLines ((next :: members).map (memberText gap)) ++ (close ++ '\x7d' :: rest)
      have whole : commaLines (((key, p) :: next :: members).map (memberText gap)) ++ (close ++ '\x7d' :: rest) =
          memberText gap (key, p) ++ ',' :: '\n' :: behind := by simp [commaLines, behind]
      have ends : token (',' :: '\n' :: behind) = ',' :: '\n' :: behind := token_solid (by decide) _
      rw [whole] at reads
      obtain ⟨w, found, spoilt⟩ | ⟨fine, more, rfl, ⟨_, closed⟩ | ⟨after, comma, later⟩⟩ :=
        first_member gap_blank plain own ⟨_, Or.inl rfl⟩ reads
      · exact Or.inr ⟨_, List.mem_cons_self, w, found, spoilt⟩
      · rw [ends] at closed
        exact absurd (List.cons.inj closed).1 (by decide)
      · rw [ends] at comma
        obtain ⟨_, rfl⟩ := List.cons.inj comma
        obtain ⟨good, rfl, rfl⟩ | ⟨member, among, w, found, spoilt⟩ :=
          ih (by simp) others (readsMembers_newline.mp later)
        · exact Or.inl ⟨List.forall_mem_cons.mpr ⟨fine, good⟩, rfl, rfl⟩
        · exact Or.inr ⟨member, List.mem_cons_of_mem _ among, w, List.mem_cons_of_mem _ found, spoilt⟩

theorem objectPiece_sound {members : List (List Char × Piece)} (some_ : members ≠ [])
    (sound : ∀ member ∈ members, Plain member.1 ∧ member.2.Sound) : (objectPiece gap close members).Sound := by
  have here (rest : List Char) : token ((objectPiece gap close members).text ++ rest) =
      '\x7b' :: '\n' :: (commaLines (members.map (memberText gap)) ++ (close ++ '\x7d' :: rest)) := by
    simp only [objectPiece, List.cons_append, List.append_assoc, List.nil_append]
    exact token_solid (by decide) _
  constructor
  · intro good rest _
    exact .object (here rest) (readsMembers_newline.mpr (members_read gap_blank close_blank some_ sound good rest))
  · intro rest v left _ read
    rcases reads_object (here rest) read with ⟨rfl, closed⟩ | ⟨found, rfl, reads⟩
    · obtain ⟨⟨key, p⟩, later, rfl⟩ := List.exists_cons_of_ne_nil some_
      obtain ⟨behind, eq⟩ := commaLines_cons (memberText gap (key, p)) (later.map (memberText gap))
      have first :
          token ('\n' :: (commaLines (((key, p) :: later).map (memberText gap)) ++ (close ++ '\x7d' :: rest))) =
          token (memberText gap (key, p) ++ (behind ++ (close ++ '\x7d' :: rest))) := by
        rw [List.map_cons, eq, List.append_assoc]
        rfl
      rw [first, memberText_token gap_blank] at closed
      exact absurd (List.cons.inj closed).1 (by decide)
    · obtain ⟨good, rfl, rfl⟩ | ⟨member, among, w, inside, spoilt⟩ :=
        members_only gap_blank close_blank some_ sound (readsMembers_newline.mp reads)
      · exact Or.inl ⟨good, rfl, rfl⟩
      · exact Or.inr ⟨found, rfl, member, among, w, inside, spoilt⟩

theorem items_read {items : List Piece} (some_ : items ≠ []) (sound : ∀ item ∈ items, item.Sound)
    (good : ∀ item ∈ items, item.good) (rest : List Char) :
    ReadsItems (commaLines (items.map (fun item => gap ++ item.text)) ++ (close ++ ']' :: rest))
      (items.map Piece.value) rest := by
  induction items with
  | nil => exact absurd rfl some_
  | cons p items ih =>
    obtain ⟨own, others⟩ := List.forall_mem_cons.mp sound
    obtain ⟨fine, good⟩ := List.forall_mem_cons.mp good
    have skip (t : List Char) : token (gap ++ (p.text ++ t)) = token (p.text ++ t) := token_blanks gap_blank _
    cases items with
    | nil =>
      have whole : commaLines ([p].map (fun item => gap ++ item.text)) ++ (close ++ ']' :: rest) =
          gap ++ (p.text ++ '\n' :: (close ++ ']' :: rest)) := by simp [commaLines]
      rw [whole]
      exact .last (reads_congr (skip _) (own.read fine _ ⟨_, Or.inr rfl⟩)) (close_token close_blank (by decide) rest)
    | cons next items =>
      let later := commaLines ((next :: items).map (fun item => gap ++ item.text)) ++ (close ++ ']' :: rest)
      have whole : commaLines ((p :: next :: items).map (fun item => gap ++ item.text)) ++ (close ++ ']' :: rest) =
          gap ++ (p.text ++ ',' :: '\n' :: later) := by simp [commaLines, later]
      rw [whole]
      exact .more (reads_congr (skip _) (own.read fine _ ⟨_, Or.inl rfl⟩)) (token_solid (by decide) _)
        (readsItems_newline.mpr (ih (by simp) others good))

theorem items_only {items : List Piece} (some_ : items ≠ []) (sound : ∀ item ∈ items, item.Sound) {read : List Value}
    {rest left : List Char}
    (reads : ReadsItems (commaLines (items.map (fun item => gap ++ item.text)) ++ (close ++ ']' :: rest)) read left) :
    ((∀ item ∈ items, item.good) ∧ read = items.map Piece.value ∧ left = rest) ∨
      ∃ (i : Nat) (item : Piece) (w : Value), items[i]? = some item ∧ read[i]? = some w ∧ item.spoilt w := by
  induction items generalizing read with
  | nil => exact absurd rfl some_
  | cons p items ih =>
    obtain ⟨own, others⟩ := List.forall_mem_cons.mp sound
    cases items with
    | nil =>
      have whole : commaLines ([p].map (fun item => gap ++ item.text)) ++ (close ++ ']' :: rest) =
          gap ++ (p.text ++ '\n' :: (close ++ ']' :: rest)) := by simp [commaLines]
      have ends := close_token close_blank (show isBlank ']' = false by decide) rest
      rw [whole] at reads
      obtain ⟨w, found, spoilt⟩ | ⟨fine, more, rfl, ⟨rfl, closed⟩ | ⟨after, comma, _⟩⟩ :=
        first_item gap_blank own ⟨_, Or.inr rfl⟩ reads
      · exact Or.inr ⟨0, p, w, rfl, found, spoilt⟩
      · rw [ends] at closed
        exact Or.inl ⟨by simpa using fine, rfl, (List.cons.inj closed).2.symm⟩
      · rw [ends] at comma
        exact absurd (List.cons.inj comma).1 (by decide)
    | cons next items =>
      let behind := commaLines ((next :: items).map (fun item => gap ++ item.text)) ++ (close ++ ']' :: rest)
      have whole : commaLines ((p :: next :: items).map (fun item => gap ++ item.text)) ++ (close ++ ']' :: rest) =
          gap ++ (p.text ++ ',' :: '\n' :: behind) := by simp [commaLines, behind]
      have ends : token (',' :: '\n' :: behind) = ',' :: '\n' :: behind := token_solid (by decide) _
      rw [whole] at reads
      obtain ⟨w, found, spoilt⟩ | ⟨fine, more, rfl, ⟨_, closed⟩ | ⟨after, comma, later⟩⟩ :=
        first_item gap_blank own ⟨_, Or.inl rfl⟩ reads
      · exact Or.inr ⟨0, p, w, rfl, found, spoilt⟩
      · rw [ends] at closed
        exact absurd (List.cons.inj closed).1 (by decide)
      · rw [ends] at comma
        obtain ⟨_, rfl⟩ := List.cons.inj comma
        obtain ⟨good, rfl, rfl⟩ | ⟨i, item, w, among, found, spoilt⟩ :=
          ih (by simp) others (readsItems_newline.mp later)
        · exact Or.inl ⟨List.forall_mem_cons.mpr ⟨fine, good⟩, rfl, rfl⟩
        · exact Or.inr ⟨i + 1, item, w, among, found, spoilt⟩

theorem arrayPiece_sound {items : List Piece} (sound : ∀ item ∈ items, item.Sound)
    (opens : ∀ item ∈ items, ∃ inner, item.text = '\x7b' :: inner) : (arrayPiece gap close items).Sound := by
  have here (rest : List Char) : token ((arrayPiece gap close items).text ++ rest) =
      '[' :: '\n' :: (commaLines (items.map (fun item => gap ++ item.text)) ++ (close ++ ']' :: rest)) := by
    simp only [arrayPiece, List.cons_append, List.append_assoc, List.nil_append]
    exact token_solid (by decide) _
  have ends := close_token close_blank (show isBlank ']' = false by decide)
  rcases eq_or_ne items [] with rfl | some_
  · constructor
    · exact fun _ rest _ => .emptyArray (here rest) (ends rest)
    · intro rest v left _ read
      rcases reads_array (here rest) read with ⟨rfl, closed⟩ | ⟨found, rfl, reads⟩
      · have same := (ends rest).symm.trans closed
        exact Or.inl ⟨nofun, rfl, (List.cons.inj same).2.symm⟩
      · exact absurd reads (readsItems_closed (ends rest))
  · constructor
    · intro good rest _
      exact .array (here rest) (readsItems_newline.mpr (items_read gap_blank close_blank some_ sound good rest))
    · intro rest v left _ read
      rcases reads_array (here rest) read with ⟨rfl, closed⟩ | ⟨found, rfl, reads⟩
      · obtain ⟨p, later, rfl⟩ := List.exists_cons_of_ne_nil some_
        obtain ⟨inner, text⟩ := opens p List.mem_cons_self
        obtain ⟨behind, eq⟩ := commaLines_cons (gap ++ p.text) (later.map (fun item => gap ++ item.text))
        have first : token ('\n' :: (commaLines ((p :: later).map (fun item => gap ++ item.text)) ++
            (close ++ ']' :: rest))) = token (gap ++ ('\x7b' :: (inner ++ (behind ++ (close ++ ']' :: rest))))) := by
          rw [List.map_cons, eq, text]
          simp only [List.append_assoc, List.cons_append]
          rfl
        rw [first, token_blanks gap_blank, token_solid (by decide)] at closed
        exact absurd (List.cons.inj closed).1 (by decide)
      · obtain ⟨good, rfl, rfl⟩ | ⟨i, item, w, among, inside, spoilt⟩ :=
          items_only gap_blank close_blank some_ sound (readsItems_newline.mp reads)
        · exact Or.inl ⟨good, rfl, rfl⟩
        · exact Or.inr ⟨found, rfl, i, item, w, among, inside, spoilt⟩

end Layout

theorem rangePiece_sound {low high : List Char} (first : Number low) (second : Number high) :
    (rangePiece low high).Sound := by
  have here (rest : List Char) : token ((rangePiece low high).text ++ rest) =
      '[' :: (low ++ ',' :: ' ' :: (high ++ ']' :: rest)) := by
    simp only [rangePiece, List.cons_append, List.append_assoc, List.nil_append]
    exact token_solid (by decide) _
  have comma : ∀ (t : List Char), ∀ c ∈ (',' :: t).head?, numeric c = false := by
    rintro t c ⟨⟩
    decide
  have bracket : ∀ (t : List Char), ∀ c ∈ (']' :: t).head?, numeric c = false := by
    rintro t c ⟨⟩
    decide
  have space (t : List Char) : token (' ' :: (high ++ t)) = high ++ t := number_solid second t
  constructor
  · intro _ rest _
    refine .array (here rest) (.more (.number (number_solid first _) first (comma _)) (token_solid (by decide) _) ?_)
    exact .last (.number (space _) second (bracket rest)) (token_solid (by decide) _)
  · intro rest v left _ read
    rcases reads_array (here rest) read with ⟨rfl, closed⟩ | ⟨found, rfl, reads⟩
    · rw [number_solid first] at closed
      obtain ⟨c, tail, rfl, head⟩ := number_head first
      rw [List.cons_append] at closed
      obtain ⟨rfl, _⟩ := List.cons.inj closed
      exact absurd head (by decide)
    · have after : token (',' :: ' ' :: (high ++ ']' :: rest)) = ',' :: ' ' :: (high ++ ']' :: rest) :=
        token_solid (by decide) _
      have ends : token (']' :: rest) = ']' :: rest := token_solid (by decide) _
      cases reads with
      | last value closed =>
        obtain ⟨rfl, rfl⟩ := reads_number (number_solid first _) first (comma _) value
        rw [after] at closed
        exact absurd (List.cons.inj closed).1 (by decide)
      | more value next later =>
        obtain ⟨rfl, rfl⟩ := reads_number (number_solid first _) first (comma _) value
        rw [after] at next
        obtain ⟨_, rfl⟩ := List.cons.inj next
        cases later with
        | last value closed =>
          obtain ⟨rfl, rfl⟩ := reads_number (space _) second (bracket rest) value
          rw [ends] at closed
          exact Or.inl ⟨trivial, rfl, (List.cons.inj closed).2.symm⟩
        | more value next _ =>
          obtain ⟨rfl, rfl⟩ := reads_number (space _) second (bracket rest) value
          rw [ends] at next
          exact absurd (List.cons.inj next).1 (by decide)

/- The bytes of a printed text: strings are the only part that need not be ASCII. -/

def Ascii (s : List Char) : Prop := ∀ c ∈ s, c.toNat < 0x80

theorem utf8_of_ascii {s : List Char} (ascii : Ascii s) : utf8 s := by
  have whole := (utf8_front ascii []).mpr rfl
  rwa [List.append_nil] at whole

theorem blank_ascii {s : List Char} (blank : ∀ c ∈ s, isBlank c = true) : Ascii s := by
  intro c member
  have own := blank c member
  simp only [isBlank, Bool.or_eq_true, beq_iff_eq] at own
  rcases own with ((rfl | rfl) | rfl) | rfl <;> decide

theorem number_ascii {text : List Char} (number : Number text) : Ascii text := by
  intro c member
  have own := number_numeric number c member
  simp only [numeric, Bool.or_eq_true, beq_iff_eq] at own
  rcases own with ((((digit | rfl) | rfl) | rfl) | rfl) | rfl
  · simp only [Char.isDigit, Bool.and_eq_true, decide_eq_true_eq, UInt32.le_iff_toNat_le] at digit
    exact Nat.lt_of_le_of_lt digit.2 (by decide)
  all_goals decide

theorem utf8_number {text : List Char} (number : Number text) : utf8 (numberPiece text).text :=
  utf8_of_ascii (number_ascii number)

theorem utf8_range {low high : List Char} (first : Number low) (second : Number high) :
    utf8 (rangePiece low high).text := by
  apply utf8_of_ascii
  have front := number_ascii first
  have back := number_ascii second
  simp only [Ascii, rangePiece, List.forall_mem_cons, List.forall_mem_append] at front back ⊢
  exact ⟨by decide, ⟨front, by decide, by decide, back⟩, by decide, nofun⟩

theorem utf8_quoted (s : List Char) : utf8 (quoted s) ↔ utf8 s := by
  have quote : '"'.toNat < 0x80 := by decide
  have opening := utf8_ascii quote [] (s ++ ['"'])
  have closing := utf8_ascii quote s []
  have none : utf8 [] := rfl
  rw [List.nil_append] at opening
  rw [quoted, opening, closing]
  simp only [none, true_and, and_true]

theorem utf8_commaLines (lines : List (List Char)) (rest : List Char) :
    utf8 (commaLines lines ++ rest) ↔ (∀ line ∈ lines, utf8 line) ∧ utf8 rest := by
  have newline : '\n'.toNat < 0x80 := by decide
  have comma : ','.toNat < 0x80 := by decide
  induction lines with
  | nil => simp [commaLines]
  | cons line lines ih =>
    rw [List.forall_mem_cons]
    cases lines with
    | nil => simp [commaLines, utf8_ascii newline]
    | cons next lines =>
      have split : commaLines (line :: next :: lines) ++ rest =
          line ++ ',' :: ([] ++ '\n' :: (commaLines (next :: lines) ++ rest)) := by simp [commaLines]
      have none : utf8 [] := rfl
      rw [split, utf8_ascii comma, utf8_ascii newline]
      simp only [none, true_and, ih, and_assoc]

section Bytes
variable {gap close : List Char} (gap_blank : ∀ c ∈ gap, isBlank c = true) (close_blank : ∀ c ∈ close, isBlank c = true)
include gap_blank

theorem utf8_memberText {key : List Char} (ascii : Ascii key) (p : Piece) :
    utf8 (memberText gap (key, p)) ↔ utf8 p.text := by
  have front : Ascii (gap ++ quoted key ++ [':', ' ']) := by
    have blank := blank_ascii gap_blank
    simp only [Ascii, quoted, List.forall_mem_cons, List.forall_mem_append] at blank ascii ⊢
    exact ⟨⟨blank, by decide, ascii, by decide, nofun⟩, by decide, by decide, nofun⟩
  have split : memberText gap (key, p) = gap ++ quoted key ++ [':', ' '] ++ p.text := by
    simp only [memberText, List.append_assoc, List.cons_append, List.nil_append]
  rw [split, utf8_front front]

include close_blank

theorem utf8_object {members : List (List Char × Piece)} (ascii : ∀ member ∈ members, Ascii member.1) :
    utf8 (objectPiece gap close members).text ↔ ∀ member ∈ members, utf8 member.2.text := by
  have front : Ascii ['\x7b', '\n'] := by simp [Ascii]
  have ends : utf8 (close ++ ['\x7d']) :=
    utf8_of_ascii (List.forall_mem_append.mpr ⟨blank_ascii close_blank, by simp⟩)
  have split : (objectPiece gap close members).text =
      ['\x7b', '\n'] ++ (commaLines (members.map (memberText gap)) ++ (close ++ ['\x7d'])) := by
    simp only [objectPiece, List.append_assoc, List.cons_append, List.nil_append]
  rw [split, utf8_front front, utf8_commaLines, List.forall_mem_map, and_iff_left ends]
  exact forall₂_congr fun member among => utf8_memberText gap_blank (ascii member among) member.2

theorem utf8_array (items : List Piece) :
    utf8 (arrayPiece gap close items).text ↔ ∀ item ∈ items, utf8 item.text := by
  have front : Ascii ['[', '\n'] := by simp [Ascii]
  have ends : utf8 (close ++ [']']) :=
    utf8_of_ascii (List.forall_mem_append.mpr ⟨blank_ascii close_blank, by simp⟩)
  have split : (arrayPiece gap close items).text =
      ['[', '\n'] ++ (commaLines (items.map (fun item => gap ++ item.text)) ++ (close ++ [']'])) := by
    simp only [arrayPiece, List.append_assoc, List.cons_append, List.nil_append]
  rw [split, utf8_front front, utf8_commaLines, List.forall_mem_map, and_iff_left ends]
  exact forall₂_congr fun item _ => utf8_front (blank_ascii gap_blank) item.text

end Bytes

end Json
