import ServMark.Library.JsonLines

/-! JSON objects in one line, with strings and numbers as members. A string is printed as it is. -/
namespace Json
open CText

inductive Scalar where
  | string (s : List Char)
  | number (text : List Char)

def Scalar.text : Scalar → List Char
  | string s => quoted s
  | number text => text

def Scalar.value : Scalar → Value
  | string s => .string s
  | number text => .number text

/-- Strings that need no escapes, and numbers. -/
def Scalar.Good : Scalar → Prop
  | string s => Plain s
  | number text => Number text

def shortMember (member : List Char × Scalar) : List Char := quoted member.1 ++ ':' :: member.2.text

/-- Members with a comma between them. -/
def commas : List (List Char × Scalar) → List Char
  | [] => []
  | [member] => shortMember member
  | member :: next :: members => shortMember member ++ ',' :: commas (next :: members)

def compactText (members : List (List Char × Scalar)) : List Char := '\x7b' :: (commas members ++ ['\x7d'])

def compactValue (members : List (List Char × Scalar)) : Value :=
  .object (members.map (fun member => (member.1, member.2.value)))

/-- What follows a member. -/
def MemberEnd (rest : List Char) : Prop := ∃ t, rest = ',' :: t ∨ rest = '\x7d' :: t

theorem memberEnd_stops {rest : List Char} (ends : MemberEnd rest) : ∀ c ∈ rest.head?, numeric c = false := by
  obtain ⟨t, rfl | rfl⟩ := ends <;> rintro c ⟨⟩ <;> decide

theorem scalar_read {v : Scalar} (good : v.Good) {rest : List Char} (ends : MemberEnd rest) :
    Reads (v.text ++ rest) v.value rest := by
  cases v with
  | string s =>
    have here : token (quoted s ++ rest) = '"' :: (s ++ '"' :: rest) := by
      rw [quoted, List.cons_append, List.append_assoc, token_solid (by decide)]
      rfl
    exact .string here (plain_chars good rest)
  | number text => exact .number (number_solid good rest) good (memberEnd_stops ends)

theorem scalar_only {v : Scalar} (good : v.Good) {rest left : List Char} (ends : MemberEnd rest) {w : Value}
    (read : Reads (v.text ++ rest) w left) : w = v.value ∧ left = rest := by
  cases v with
  | string s =>
    have here : token (quoted s ++ rest) = '"' :: (s ++ '"' :: rest) := by
      rw [quoted, List.cons_append, List.append_assoc, token_solid (by decide)]
      rfl
    obtain ⟨d, rfl, chars⟩ := reads_string here read
    obtain ⟨rfl, rfl⟩ := chars_plain good chars
    exact ⟨rfl, rfl⟩
  | number text => exact reads_number (number_solid good rest) good (memberEnd_stops ends) read

section Member
variable {key : List Char} {v : Scalar} {rest : List Char}

theorem shortMember_token : token (shortMember (key, v) ++ rest) = '"' :: (key ++ '"' :: ':' :: (v.text ++ rest)) := by
  have split : shortMember (key, v) ++ rest = '"' :: (key ++ '"' :: ':' :: (v.text ++ rest)) := by
    simp only [shortMember, quoted, List.append_assoc, List.cons_append, List.nil_append]
  rw [split, token_solid (by decide)]

theorem shortMember_only {inner key' after text behind : List Char} {w : Value} (plain : Plain key) (good : v.Good)
    (ends : MemberEnd rest) (here : token (shortMember (key, v) ++ rest) = '"' :: inner)
    (chars : Chars inner key' after) (colon : token after = ':' :: text) (read : Reads text w behind) :
    key' = key ∧ w = v.value ∧ behind = rest := by
  rw [shortMember_token] at here
  obtain ⟨_, rfl⟩ := List.cons.inj here
  obtain ⟨rfl, rfl⟩ := chars_plain plain chars
  rw [token_solid (by decide)] at colon
  obtain ⟨_, rfl⟩ := List.cons.inj colon
  exact ⟨rfl, scalar_only good ends read⟩

end Member

section Members
variable {members : List (List Char × Scalar)} (some_ : members ≠ [])
    (good : ∀ member ∈ members, Plain member.1 ∧ member.2.Good) (rest : List Char)
include some_ good

theorem commas_read : ReadsMembers (commas members ++ '\x7d' :: rest)
    (members.map (fun member => (member.1, member.2.value))) rest := by
  induction members with
  | nil => exact absurd rfl some_
  | cons member members ih =>
    obtain ⟨key, v⟩ := member
    obtain ⟨⟨plain, own⟩, others⟩ := List.forall_mem_cons.mp good
    cases members with
    | nil =>
      have ends : MemberEnd ('\x7d' :: rest) := ⟨rest, Or.inr rfl⟩
      exact .last shortMember_token (plain_chars plain _) (token_solid (by decide) _) (scalar_read own ends)
        (token_solid (by decide) _)
    | cons next members =>
      have ends : MemberEnd (',' :: (commas (next :: members) ++ '\x7d' :: rest)) := ⟨_, Or.inl rfl⟩
      have whole : commas ((key, v) :: next :: members) ++ '\x7d' :: rest =
          shortMember (key, v) ++ ',' :: (commas (next :: members) ++ '\x7d' :: rest) := by simp [commas]
      rw [whole]
      exact .more shortMember_token (plain_chars plain _) (token_solid (by decide) _) (scalar_read own ends)
        (token_solid (by decide) _) (ih (by simp) others)

theorem commas_only {read : List (List Char × Value)} {left : List Char}
    (reads : ReadsMembers (commas members ++ '\x7d' :: rest) read left) :
    read = members.map (fun member => (member.1, member.2.value)) ∧ left = rest := by
  induction members generalizing read with
  | nil => exact absurd rfl some_
  | cons member members ih =>
    obtain ⟨key, v⟩ := member
    obtain ⟨⟨plain, own⟩, others⟩ := List.forall_mem_cons.mp good
    cases members with
    | nil =>
      have ends : MemberEnd ('\x7d' :: rest) := ⟨rest, Or.inr rfl⟩
      have closing : token ('\x7d' :: rest) = '\x7d' :: rest := token_solid (by decide) rest
      cases reads with
      | last here chars colon value closed =>
        obtain ⟨rfl, rfl, rfl⟩ := shortMember_only plain own ends here chars colon value
        rw [closing] at closed
        exact ⟨rfl, (List.cons.inj closed).2.symm⟩
      | more here chars colon value comma later =>
        obtain ⟨rfl, rfl, rfl⟩ := shortMember_only plain own ends here chars colon value
        rw [closing] at comma
        exact absurd (List.cons.inj comma).1 (by decide)
    | cons next members =>
      let behind := commas (next :: members) ++ '\x7d' :: rest
      have ends : MemberEnd (',' :: behind) := ⟨_, Or.inl rfl⟩
      have comma_token : token (',' :: behind) = ',' :: behind := token_solid (by decide) behind
      have whole : commas ((key, v) :: next :: members) ++ '\x7d' :: rest = shortMember (key, v) ++ ',' :: behind := by
        simp [commas, behind]
      rw [whole] at reads
      cases reads with
      | last here chars colon value closed =>
        obtain ⟨rfl, rfl, rfl⟩ := shortMember_only plain own ends here chars colon value
        rw [comma_token] at closed
        exact absurd (List.cons.inj closed).1 (by decide)
      | more here chars colon value comma later =>
        obtain ⟨rfl, rfl, rfl⟩ := shortMember_only plain own ends here chars colon value
        rw [comma_token] at comma
        obtain ⟨_, rfl⟩ := List.cons.inj comma
        obtain ⟨rfl, rfl⟩ := ih (by simp) others later
        exact ⟨rfl, rfl⟩

theorem compact_read : Reads (compactText members ++ rest) (compactValue members) rest := by
  have here : token (compactText members ++ rest) = '\x7b' :: (commas members ++ '\x7d' :: rest) := by
    rw [compactText, List.cons_append, List.append_assoc, token_solid (by decide)]
    rfl
  exact .object here (commas_read some_ good rest)

/-- The text of an object in one line has no other reading. -/
theorem compact_only {v : Value} {left : List Char} (read : Reads (compactText members ++ rest) v left) :
    v = compactValue members ∧ left = rest := by
  have here : token (compactText members ++ rest) = '\x7b' :: (commas members ++ '\x7d' :: rest) := by
    rw [compactText, List.cons_append, List.append_assoc, token_solid (by decide)]
    rfl
  obtain ⟨rfl, ends⟩ | ⟨fields, rfl, reads⟩ := reads_object here read
  · obtain ⟨member, others, rfl⟩ := List.exists_cons_of_ne_nil some_
    have first : ∃ inner, token (commas (member :: others) ++ '\x7d' :: rest) = '"' :: inner := by
      cases others with
      | nil => exact ⟨_, shortMember_token⟩
      | cons next others =>
        have whole : commas (member :: next :: others) ++ '\x7d' :: rest =
            shortMember member ++ ',' :: (commas (next :: others) ++ '\x7d' :: rest) := by simp [commas]
        rw [whole]
        exact ⟨_, shortMember_token⟩
    obtain ⟨inner, first⟩ := first
    rw [first] at ends
    exact absurd (List.cons.inj ends).1 (by decide)
  · obtain ⟨rfl, rfl⟩ := commas_only some_ good rest reads
    exact ⟨rfl, rfl⟩

end Members

def Scalar.Bytes : Scalar → Prop
  | string s => utf8 s
  | number _ => True

theorem utf8_scalar {v : Scalar} (good : v.Good) : utf8 v.text ↔ v.Bytes := by
  cases v with
  | string s => exact utf8_quoted s
  | number text => exact iff_of_true (utf8_of_ascii (number_ascii good)) trivial

theorem utf8_commas {members : List (List Char × Scalar)} (keys : ∀ member ∈ members, Ascii member.1)
    (good : ∀ member ∈ members, member.2.Good) :
    utf8 (commas members) ↔ ∀ member ∈ members, member.2.Bytes := by
  have one {member : List Char × Scalar} (key : Ascii member.1) (own : member.2.Good) :
      utf8 (shortMember member) ↔ member.2.Bytes := by
    have front : Ascii (quoted member.1 ++ [':']) := by
      simp only [Ascii, quoted, List.forall_mem_cons, List.forall_mem_append] at key ⊢
      exact ⟨⟨by decide, key, by decide, List.forall_mem_nil _⟩, by decide, List.forall_mem_nil _⟩
    have split : shortMember member = quoted member.1 ++ [':'] ++ member.2.text := by
      simp only [shortMember, List.append_assoc, List.cons_append, List.nil_append]
    rw [split, utf8_front front, utf8_scalar own]
  induction members with
  | nil => exact iff_of_true rfl (List.forall_mem_nil _)
  | cons member members ih =>
    obtain ⟨key, keys⟩ := List.forall_mem_cons.mp keys
    obtain ⟨own, good⟩ := List.forall_mem_cons.mp good
    cases members with
    | nil =>
      rw [commas, one key own]
      simp
    | cons next members =>
      rw [commas, utf8_ascii (by decide), List.forall_mem_cons]
      exact and_congr (one key own) (ih keys good)

theorem utf8_compact {members : List (List Char × Scalar)} (keys : ∀ member ∈ members, Ascii member.1)
    (good : ∀ member ∈ members, member.2.Good ∧ member.2.Bytes) : utf8 (compactText members) := by
  have inner := (utf8_commas keys (fun member among => (good member among).1)).mpr
    (fun member among => (good member among).2)
  have closing := utf8_ascii (show '\x7d'.toNat < 0x80 by decide) (commas members) []
  have opening := @utf8_front ['\x7b'] (by simp) (commas members ++ ['\x7d'])
  exact opening.mpr (closing.mpr ⟨inner, rfl⟩)

/-- An object in one line as an item of a text in lines. -/
def compactPiece (members : List (List Char × Scalar)) : Piece :=
  ⟨compactText members, compactValue members, True, fun _ => False⟩

theorem compactPiece_sound {members : List (List Char × Scalar)} (some_ : members ≠ [])
    (good : ∀ member ∈ members, Plain member.1 ∧ member.2.Good) : (compactPiece members).Sound where
  read _ rest _ := compact_read some_ good rest
  only rest _ _ _ read := Or.inl ⟨trivial, compact_only some_ good rest read⟩

end Json
