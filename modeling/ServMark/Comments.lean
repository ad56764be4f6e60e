import ServMark.Config

/-! Comments in the configuration file. parse_config skips a line that starts with '#' and
knows no other comment: behind a value the text belongs to the value. A number is read up to
it, a string keeps it. -/
namespace ServMark
open CText

/-- A comment behind a value, as the value keeps it. -/
def remark (text : List Char) : List Char := trim ('#' :: cString text)

theorem remark_eq (text : List Char) : remark text = '#' :: (cString text).rdropWhile isspace :=
  strip_split (show isspace '#' = false by decide) [] (cString text)

theorem trim_trim (s : List Char) : trim (trim s) = trim s :=
  (strip_rdropWhile (s.dropWhile isspace)).trans (strip_dropWhile s)

theorem trim_comment {s gap : List Char} (blanks : ∀ c ∈ gap, isspace c = true) (text : List Char) :
    ∃ space, (∀ c ∈ space, isspace c = true) ∧ (trim s = [] → space = []) ∧
      trim (s ++ gap ++ '#' :: text) = trim s ++ space ++ trim ('#' :: text) := by
  obtain ⟨left, right, eq, lead, tail⟩ := @strip_ends isspace s
  have solid : isspace '#' = false := by decide
  have blank : ∀ c ∈ right ++ gap, isspace c = true := fun c member =>
    (List.mem_append.mp member).elim (tail c) (blanks c)
  have whole : s ++ gap = left ++ (trim s ++ (right ++ gap)) := by
    conv_lhs => rw [eq]
    simp only [List.append_assoc, trim]
  have comment : trim ('#' :: text) = '#' :: text.rdropWhile isspace := strip_split solid [] text
  have read : trim (s ++ gap ++ '#' :: text) = (trim s ++ (right ++ gap)).dropWhile isspace ++ trim ('#' :: text) := by
    rw [trim, strip_split solid, whole, List.dropWhile_append_of_pos lead, comment]
  rcases eq_or_ne (trim s) [] with none | some_
  · refine ⟨[], by simp, fun _ => rfl, ?_⟩
    rw [read, none, List.nil_append, List.dropWhile_eq_nil_iff.mpr blank]
    rfl
  · have head : ∀ c ∈ (trim s).head?, isspace c = false := strip_head s
    refine ⟨right ++ gap, blank, fun none => absurd none some_, ?_⟩
    rw [read, dropWhile_solid head some_]

/-- What the value of a line becomes when blanks and a comment follow it. -/
theorem keyValue_comment {line blanks : List Char} {key : String} {value : List Char}
    (entry : keyValue line = some (key, value)) (whole : Char.ofNat 0 ∉ line)
    (spaces : ∀ c ∈ blanks, isspace c = true) (text : List Char) :
    ∃ gap, (∀ c ∈ gap, isspace c = true) ∧ (value = [] → gap = []) ∧
      keyValue (line ++ blanks ++ '#' :: text) = some (key, value ++ gap ++ remark text) := by
  have line_whole : cString line = line := cString_eq (fun c member eq => whole (eq ▸ member))
  have read : cString (line ++ blanks ++ '#' :: text) = line ++ blanks ++ '#' :: cString text := by
    unfold cString
    rw [List.takeWhile_append_of_pos, List.takeWhile_cons_of_pos (by decide)]
    intro c member
    rcases List.mem_append.mp member with inner | blank
    · exact decide_eq_true (fun eq => whole (eq ▸ inner))
    · refine decide_eq_true (fun eq => ?_)
      have space := spaces c blank
      rw [eq] at space
      exact absurd space (by decide)
  unfold keyValue at entry ⊢
  rw [line_whole] at entry
  rw [read]
  dsimp only at entry ⊢
  split at entry
  · cases entry
  · rename_i goes
    obtain ⟨⟨before, after⟩, found, eq⟩ := Option.map_eq_some_iff.mp entry
    cases eq
    obtain ⟨split, absent⟩ := strchr_split found
    have some_ : trim line ≠ [] := fun none => goes (Or.inr none)
    obtain ⟨space, blank, _, longer⟩ := @trim_comment line blanks spaces (cString text)
    obtain ⟨gap, gap_blank, none, valued⟩ :=
      @trim_comment after space blank ((cString text).rdropWhile isspace)
    have comment : trim ('#' :: cString text) = '#' :: (cString text).rdropWhile isspace := remark_eq text
    have again : trim ('#' :: (cString text).rdropWhile isspace) = remark text := by
      rw [← comment, trim_trim, remark]
    rw [again] at valued
    have parts : trim line ++ space ++ trim ('#' :: cString text) =
        before ++ '=' :: (after ++ space ++ '#' :: (cString text).rdropWhile isspace) := by
      rw [split, comment]
      simp only [List.append_assoc, List.cons_append]
    refine ⟨gap, gap_blank, none, ?_⟩
    rw [longer]
    have goes' : ¬ ((trim line ++ space ++ trim ('#' :: cString text)).head? = some '#' ∨
        trim line ++ space ++ trim ('#' :: cString text) = []) := by
      rintro (first | nothing)
      · rw [List.append_assoc, List.head?_append_of_ne_nil _ some_] at first
        exact goes (Or.inl first)
      · simp only [List.append_eq_nil_iff] at nothing
        exact some_ nothing.1.1
    rw [if_neg goes', parts, strchr_append absent, Option.map_some, valued]

/-- The settings that depend on the whole value: the strings it is copied into, and the mode. -/
inductive Slot where
  | mode | outputDir | category | cpuPin | numaTopo | membind
  deriving DecidableEq, Repr

def slotOf (key : String) : Option Slot :=
  if key = "runmode" then some .mode
  else if key = "output_dir" then some .outputDir
  else if key = "category" then some .category
  else if key = "cpu_pin" then some .cpuPin
  else if key = "numa_bind" ∨ key = "numa_topo" then some .numaTopo
  else if key = "membind" then some .membind
  else none

def Slot.write (value : List Char) (c : RunConfig) : Slot → RunConfig
  | mode => { c with mode := if value = "sustained".toList then .sustained else .peak }
  | outputDir => { c with outputDir := String.ofList value }
  | category => if value = [] then c else { c with categoryFilter := some (String.ofList value) }
  | cpuPin => { c with cpuPinSpec := some (String.ofList value) }
  | numaTopo => { c with numaTopoSpec := some (String.ofList value) }
  | membind => { c with membindSpec := some (String.ofList value) }

/-- A line that gives the setting another value. -/
def resets (s : Slot) (line : List Char) : Bool :=
  match keyValue line with
  | none => false
  | some (key, value) => decide (slotOf key = some s ∧ ¬ (s = .category ∧ value = []))

theorem slotOf_cases {key : String} {s : Slot} (own : slotOf key = some s) :
    (key = "runmode" ∧ s = .mode) ∨ (key = "output_dir" ∧ s = .outputDir) ∨ (key = "category" ∧ s = .category) ∨
      (key = "cpu_pin" ∧ s = .cpuPin) ∨ ((key = "numa_bind" ∨ key = "numa_topo") ∧ s = .numaTopo) ∨
      (key = "membind" ∧ s = .membind) := by
  unfold slotOf at own
  split_ifs at own <;> cases own <;> simp [*]

theorem slotOf_none {key : String} (own : slotOf key = none) :
    key ≠ "runmode" ∧ key ≠ "output_dir" ∧ key ≠ "category" ∧ key ≠ "cpu_pin" ∧
      ¬ (key = "numa_bind" ∨ key = "numa_topo") ∧ key ≠ "membind" := by
  unfold slotOf at own
  split_ifs at own
  simp [*]

theorem assignSetting_write {key : String} {s : Slot} (own : slotOf key = some s) (c : RunConfig)
    (value : List Char) : assignSetting c key value = s.write value c := by
  rcases slotOf_cases own with ⟨rfl, rfl⟩ | ⟨rfl, rfl⟩ | ⟨rfl, rfl⟩ | ⟨rfl, rfl⟩ | ⟨rfl | rfl, rfl⟩ | ⟨rfl, rfl⟩ <;> rfl

theorem write_other {s : Slot} {other : String} (free : slotOf other ≠ some s) (c : RunConfig)
    (value later : List Char) :
    assignSetting (s.write value c) other later = s.write value (assignSetting c other later) := by
  cases s with
  | mode =>
    have key : other ≠ "runmode" := fun eq => free (by rw [eq]; rfl)
    simp only [assignSetting, key, if_false, apply_ite (Slot.write value · .mode)]
    rfl
  | outputDir =>
    have key : other ≠ "output_dir" := fun eq => free (by rw [eq]; rfl)
    simp only [assignSetting, key, if_false, apply_ite (Slot.write value · .outputDir)]
    rfl
  | category =>
    have key : other ≠ "category" := fun eq => free (by rw [eq]; rfl)
    rcases eq_or_ne value [] with rfl | some_
    · rfl
    · let w : RunConfig → RunConfig := fun c => { c with categoryFilter := some (String.ofList value) }
      have write : ∀ c, Slot.category.write value c = w c := fun c => if_neg some_
      rw [write, write]
      simp only [assignSetting, key, if_false, apply_ite w]
      rfl
  | cpuPin =>
    have key : other ≠ "cpu_pin" := fun eq => free (by rw [eq]; rfl)
    simp only [assignSetting, key, if_false, apply_ite (Slot.write value · .cpuPin)]
    rfl
  | numaTopo =>
    have key : ¬ (other = "numa_bind" ∨ other = "numa_topo") := by
      rintro (rfl | rfl) <;> exact free rfl
    simp only [assignSetting, key, if_false, apply_ite (Slot.write value · .numaTopo)]
    rfl
  | membind =>
    have key : other ≠ "membind" := fun eq => free (by rw [eq]; rfl)
    simp only [assignSetting, key, if_false, apply_ite (Slot.write value · .membind)]
    rfl

theorem write_again {s : Slot} {value later : List Char} (counts : ¬ (s = .category ∧ later = []))
    (c : RunConfig) : s.write later (s.write value c) = s.write later c := by
  cases s with
  | category =>
    have some_ : later ≠ [] := fun eq => counts ⟨rfl, eq⟩
    simp only [Slot.write, some_, if_false]
    split <;> rfl
  | _ => rfl

/-- A line either overwrites the setting or leaves it to stand. -/
theorem parseLine_write (s : Slot) (value : List Char) (st : ConfigState) (line : List Char) :
    parseLine { st with config := s.write value st.config } line =
      if resets s line then parseLine st line
      else { parseLine st line with config := s.write value (parseLine st line).config } := by
  unfold parseLine resets
  cases keyValue line with
  | none => rfl
  | some pair =>
    obtain ⟨key, later⟩ := pair
    simp only [decide_eq_true_eq, assignKey]
    rcases eq_or_ne key "benchmark" with rfl | other
    · have none : slotOf "benchmark" = none := rfl
      have free : ¬ (slotOf "benchmark" = some s ∧ ¬ (s = .category ∧ later = [])) := fun own =>
        Option.some_ne_none s (own.1.symm.trans none)
      simp only [if_true, if_neg free]
      cases benchName later <;> rfl
    · simp only [other, if_false]
      rcases eq_or_ne (slotOf key) (some s) with own | free
      · rw [assignSetting_write own, assignSetting_write own]
        split
        · rename_i resets
          rw [write_again resets.2]
        · rename_i stays
          have empty : s = .category ∧ later = [] := by
            by_contra full
            exact stays ⟨own, full⟩
          rw [empty.1, empty.2]
          rfl
      · rw [if_neg (fun resets => free resets.1), write_other free]

theorem foldl_write (s : Slot) (value : List Char) (lines : List (List Char)) (st : ConfigState) :
    lines.foldl parseLine { st with config := s.write value st.config } =
      if lines.any (resets s) then lines.foldl parseLine st
      else { lines.foldl parseLine st with config := s.write value (lines.foldl parseLine st).config } := by
  induction lines generalizing st with
  | nil => rfl
  | cons line lines ih =>
    rw [List.foldl_cons, parseLine_write, List.any_cons, List.foldl_cons]
    cases resets s line with
    | true => rfl
    | false => exact ih (parseLine st line)

theorem parseLine_category {line : List Char} (stays : resets .category line = false) (st : ConfigState) :
    (parseLine st line).config.categoryFilter = st.config.categoryFilter := by
  unfold resets at stays
  unfold parseLine
  cases entry : keyValue line with
  | none => rfl
  | some pair =>
    obtain ⟨key, value⟩ := pair
    simp only [entry, decide_eq_false_iff_not, true_and] at stays
    simp only [assignKey]
    rcases eq_or_ne key "benchmark" with rfl | other
    · simp only [if_true]
      cases benchName value <;> rfl
    · simp only [other, if_false]
      rcases eq_or_ne key "category" with rfl | free
      · have empty : value = [] := by
          by_contra some_
          exact stays ⟨rfl, some_⟩
        rw [empty]
        rfl
      · simp only [assignSetting, free, if_false, apply_ite RunConfig.categoryFilter, ite_self]

theorem foldl_category {lines : List (List Char)} (stays : lines.any (resets .category) = false) (st : ConfigState) :
    (lines.foldl parseLine st).config.categoryFilter = st.config.categoryFilter := by
  induction lines generalizing st with
  | nil => rfl
  | cons line lines ih =>
    simp only [List.any_cons, Bool.or_eq_false_iff] at stays
    rw [List.foldl_cons, ih stays.2, parseLine_category stays.1]

theorem write_comment {value gap : List Char} (free : '#' ∉ value) (bare : value = [] → gap = []) (text : List Char)
    (s : Slot) (c : RunConfig) :
    s.write (value ++ gap ++ remark text) c = s.write value c ↔
      (s = .mode ∧ value ≠ "sustained".toList) ∨
        (s = .category ∧ value = [] ∧ c.categoryFilter = some (String.ofList (remark text))) := by
  have hash : '#' ∈ value ++ gap ++ remark text := by simp [remark_eq]
  have some_ : value ++ gap ++ remark text ≠ [] := List.ne_nil_of_mem hash
  have longer : value ++ gap ++ remark text ≠ value := fun eq => free (eq ▸ hash)
  have other : String.ofList (value ++ gap ++ remark text) ≠ String.ofList value := fun eq =>
    longer (String.ofList_injective eq)
  cases s with
  | mode =>
    have peak : value ++ gap ++ remark text ≠ "sustained".toList := by
      intro eq
      rw [eq] at hash
      exact absurd hash (by decide)
    simp only [Slot.write, peak, if_false]
    constructor
    · intro same
      refine Or.inl ⟨trivial, fun sustained => ?_⟩
      have modes := congrArg RunConfig.mode same
      simp [sustained] at modes
    · rintro (⟨_, mode⟩ | ⟨none, _⟩)
      · rw [if_neg mode]
      · cases none
  | category =>
    rcases eq_or_ne value [] with rfl | full
    · have read : [] ++ gap ++ remark text = remark text := by rw [bare rfl]; rfl
      rw [read] at some_ ⊢
      simp only [Slot.write, some_, if_false, if_true]
      constructor
      · exact fun same => Or.inr ⟨trivial, trivial, (congrArg RunConfig.categoryFilter same).symm⟩
      · rintro (⟨none, _⟩ | ⟨_, _, same⟩)
        · cases none
        · rw [← same]
    · generalize value ++ gap ++ remark text = read at some_ other
      simp [Slot.write, some_, full, other]
  | _ =>
    generalize value ++ gap ++ remark text = read at other
    simp [Slot.write, other]

theorem isspace_spelling {c : Char} (blank : isspace c = true) : spelling c = false := by
  cases own : spelling c with
  | false => rfl
  | true =>
    simp only [spelling, Bool.or_eq_true, beq_iff_eq] at own
    rcases own with ((letter | rfl) | rfl) | rfl
    · exact absurd blank (by simp [isspace_alphanum letter])
    all_goals exact absurd blank (by decide)

section Value
variable {value gap : List Char} (head : ∀ c ∈ value.head?, isspace c = false)
    (blank : ∀ c ∈ gap, isspace c = true) (bare : value = [] → gap = []) (text : List Char)
include head blank bare

theorem number_comment : atoi (value ++ gap ++ remark text) = atoi value ∧
    atof (value ++ gap ++ remark text) = atof value := by
  have stops : ∀ c ∈ (gap ++ remark text).head?, spelling c = false := by
    rw [remark_eq]
    intro c first
    cases gap with
    | nil =>
      cases first
      decide
    | cons x gap =>
      cases first
      exact isspace_spelling (blank _ List.mem_cons_self)
  have skips : (value ++ (gap ++ remark text)).dropWhile isspace =
      value.dropWhile isspace ++ (gap ++ remark text) := by
    rcases eq_or_ne value [] with rfl | some_
    · rw [bare rfl, remark_eq]
      rfl
    · have own := dropWhile_solid head some_ []
      rw [List.append_nil] at own
      rw [dropWhile_solid head some_, own]
  rw [List.append_assoc]
  exact ⟨atoi_append (fun c first => spelling_numeric (stops c first)) skips, atof_append stops skips⟩

/-- A comment behind a number is not part of the setting. -/
theorem assignSetting_comment {key : String} (number : slotOf key = none) (c : RunConfig) :
    assignSetting c key (value ++ gap ++ remark text) = assignSetting c key value := by
  obtain ⟨whole, decimal⟩ := number_comment head blank bare text
  obtain ⟨runmode, output, category, pin, topo, membind⟩ := slotOf_none number
  simp only [assignSetting, whole, decimal, runmode, output, category, pin, topo, membind, if_false]

end Value

theorem benchName_skip {before : List Char} (absent : ':' ∉ before) (s : List Char) :
    benchName (before ++ s) = benchName s := by
  by_cases colon : ':' ∈ s
  · obtain ⟨front, back, rfl, first⟩ := List.eq_append_cons_of_mem colon
    have both : ':' ∉ before ++ front := fun member => (List.mem_append.mp member).elim absent first
    rw [← List.append_assoc]
    unfold benchName
    simp only [strchr_append both, strchr_append first]
  · have both : ':' ∉ before ++ s := fun member => (List.mem_append.mp member).elim absent colon
    rw [benchName_none both, benchName_none colon]

theorem benchName_rdropWhile (s : List Char) : benchName (s.rdropWhile isspace) = benchName s := by
  by_cases colon : ':' ∈ s
  · obtain ⟨front, back, rfl, first⟩ := List.eq_append_cons_of_mem colon
    rw [rdropWhile_split (show isspace ':' = false by decide)]
    unfold benchName
    simp only [strchr_append first, trim, strip_rdropWhile]
  · have absent : ':' ∉ s.rdropWhile isspace := fun member => colon ((List.rdropWhile_prefix _ _).subset member)
    rw [benchName_none absent, benchName_none colon]

theorem benchName_some {value : List Char} (colon : ':' ∈ value) : ∃ name, benchName value = some name := by
  obtain ⟨first, behind, rfl, absent⟩ := List.eq_append_cons_of_mem colon
  unfold benchName
  exact ⟨_, by rw [strchr_append absent]⟩

/-- The name in a value with one colon ends where the value does. -/
theorem benchName_last {first name : List Char} (one : ':' ∉ first) (two : ':' ∉ name) :
    benchName (first ++ ':' :: name) = some (trim name) := by
  have absent : ':' ∉ trim name := fun member =>
    two ((List.dropWhile_sublist _).mem ((List.rdropWhile_prefix _ _).subset member))
  unfold benchName
  simp only [strchr_append one, strchr_none absent, trim_trim]

section Names
variable {gap : List Char} (blank : ∀ c ∈ gap, isspace c = true) (text : List Char)
include blank

theorem gap_colon : ':' ∉ gap := fun member => absurd (blank _ member) (by decide)

/-- Behind a value without colon the comment is searched for the fields. -/
theorem benchName_comment {value : List Char} (absent : ':' ∉ value) :
    benchName (value ++ gap ++ remark text) = benchName (cString text) := by
  have hash : ':' ∉ ['#'] := by decide
  rw [remark_eq, benchName_skip, ← List.singleton_append, benchName_skip hash, benchName_rdropWhile]
  exact fun member => (List.mem_append.mp member).elim absent (gap_colon blank)

/-- Behind a value with one colon the comment belongs to the name. -/
theorem benchName_longer {first name : List Char} (one : ':' ∉ first) (two : ':' ∉ name) :
    ∃ longer, benchName (first ++ ':' :: name ++ gap ++ remark text) = some longer ∧ '#' ∈ longer := by
  have solid : isspace '#' = false := by decide
  have inner : ':' ∉ name ++ gap := fun member => (List.mem_append.mp member).elim two (gap_colon blank)
  have split : first ++ ':' :: name ++ gap ++ remark text =
      first ++ ':' :: (name ++ gap ++ '#' :: (cString text).rdropWhile isspace) := by
    simp only [remark_eq, List.append_assoc, List.cons_append]
  rw [split]
  generalize (cString text).rdropWhile isspace = comment
  by_cases colon : ':' ∈ comment
  · obtain ⟨front, back, rfl, absent⟩ := List.eq_append_cons_of_mem colon
    have field : ':' ∉ name ++ gap ++ '#' :: front := by
      simp only [List.mem_append, List.mem_cons, not_or] at inner ⊢
      exact ⟨inner, by decide, absent⟩
    have parts : first ++ ':' :: (name ++ gap ++ '#' :: (front ++ ':' :: back)) =
        first ++ ':' :: (name ++ gap ++ '#' :: front ++ ':' :: back) := by
      simp only [List.append_assoc, List.cons_append]
    refine ⟨trim (name ++ gap ++ '#' :: front), ?_, ?_⟩
    · rw [parts, benchName_fields one field]
    · rw [trim, strip_split solid]
      exact List.mem_append_right _ List.mem_cons_self
  · have field : ':' ∉ name ++ gap ++ '#' :: comment := by
      simp only [List.mem_append, List.mem_cons, not_or] at inner ⊢
      exact ⟨inner, by decide, colon⟩
    refine ⟨trim (name ++ gap ++ '#' :: comment), benchName_last one field, ?_⟩
    rw [trim, strip_split solid]
    exact List.mem_append_right _ List.mem_cons_self

end Names

/-- The comment reaches no setting and no name, whatever else the file holds. -/
def Inert (key : String) (value text : List Char) : Prop :=
  (key = "benchmark" → 2 ≤ value.count ':' ∨ ':' ∉ value ++ cString text) ∧
    ∀ s, slotOf key = some s → s = .mode ∧ value ≠ "sustained".toList

/-- The comment makes no difference in this file: a later line gives the setting again, the
category was already the text of the comment, or the list of names has no room for another. -/
def Hidden (before : ConfigState) (key : String) (value text : List Char) (later : List (List Char)) : Prop :=
  (key = "benchmark" ∧ ∀ i, before.benchFilter.length + i < maxBenchFilter →
    ':' ∉ value ∧ (later.filterMap filterEntry)[i]? = (benchName (cString text)).map String.ofList) ∨
  ∃ s, slotOf key = some s ∧ (later.any (resets s) = true ∨
    (s = .category ∧ value = [] ∧ before.config.categoryFilter = some (String.ofList (remark text))))

/-- A line that fits the buffer is read by itself, with its newline where it has one. -/
theorem parseConfig_line {front line rest : List Char} (closed : Closed front) (single : '\n' ∉ line)
    (some_ : line ≠ []) (short : line.length < 511) (next : ∀ c ∈ rest.head?, c = '\n') (c : RunConfig) :
    parseConfig (some (front ++ line ++ rest)) ⟨c, []⟩ =
      (0, (line :: fgetsAll lineSize (rest.drop 1)).foldl parseLine (parseConfig (some front) ⟨c, []⟩).2) := by
  have size : lineSize = 512 := rfl
  simp only [parseConfig, List.append_assoc, fgetsAll_append closed, List.foldl_append]
  cases rest with
  | nil =>
    have nothing : fgetsAll lineSize [] = [] := by rw [fgetsAll, if_pos (Or.inl rfl)]
    rw [List.append_nil, List.drop_nil, nothing, fgetsAll_last single some_ (by omega)]
  | cons x rest =>
    obtain rfl : x = '\n' := next x rfl
    have own : Closed (line ++ ['\n']) := Or.inr ⟨line, rfl⟩
    have split : line ++ '\n' :: rest = line ++ ['\n'] ++ rest := by simp
    have same (st : ConfigState) : parseLine st (line ++ ['\n']) = parseLine st line := by
      rw [parseLine, keyValue_newline, parseLine]
    rw [split, fgetsAll_append own, fgetsAll_line single (by omega), List.drop_one, List.tail_cons,
      List.singleton_append, List.foldl_cons, List.foldl_cons, same]

theorem parseLine_config (line : List Char) (c : RunConfig) (names others : List String) :
    (parseLine ⟨c, names⟩ line).config = (parseLine ⟨c, others⟩ line).config := by
  unfold parseLine
  cases keyValue line with
  | none => rfl
  | some pair =>
    simp only [assignKey]
    split
    · cases benchName pair.2 <;> rfl
    · rfl

theorem foldl_config (lines : List (List Char)) {st other : ConfigState} (same : st.config = other.config) :
    (lines.foldl parseLine st).config = (lines.foldl parseLine other).config := by
  induction lines generalizing st other with
  | nil => exact same
  | cons line lines ih =>
    obtain ⟨c, names⟩ := st
    obtain ⟨d, others⟩ := other
    obtain rfl : c = d := same
    exact ih (parseLine_config line c names others)

theorem filter_decides {st other : ConfigState} (config : st.config = other.config) :
    st = other ↔ st.benchFilter = other.benchFilter := by
  obtain ⟨c, names⟩ := st
  obtain ⟨d, others⟩ := other
  obtain rfl : c = d := config
  simp

section Run
variable {value gap : List Char} (free : '#' ∉ value) (head : ∀ c ∈ value.head?, isspace c = false)
    (blank : ∀ c ∈ gap, isspace c = true) (bare : value = [] → gap = []) (text : List Char)
    (st : ConfigState) (later : List (List Char))

section Setting
include free head blank bare

/-- What the rest of the file makes of a setting with and without the comment. -/
theorem run_setting {key : String} (other : key ≠ "benchmark") :
    later.foldl parseLine (assignKey st key (value ++ gap ++ remark text)) =
        later.foldl parseLine (assignKey st key value) ↔
      Inert key value text ∨ Hidden st key value text later := by
  cases own : slotOf key with
  | none =>
    have same := assignSetting_comment head blank bare text own st.config
    have inert : Inert key value text := ⟨fun eq => absurd eq other, fun s eq => by rw [own] at eq; cases eq⟩
    simp only [assignKey, other, if_false, same, inert, true_or]
  | some s =>
    have write (v : List Char) : assignKey st key v = { st with config := s.write v st.config } := by
      simp only [assignKey, other, if_false, assignSetting_write own]
    have sides : Inert key value text ∨ Hidden st key value text later ↔
        later.any (resets s) = true ∨ (s = .mode ∧ value ≠ "sustained".toList) ∨
          (s = .category ∧ value = [] ∧ st.config.categoryFilter = some (String.ofList (remark text))) := by
      simp only [Inert, Hidden, own, other, Option.some.injEq, false_implies, true_and, forall_eq', false_and,
        false_or, exists_eq_left']
      exact or_left_comm
    rw [sides, write, write, foldl_write, foldl_write]
    cases again : later.any (resets s) with
    | true => simp
    | false =>
      simp only [Bool.false_eq_true, if_false, false_or, ConfigState.mk.injEq, and_true]
      rw [write_comment free bare]
      refine or_congr_right (and_congr_right fun category => ?_)
      rw [category] at again
      rw [foldl_category again]

end Setting

theorem assignKey_names (fits : st.benchFilter.length ≤ maxBenchFilter) (v : List Char) :
    assignKey st "benchmark" v =
      ⟨st.config, (st.benchFilter ++ ((benchName v).map String.ofList).toList).take maxBenchFilter⟩ := by
  have whole := Bounded.foldl_push maxBenchFilter st.benchFilter ((benchName v).map String.ofList).toList
  rw [List.take_of_length_le fits] at whole
  rw [← whole, assignKey, if_pos rfl]
  cases benchName v <;> rfl

theorem run_names_eq (fits : st.benchFilter.length ≤ maxBenchFilter) (v w : List Char) :
    later.foldl parseLine (assignKey st "benchmark" v) = later.foldl parseLine (assignKey st "benchmark" w) ↔
      (st.benchFilter ++ ((benchName v).map String.ofList).toList ++ later.filterMap filterEntry).take maxBenchFilter =
        (st.benchFilter ++ ((benchName w).map String.ofList).toList ++
          later.filterMap filterEntry).take maxBenchFilter := by
  have config : (later.foldl parseLine (assignKey st "benchmark" v)).config =
      (later.foldl parseLine (assignKey st "benchmark" w)).config := by
    apply foldl_config
    rw [assignKey_names st fits, assignKey_names st fits]
  rw [filter_decides config, assignKey_names st fits, assignKey_names st fits, foldl_filter, foldl_filter]

include free blank in
theorem run_names (fits : st.benchFilter.length ≤ maxBenchFilter) :
    later.foldl parseLine (assignKey st "benchmark" (value ++ gap ++ remark text)) =
        later.foldl parseLine (assignKey st "benchmark" value) ↔
      Inert "benchmark" value text ∨ Hidden st "benchmark" value text later := by
  have sides : Inert "benchmark" value text ∨ Hidden st "benchmark" value text later ↔
      (2 ≤ value.count ':' ∨ ':' ∉ value ++ cString text) ∨
        ∀ i, st.benchFilter.length + i < maxBenchFilter →
          ':' ∉ value ∧ (later.filterMap filterEntry)[i]? = (benchName (cString text)).map String.ofList := by
    have none (s : Slot) : slotOf "benchmark" ≠ some s := nofun
    simp [Inert, Hidden, none]
  rw [sides, run_names_eq st later fits]
  generalize later.filterMap filterEntry = names
  by_cases colon : ':' ∈ value
  · obtain ⟨first, name, rfl, one⟩ := List.eq_append_cons_of_mem colon
    have count : (first ++ ':' :: name).count ':' = name.count ':' + 1 := by
      rw [List.count_append, List.count_eq_zero.mpr one, List.count_cons_self, Nat.zero_add]
    by_cases second : ':' ∈ name
    · obtain ⟨name, behind, rfl, two⟩ := List.eq_append_cons_of_mem second
      have parts : first ++ ':' :: (name ++ ':' :: behind) ++ gap ++ remark text =
          first ++ ':' :: (name ++ ':' :: (behind ++ gap ++ remark text)) := by
        simp only [List.append_assoc, List.cons_append]
      have many : 2 ≤ (first ++ ':' :: (name ++ ':' :: behind)).count ':' := by
        rw [count, List.count_append, List.count_cons_self]
        omega
      rw [parts, benchName_fields one two, benchName_fields one two]
      simp only [many, true_or]
    · obtain ⟨longer, read, hash⟩ := benchName_longer blank text one second
      have other : String.ofList longer ≠ String.ofList (trim name) := by
        intro eq
        rw [String.ofList_injective eq] at hash
        exact free (List.mem_append_right _ (List.mem_cons_of_mem _
          ((List.dropWhile_sublist _).mem ((List.rdropWhile_prefix _ _).subset hash))))
      rw [read, benchName_last one second, count, List.count_eq_zero.mpr second]
      simp only [Option.map_some, Option.toList_some, List.append_assoc, List.singleton_append]
      rw [Bounded.take_replaced other]
      constructor
      · exact fun full => Or.inr (fun i room => absurd room (by omega))
      · rintro ((two | absent) | all)
        · omega
        · exact absurd (by simp) absent
        · by_contra room
          exact (all 0 (by omega)).1 colon
  · rw [benchName_comment blank text colon, benchName_none colon]
    by_cases field : ':' ∈ cString text
    · obtain ⟨name, read⟩ := benchName_some field
      have none : ¬ (2 ≤ value.count ':' ∨ ':' ∉ value ++ cString text) := by
        rw [List.count_eq_zero.mpr colon]
        simp [field]
      simp only [read, none, false_or, Option.map_some, Option.toList_some, Option.map_none, Option.toList_none,
        List.append_nil, List.append_assoc, List.singleton_append, colon, not_false_eq_true, true_and]
      exact Bounded.take_inserted
    · simp [benchName_none field, colon, field]

end Run

theorem parseConfig_fits (text : List Char) (c : RunConfig) :
    (parseConfig (some text) ⟨c, []⟩).2.benchFilter.length ≤ maxBenchFilter := by
  rw [parseConfig_filter, List.length_take]
  exact Nat.min_le_left _ _

theorem keyValue_head {line : List Char} {key : String} {value : List Char}
    (entry : keyValue line = some (key, value)) : ∀ c ∈ value.head?, isspace c = false := by
  unfold keyValue at entry
  dsimp only at entry
  split at entry
  · cases entry
  · obtain ⟨parts, _, eq⟩ := Option.map_eq_some_iff.mp entry
    cases eq
    exact strip_head parts.2

/-- A comment behind a value changes nothing exactly if its line is cut before it, the value is
a number, or the difference does not show. -/
theorem comment_inert_iff {line blanks text : List Char} {key : String} {value : List Char}
    (entry : keyValue line = some (key, value)) (free : '#' ∉ value) (spaces : ∀ c ∈ blanks, isspace c = true)
    (single : '\n' ∉ line ++ blanks ++ '#' :: text) (short : (line ++ blanks ++ '#' :: text).length < 511)
    {front rest : List Char} (closed : Closed front) (next : ∀ c ∈ rest.head?, c = '\n') (c : RunConfig) :
    parseConfig (some (front ++ (line ++ blanks ++ '#' :: text) ++ rest)) ⟨c, []⟩ =
        parseConfig (some (front ++ line ++ rest)) ⟨c, []⟩ ↔
      Char.ofNat 0 ∈ line ∨ Inert key value text ∨
        Hidden (parseConfig (some front) ⟨c, []⟩).2 key value text (fgetsAll lineSize (rest.drop 1)) := by
  have some_ : line ≠ [] := by
    rintro rfl
    cases entry
  have own : '\n' ∉ line := fun member => single (by simp [member])
  have fits : line.length < 511 := by
    simp only [List.length_append] at short
    omega
  rw [parseConfig_line closed single (by simp) short next, parseConfig_line closed own some_ fits next]
  simp only [Prod.mk.injEq, true_and, List.foldl_cons]
  have full := parseConfig_fits front c
  generalize (parseConfig (some front) ⟨c, []⟩).2 = before at full ⊢
  by_cases ended : Char.ofNat 0 ∈ line
  · have same : keyValue (line ++ blanks ++ '#' :: text) = keyValue line := by
      rw [keyValue, List.append_assoc, cString_stop ended, keyValue]
    simp only [parseLine, same, ended, true_or]
  · obtain ⟨gap, blank, bare, longer⟩ := keyValue_comment entry ended spaces text
    simp only [parseLine, longer, entry, ended, false_or]
    rcases eq_or_ne key "benchmark" with rfl | other
    · exact run_names free blank text before _ full
    · exact run_setting free (keyValue_head entry) blank bare text before _ other

/- Two lines of the sample configuration. -/
def threadsLine : List Char := "threads         = 0".toList
def categoryLine : List Char := "category        =".toList

theorem threads_comment_inert :
    parseConfig (some ([] ++ (threadsLine ++ "                    ".toList ++ '#' :: " 0 = auto-detect".toList) ++ []))
        ⟨mainConfig, []⟩ = parseConfig (some ([] ++ threadsLine ++ [])) ⟨mainConfig, []⟩ :=
  (comment_inert_iff (show keyValue threadsLine = some ("threads", ['0']) by decide +kernel) (by decide)
    (List.all_eq_true.mp (by decide)) (by decide +kernel) (by decide +kernel) (Or.inl rfl) (by rintro _ ⟨⟩)
    mainConfig).mpr
    (Or.inr (Or.inl ⟨fun benchmark => absurd benchmark (by decide), fun s own => absurd own (by cases s <;> decide)⟩))

def categoryComment : List Char := "                     ".toList ++ '#' :: " empty = all".toList

theorem category_comment_read :
    (parseConfig (some categoryLine) ⟨mainConfig, []⟩).2.config.categoryFilter = none ∧
      (parseConfig (some (categoryLine ++ categoryComment)) ⟨mainConfig, []⟩).2.config.categoryFilter =
        some "# empty = all" := by
  have own : fgetsAll lineSize categoryLine = [categoryLine] :=
    fgetsAll_last (by decide) (by decide) (by decide)
  have longer : fgetsAll lineSize (categoryLine ++ categoryComment) = [categoryLine ++ categoryComment] :=
    fgetsAll_last (by decide +kernel) (by decide) (by decide +kernel)
  simp only [parseConfig, own, longer]
  decide +kernel

/- With its comment the line no longer says "all": it asks for a category of that name. -/
theorem category_comment_kept :
    keyValue categoryLine = some ("category", []) ∧ (categoryLine ++ categoryComment).length < 511 ∧
      parseConfig (some (categoryLine ++ categoryComment)) ⟨mainConfig, []⟩ ≠
        parseConfig (some categoryLine) ⟨mainConfig, []⟩ := by
  refine ⟨by decide +kernel, by decide +kernel, fun same => ?_⟩
  obtain ⟨all, kept⟩ := category_comment_read
  rw [same, all] at kept
  cases kept

end ServMark
