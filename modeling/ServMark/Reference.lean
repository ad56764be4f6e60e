import ServMark.Types
import ServMark.Library.Bounded
import ServMark.Library.Printf

/-! The reference file: main writes the means of a run, scoring_load_reference reads them. -/
namespace ServMark
open CText Printf

/-- sizeof(line) in scoring_load_reference. -/
def referenceLine : Nat := 512

/- The loops around the name. The first byte always stays. -/
def trimName (name : List Char) : List Char :=
  match name.dropWhile isblank with
  | [] => []
  | c :: rest => c :: rest.rdropWhile (fun c => isblank c || c == '\n')

/- What atof returns is a parameter. -/
section Loading
variable {β : Type} (atof : List Char → β)

/-- What a line of the file stores, unless it is blank, a comment or without '='. -/
def referenceEntry (line : List Char) : Option (List Char × β) :=
  let p := (cString line).dropWhile isblank
  if p.head? = some '#' ∨ p.head? = some '\n' ∨ p = [] then none
  else (strchr '=' p).map (fun parts => (trimName parts.1, atof parts.2))

/-- The number *count and the cells stored in *names and *baselines. -/
structure Reference (β : Type) where
  count : Nat
  entries : List (List Char × β)

/-- Both passes over a file, whose text is none when it cannot be opened; no result stands for
the return value -1. The arrays are allocated between the passes, with a cell for each line the first counts. -/
def scoringLoadReference (allocated : Bool) (text : Option (List Char)) : Option (Reference β) :=
  match text with
  | none => none
  | some text =>
    let reads := fgetsAll referenceLine text
    let n := reads.foldl (fun n line => if (referenceEntry atof line).isSome then n + 1 else n) 0
    if n = 0 ∨ allocated = false then none
    else some ⟨n, reads.foldl (fun all line => (referenceEntry atof line).toList.foldl (Bounded.push n) all) []⟩

end Loading

/-- What ctime returns: one line with its newline. -/
structure Ctime where
  stamp : List Char
  single : '\n' ∉ stamp

def Ctime.text (time : Ctime) : List Char := time.stamp ++ ['\n']

/-- The buffer refpath, which snprintf cuts to 511 bytes. -/
def referencePath (outputDir runId : List Char) : List Char :=
  (outputDir ++ '/' :: runId ++ ".reference.txt".toList).take 511

/- The three bytes between the words are a dash in UTF-8. -/
def referenceTitle : List Char :=
  "# ServMark reference baseline ".toList ++ [0xe2, 0x80, 0x94].map Char.ofNat ++ " generated ".toList

def referenceFormat : List Char := "# Format: benchmark_name = baseline_value".toList

def referenceUse : List Char := "# Use with: ./servmark --reference ".toList

section Writer
variable {α : Type}

def referenceWritten (result : RunResult α) : List (SubtestResult α) :=
  result.subtests.filter (fun sr => decide (sr.stats.iterations > 0))

variable [Field α] [LinearOrder α] [FloorRing α]

def referenceRow (sr : SubtestResult α) : List Char :=
  sr.bench.name.toList ++ " = ".toList ++ printFixed 6 sr.stats.mean

def referenceText (time : Ctime) (refpath : List Char) (result : RunResult α) : List Char :=
  referenceTitle ++ time.text ++ ['\n'] ++ referenceFormat ++ ['\n'] ++ referenceUse ++ refpath ++ ['\n', '\n'] ++
    (referenceWritten result).flatMap (fun sr => referenceRow sr ++ ['\n'])

end Writer

/-- The two passes agree: what is stored are the entries of all lines. -/
theorem scoringLoadReference_eq {β : Type} (atof : List Char → β) (text : List Char) :
    scoringLoadReference atof true (some text) =
    let entries := (fgetsAll referenceLine text).filterMap (referenceEntry atof)
    if entries = [] then none else some ⟨entries.length, entries⟩ := by
  have counted : ∀ (reads : List (List Char)) (n : Nat),
      reads.foldl (fun n line => if (referenceEntry atof line).isSome then n + 1 else n) n =
        n + (reads.filterMap (referenceEntry atof)).length := by
    intro reads
    induction reads with
    | nil => exact fun n => rfl
    | cons line reads ih =>
      intro n
      rw [List.foldl_cons, ih, List.filterMap_cons]
      cases referenceEntry atof line with
      | none => rfl
      | some entry =>
        simp only [Option.isSome_some, if_true, List.length_cons]
        omega
  have stored (n : Nat) := Bounded.foldl_pushes n (fun line => (referenceEntry atof line).toList) []
    (fgetsAll referenceLine text)
  simp only [List.take_nil, List.nil_append, ← List.filterMap_eq_flatMap_toList] at stored
  simp only [scoringLoadReference, counted, Nat.zero_add, stored, List.take_length, List.length_eq_zero_iff,
    Bool.true_eq_false, or_false]

theorem decimalValue_newline (s : List Char) : decimalValue (s ++ ['\n']) = decimalValue s := by
  rcases eq_or_ne (s.dropWhile isspace) [] with none | some_
  · have same : (s ++ ['\n']).dropWhile isspace = s.dropWhile isspace := by
      rw [List.dropWhile_append, none]
      rfl
    simp only [decimalValue, same]
  · apply decimalValue_append
    · rintro c ⟨⟩
      decide
    · rw [List.dropWhile_append, if_neg (by simpa using some_)]

theorem strchr_newline {c : Char} (other : c ≠ '\n') (s : List Char) :
    strchr c (s ++ ['\n']) = (strchr c s).map (fun parts => (parts.1, parts.2 ++ ['\n'])) := by
  by_cases member : c ∈ s
  · obtain ⟨before, after, rfl, absent⟩ := List.eq_append_cons_of_mem member
    rw [List.append_assoc, List.cons_append, strchr_append absent, strchr_append absent]
    rfl
  · have absent : c ∉ s ++ ['\n'] := by simp [member, other]
    rw [strchr_none absent, strchr_none member]
    rfl

theorem referenceEntry_newline (line : List Char) :
    referenceEntry decimalValue (line ++ ['\n']) = referenceEntry decimalValue line := by
  rcases cString_append line ['\n'] with same | longer
  · rw [referenceEntry, same, referenceEntry]
  · have stops : ∀ c ∈ ['\n'].head?, isblank c = false := by
      rintro c ⟨⟩
      decide
    have skipped := (takeWhile_stop stops (cString line)).2
    have blank : cString ['\n'] = ['\n'] := rfl
    simp only [referenceEntry, longer, blank, skipped]
    cases (cString line).dropWhile isblank with
    | nil => simp
    | cons c p =>
      have found := @strchr_newline '=' (by decide) (c :: p)
      rw [List.cons_append] at found
      simp [found, Function.comp_def, decimalValue_newline]

theorem referenceEntry_comment {line : List Char} (comment : line.head? = some '#') :
    referenceEntry decimalValue line = none := by
  obtain ⟨text, rfl⟩ : ∃ text, line = '#' :: text := ⟨_, List.eq_cons_of_mem_head? comment⟩
  have read : (cString ('#' :: text)).dropWhile isblank = '#' :: cString text := rfl
  simp only [referenceEntry, read, List.head?_cons, true_or, if_true]

/-- A name that the format can hold. -/
structure PlainName (name : List Char) : Prop where
  some_ : name ≠ []
  comment : name.head? ≠ some '#'
  sign : '=' ∉ name
  single : '\n' ∉ name
  first : ∀ c ∈ name.head?, isblank c = false
  last : ∀ c ∈ name.getLast?, isblank c = false
  bytes : Char.ofNat 0 ∉ name

theorem trimName_plain {name : List Char} (plain : PlainName name) : trimName (name ++ [' ']) = name := by
  have head := dropWhile_solid plain.first plain.some_ [' ']
  have ends := plain.last
  have single := plain.single
  rw [trimName, head]
  obtain ⟨c, rest, rfl⟩ := List.exists_cons_of_ne_nil plain.some_
  have kept : rest.rdropWhile (fun c => isblank c || c == '\n') = rest := by
    refine List.rdropWhile_eq_self_iff.mpr (fun some_ => ?_)
    have last : (c :: rest).getLast? = some (rest.getLast some_) := by
      rw [List.getLast?_cons_of_ne_nil some_, List.getLast?_eq_some_getLast some_]
    have other : rest.getLast some_ ≠ '\n' := fun eq =>
      single (eq ▸ List.mem_cons_of_mem c (List.getLast_mem some_))
    simp [ends _ last, other]
  have dropped : (rest ++ [' ']).rdropWhile (fun c => isblank c || c == '\n') = rest := by
    rw [List.rdropWhile_concat_pos, kept]
    decide
  simp only [List.cons_append, dropped]

section Rows
variable {α : Type} [Field α] [LinearOrder α] [IsStrictOrderedRing α] [FloorRing α]

/-- A row is one line, and is read back as it was written. -/
theorem referenceEntry_row {sr : SubtestResult α} (plain : PlainName sr.bench.name.toList) {units : Nat}
    (mean : sr.stats.mean = units / 10 ^ 6) : '\n' ∉ referenceRow sr ∧
      referenceEntry decimalValue (referenceRow sr) = some (sr.bench.name.toList, (units / 10 ^ 6 : ℚ)) := by
  have value := @decimalValue_printed 6 (by decide) units
  have bytes := printed_numeric 6 units
  have row : referenceRow sr = sr.bench.name.toList ++ ' ' :: '=' :: ' ' ::
      (printNat (units / 10 ^ 6) ++ '.' :: zeroPadded 6 (units % 10 ^ 6)) := by
    rw [referenceRow, mean, printFixed_units (by decide), List.append_assoc]
    rfl
  rw [row]
  generalize sr.bench.name.toList = name at plain ⊢
  generalize printNat (units / 10 ^ 6) ++ '.' :: zeroPadded 6 (units % 10 ^ 6) = number at value bytes ⊢
  have absent : ∀ x, numeric x = false → x ≠ ' ' → x ≠ '=' → x ∉ name →
      x ∉ name ++ ' ' :: '=' :: ' ' :: number := by
    intro x other blank sign free member
    simp only [List.mem_append, List.mem_cons, free, blank, sign, false_or] at member
    rw [bytes x member] at other
    cases other
  have whole : cString (name ++ ' ' :: '=' :: ' ' :: number) = name ++ ' ' :: '=' :: ' ' :: number :=
    cString_eq (fun c member eq => absent _ (by decide) (by decide) (by decide) plain.bytes (eq ▸ member))
  have found : strchr '=' (name ++ ' ' :: '=' :: ' ' :: number) = some (name ++ [' '], ' ' :: number) := by
    have left : '=' ∉ name ++ [' '] := by simp [plain.sign]
    have split := strchr_append left (' ' :: number)
    rwa [List.append_assoc] at split
  have skip : decimalValue (' ' :: number) = decimalValue number := rfl
  refine ⟨absent _ (by decide) (by decide) (by decide) plain.single, ?_⟩
  have head : (name ++ ' ' :: '=' :: ' ' :: number).head? = name.head? :=
    List.head?_append_of_ne_nil _ plain.some_
  have line : name.head? ≠ some '\n' := fun first => plain.single (List.mem_of_head? first)
  simp only [referenceEntry, whole, dropWhile_solid plain.first plain.some_, head, plain.comment, line,
    List.append_eq_nil_iff, plain.some_, false_and, or_self, if_false, found, Option.map_some, skip, value,
    trimName_plain plain]

theorem entries_rows {rows : List (SubtestResult α)} (names : ∀ sr ∈ rows, PlainName sr.bench.name.toList)
    (means : ∀ sr ∈ rows, ∃ units : Nat, sr.stats.mean = units / 10 ^ 6) :
    ((rows.map referenceRow).filterMap (referenceEntry decimalValue)).map (fun entry => (entry.1, (entry.2 : α))) =
      rows.map (fun sr => (sr.bench.name.toList, sr.stats.mean)) := by
  induction rows with
  | nil => rfl
  | cons sr rows ih =>
    obtain ⟨plain, names⟩ := List.forall_mem_cons.mp names
    obtain ⟨⟨units, mean⟩, means⟩ := List.forall_mem_cons.mp means
    have tail := ih names means
    simp only [List.map_cons, List.filterMap_cons, (referenceEntry_row plain mean).2, tail, mean]
    push_cast
    rfl

/-- The lines of the file: two comments around a blank line, the comment with the path, which runs
on where the path has a newline, a blank line, and the rows. -/
def referenceLines (time : Ctime) (first : List Char) (rest : List (List Char)) (result : RunResult α) :
    List (List Char) :=
  (referenceTitle ++ time.stamp) :: [] :: referenceFormat :: (referenceUse ++ first) ::
    (rest ++ [] :: (referenceWritten result).map referenceRow)

omit [IsStrictOrderedRing α] in
theorem referenceText_lines (time : Ctime) {refpath first : List Char} {rest : List (List Char)}
    (path : refpath.splitOn '\n' = first :: rest) (result : RunResult α) :
    referenceText time refpath result = ended (referenceLines time first rest result) := by
  have path_ended := (splitOn_lines refpath).2
  rw [path, ended_cons] at path_ended
  have tail (text : List Char) : first ++ '\n' :: (ended rest ++ text) = refpath ++ '\n' :: text := by
    rw [← List.cons_append, ← List.append_assoc, path_ended, List.append_assoc]
    rfl
  have rows : (referenceWritten result).flatMap (fun sr => referenceRow sr ++ ['\n']) =
      ended ((referenceWritten result).map referenceRow) := by rw [ended, List.flatMap_map]
  simp only [referenceText, referenceLines, Ctime.text, rows, ended_cons, ended_append, tail, List.append_assoc,
    List.cons_append, List.nil_append]

omit [IsStrictOrderedRing α] in
theorem referenceLines_entries (time : Ctime) (first : List Char) (rest : List (List Char)) (result : RunResult α) :
    (referenceLines time first rest result).filterMap (referenceEntry decimalValue) =
      rest.filterMap (referenceEntry decimalValue) ++
        ((referenceWritten result).map referenceRow).filterMap (referenceEntry decimalValue) := by
  have title : referenceEntry decimalValue (referenceTitle ++ time.stamp) = none := referenceEntry_comment rfl
  have use : referenceEntry decimalValue (referenceUse ++ first) = none := referenceEntry_comment rfl
  have format : referenceEntry decimalValue referenceFormat = none := referenceEntry_comment rfl
  have blank : referenceEntry decimalValue [] = none := rfl
  simp only [referenceLines, List.filterMap_cons, List.filterMap_append, title, use, format, blank]

theorem referenceLines_single (time : Ctime) {first : List Char} {rest : List (List Char)}
    (path : ∀ line ∈ first :: rest, '\n' ∉ line) {result : RunResult α}
    (names : ∀ sr ∈ referenceWritten result, PlainName sr.bench.name.toList)
    (means : ∀ sr ∈ referenceWritten result, ∃ units : Nat, sr.stats.mean = units / 10 ^ 6) :
    ∀ line ∈ referenceLines time first rest result, '\n' ∉ line := by
  have title : '\n' ∉ referenceTitle := by decide
  have use : '\n' ∉ referenceUse := by decide
  have format : '\n' ∉ referenceFormat := by decide
  obtain ⟨own, later⟩ := List.forall_mem_cons.mp path
  have rows : ∀ line ∈ (referenceWritten result).map referenceRow, '\n' ∉ line := by
    intro line member
    obtain ⟨sr, written, rfl⟩ := List.mem_map.mp member
    obtain ⟨units, mean⟩ := means sr written
    exact (referenceEntry_row (names sr written) mean).1
  have both {front back : List Char} (left : '\n' ∉ front) (right : '\n' ∉ back) : '\n' ∉ front ++ back :=
    fun member => (List.mem_append.mp member).elim left right
  simp only [referenceLines, List.forall_mem_cons, List.forall_mem_append]
  exact ⟨both title time.single, List.not_mem_nil, format, both use own, later, List.not_mem_nil, rows⟩

/-- The file is loaded with the same names and values in the same order, decimal values read exactly. -/
def RoundTrips (time : Ctime) (refpath : List Char) (result : RunResult α) : Prop :=
  ∃ ref, scoringLoadReference decimalValue true (some (referenceText time refpath result)) = some ref ∧
    ref.count = (referenceWritten result).length ∧
    ref.entries.map (fun entry => (entry.1, (entry.2 : α))) =
      (referenceWritten result).map (fun sr => (sr.bench.name.toList, sr.stats.mean))

/-- The file is read back as it was written exactly if the path in its header, where it runs over
several lines, adds no entry. -/
theorem reference_round_trip_iff (time : Ctime) (refpath : List Char) {result : RunResult α}
    (some_ : referenceWritten result ≠ []) (names : ∀ sr ∈ referenceWritten result, PlainName sr.bench.name.toList)
    (means : ∀ sr ∈ referenceWritten result, ∃ units : Nat, sr.stats.mean = units / 10 ^ 6)
    (short : ∀ line ∈ (referenceText time refpath result).splitOn '\n', line.length < 512) :
    RoundTrips time refpath result ↔ ∀ line ∈ (refpath.splitOn '\n').tail, referenceEntry decimalValue line = none := by
  obtain ⟨first, rest, path⟩ := List.exists_cons_of_ne_nil (List.splitOn_ne_nil '\n' refpath)
  have path_single := (splitOn_lines refpath).1
  unfold RoundTrips
  rw [referenceText_lines time path] at short ⊢
  rw [path] at path_single ⊢
  have single := referenceLines_single time path_single names means
  rw [splitOn_ended single] at short
  have entries : (fgetsAll referenceLine (ended (referenceLines time first rest result))).filterMap
      (referenceEntry decimalValue) = (referenceLines time first rest result).filterMap (referenceEntry decimalValue) :=
    fgetsAll_ended (by decide) referenceEntry_newline rfl
      (fun line member => ⟨single line member, short line (List.mem_append_left _ member)⟩)
  have read := entries_rows names means
  have length := congrArg List.length read
  have positive := List.length_pos_of_ne_nil some_
  rw [List.length_map, List.length_map] at length
  rw [scoringLoadReference_eq, entries, referenceLines_entries]
  generalize ((referenceWritten result).map referenceRow).filterMap (referenceEntry decimalValue) = rows at read length ⊢
  rw [List.tail_cons, ← List.filterMap_eq_nil_iff]
  constructor
  · rintro ⟨ref, loaded, count, _⟩
    dsimp only at loaded
    split at loaded
    · cases loaded
    · cases loaded
      dsimp only at count
      rw [List.length_append] at count
      exact List.eq_nil_of_length_eq_zero (by omega)
  · intro none
    have some_rows : rows ≠ [] := List.ne_nil_of_length_pos (by omega)
    rw [none, List.nil_append]
    exact ⟨_, if_neg some_rows, length, read⟩

end Rows

/- A run of one benchmark, with a mean of 1.5. -/
def sortBenchmark : Benchmark ℚ where
  name := "int-sort"
  category := "C1"
  tier := 1
  higherIsBetter := true
  minIterations := 0
  maxIterations := 0
  convergenceTarget := 0
  minRuntimeSec := 0
  maxRuntimeSec := 0
  hasWarmup := false
  numThreads := 1

def sortResult : RunResult ℚ :=
  ⟨mainConfig, [⟨sortBenchmark, { BenchmarkStats.zeroed ℚ with mean := 3 / 2, iterations := 5 }, 0, "completed"⟩]⟩

def epoch : Ctime := ⟨"Thu Jan  1 00:00:00 1970".toList, by decide⟩

def plainPath : List Char := referencePath ['.'] "4e2b".toList
def brokenPath : List Char := referencePath "runs\nold=1".toList "4e2b".toList

theorem sort_plain : ∀ sr ∈ referenceWritten sortResult,
    PlainName sr.bench.name.toList ∧ ∃ units : Nat, sr.stats.mean = units / 10 ^ 6 := by
  intro sr member
  obtain rfl := List.mem_singleton.mp member
  have solid : isblank 'i' = false ∧ isblank 't' = false := by decide
  exact ⟨⟨by decide, by decide, by decide, by decide, fun _ first => Option.some.inj first ▸ solid.1,
    fun _ last => Option.some.inj last ▸ solid.2, by decide⟩, 1500000, by norm_num⟩

theorem sort_reference_read : RoundTrips epoch plainPath sortResult :=
  (reference_round_trip_iff epoch plainPath (by decide) (fun sr member => (sort_plain sr member).1)
    (fun sr member => (sort_plain sr member).2) (by decide +kernel)).mpr (by decide +kernel)

def brokenLines : List (List Char) :=
  referenceLines epoch "runs".toList ["old=1/4e2b.reference.txt".toList] sortResult

/- The directory "runs\nold=1" ends the comment: the rest of the path is read as an entry. -/
theorem broken_path_loaded :
    scoringLoadReference decimalValue true (some (referenceText epoch brokenPath sortResult)) =
      some ⟨2, [("old".toList, 1), ("int-sort".toList, 3 / 2)]⟩ := by
  have text : referenceText epoch brokenPath sortResult = ended brokenLines :=
    referenceText_lines epoch (by decide +kernel) sortResult
  have entries : (fgetsAll referenceLine (ended brokenLines)).filterMap (referenceEntry decimalValue) =
      brokenLines.filterMap (referenceEntry decimalValue) :=
    fgetsAll_ended (by decide) referenceEntry_newline rfl (by decide +kernel)
  have read : brokenLines.filterMap (referenceEntry decimalValue) =
      [("old".toList, 1), ("int-sort".toList, 3 / 2)] := by
    decide +kernel
  rw [scoringLoadReference_eq, text, entries, read]
  rfl

theorem broken_path_entry :
    (∀ line ∈ (referenceText epoch brokenPath sortResult).splitOn '\n', line.length < 512) ∧
      ¬ RoundTrips epoch brokenPath sortResult := by
  refine ⟨by decide +kernel, ?_⟩
  rintro ⟨ref, loaded, count, _⟩
  rw [broken_path_loaded] at loaded
  cases loaded
  exact absurd count (by decide)

end ServMark
