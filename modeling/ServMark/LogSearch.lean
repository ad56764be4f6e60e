import ServMark.Library.Printf

/-! The texts that int_regex.c and crypto_zstd.c generate line by line into a buffer of fixed size, and the
search for identifiers in the log. -/
namespace ServMark
open CText Printf

def nul : Char := Char.ofNat 0

/-- What snprintf leaves of a memory when it prints this text at p with so much room. -/
def snprintfAt (buffer : Nat → Char) (p room : Nat) (text : List Char) : Nat → Char := fun q =>
  let kept := text.take (room - 1)
  if room = 0 ∨ q < p then buffer q
  else if q - p < kept.length then kept.getD (q - p) nul
  else if q - p = kept.length then nul else buffer q

structure Filling where
  buffer : Nat → Char
  p : Nat
  remaining : Int
  count : Nat

/-- One turn of a loop that prints the next line and moves on by its whole length. -/
def fillTurn (line : Nat → List Char) (s : Filling) : Filling where
  buffer := snprintfAt s.buffer s.p s.remaining.toNat (line s.count)
  p := s.p + (line s.count).length
  remaining := s.remaining - (line s.count).length
  count := s.count + 1

/-- The loop of int_regex_init, at most so many turns. -/
def lineLoop (margin : Int) (line : Nat → List Char) : Nat → Filling → Filling
  | 0, s => s
  | turns + 1, s => if s.remaining > margin then lineLoop margin line turns (fillTurn line s) else s

/-- The loop of crypto_zstd_init, which also stops where a line did not fit. -/
def fillGuarded (margin : Int) (line : Nat → List Char) : Nat → Filling → Filling
  | 0, s => s
  | turns + 1, s =>
    if s.remaining > margin then
      let n : Int := (line s.count).length
      if n < 0 ∨ n ≥ s.remaining then { s with buffer := (fillTurn line s).buffer }
      else fillGuarded margin line turns (fillTurn line s)
    else s

/-- The lines printed so far, whole and one behind the other, and a memory that is as before behind them. -/
structure Filled (size : Nat) (line : Nat → List Char) (before : Nat → Char) (s : Filling) : Prop where
  room : (s.p : Int) + s.remaining = size
  lines : (List.range s.p).map s.buffer = (List.range s.count).flatMap line
  behind : ∀ q, s.p < q → s.buffer q = before q
  ended : s.count = 0 ∧ s.buffer s.p = before s.p ∨ s.buffer s.p = nul

section Fill
variable {size : Nat} {margin : Int} {line : Nat → List Char} {before : Nat → Char} {s : Filling}

theorem filled_start : Filled size line before ⟨before, 0, size, 0⟩ :=
  ⟨Int.zero_add _, rfl, fun _ _ => rfl, Or.inl ⟨rfl, rfl⟩⟩

theorem snprintfAt_fits {buffer : Nat → Char} {p room : Nat} {text : List Char} (fits : text.length < room) (q : Nat) :
    snprintfAt buffer p room text q = if q < p then buffer q else if q - p < text.length then text.getD (q - p) nul
      else if q - p = text.length then nul else buffer q := by
  have whole : text.take (room - 1) = text := List.take_of_length_le (by omega)
  have some_ : room ≠ 0 := by omega
  simp only [snprintfAt, whole, some_, false_or]

theorem filled_turn (filled : Filled size line before s) (fits : ((line s.count).length : Int) < s.remaining) :
    Filled size line before (fillTurn line s) := by
  have printed (q : Nat) := @snprintfAt_fits s.buffer s.p s.remaining.toNat (line s.count) (by omega) q
  have room := filled.room
  refine ⟨?_, ?_, fun q after => ?_, Or.inr ?_⟩
  · simp only [fillTurn]
    omega
  · have front : (List.range s.p).map (fillTurn line s).buffer = (List.range s.p).map s.buffer :=
      List.map_congr_left (fun q member => (printed q).trans (if_pos (List.mem_range.mp member)))
    have back : ((List.range (line s.count).length).map (s.p + ·)).map (fillTurn line s).buffer = line s.count := by
      rw [List.map_map]
      refine List.ext_getElem (by simp) (fun i first second => ?_)
      rw [List.getElem_map, List.getElem_range, Function.comp_apply]
      refine (printed (s.p + i)).trans ?_
      rw [if_neg (by omega), Nat.add_sub_cancel_left, if_pos second,
        List.getD_eq_getElem?_getD, List.getElem?_eq_getElem second, Option.getD_some]
    have extent : (fillTurn line s).p = s.p + (line s.count).length := rfl
    rw [extent, List.range_add, List.map_append, front, back, filled.lines]
    simp only [fillTurn, List.range_succ, List.flatMap_append, List.flatMap_singleton]
  · have after : s.p + (line s.count).length < q := after
    refine (printed q).trans ?_
    rw [if_neg (by omega), if_neg (by omega), if_neg (by omega)]
    exact filled.behind q (by omega)
  · have last := printed (s.p + (line s.count).length)
    rw [if_neg (by omega), Nat.add_sub_cancel_left, if_neg (Nat.lt_irrefl _), if_pos rfl] at last
    exact last

/-- Lines that are neither empty nor longer than a bound within the margin. -/
structure Short (margin : Int) (bound : Nat) (line : Nat → List Char) : Prop where
  some_ : ∀ k, 1 ≤ (line k).length
  most : ∀ k, (line k).length ≤ bound
  within : (bound : Int) ≤ margin

/-- The loop ends by itself, with less than the margin left and more than the margin without a line. -/
theorem lineLoop_filled {bound turns : Nat} (short : Short margin bound line) (filled : Filled size line before s)
    (above : margin - bound < s.remaining) (enough : s.remaining ≤ margin + turns) :
    Filled size line before (lineLoop margin line turns s) ∧ (lineLoop margin line turns s).remaining ≤ margin ∧
      margin - bound < (lineLoop margin line turns s).remaining := by
  induction turns generalizing s with
  | zero => exact ⟨filled, enough.trans_eq (Int.add_zero margin), above⟩
  | succ turns ih =>
    have some_ := short.some_ s.count
    have most := short.most s.count
    have within := short.within
    unfold lineLoop
    split_ifs with more
    · refine ih (filled_turn filled (by omega)) ?_ ?_
      · simp only [fillTurn]
        omega
      · simp only [fillTurn]
        push_cast at enough
        omega
    · exact ⟨filled, not_lt.mp more, above⟩

/-- From an empty buffer, with as many turns as it has bytes. -/
theorem fill_empty {bound : Nat} (short : Short margin bound line) (large : margin - bound < size) :
    ∃ e, lineLoop margin line size ⟨before, 0, size, 0⟩ = e ∧ Filled size line before e ∧ e.remaining ≤ margin ∧
      margin - bound < e.remaining := by
  have within := short.within
  refine ⟨_, rfl, lineLoop_filled short filled_start large ?_⟩
  simp only
  omega

/-- The guarded loop never takes its way out. -/
theorem fillGuarded_eq {bound turns : Nat} (short : Short margin bound line) :
    fillGuarded margin line turns s = lineLoop margin line turns s := by
  induction turns generalizing s with
  | zero => rfl
  | succ turns ih =>
    have most := short.most s.count
    have within := short.within
    unfold fillGuarded lineLoop
    split_ifs with more
    · have fits : ¬ (((line s.count).length : Int) < 0 ∨ ((line s.count).length : Int) ≥ s.remaining) := by omega
      simp only [if_neg fits]
      exact ih
    · rfl

end Fill

/- int_regex.c. -/

def logSize : Nat := 2 * 1024 * 1024

/-- The indices and numbers of one line, each as rand() or its remainder gives it. -/
structure LogLine where
  stamp : Nat
  level : Fin 4
  msg : Fin 7
  id : Nat
  latency : Nat
  stamp_int : stamp < 2 ^ 31
  id_below : id < 100000
  latency_below : latency < 5000

def levels : List (List Char) := ["INFO".toList, "WARN".toList, "ERROR".toList, "DEBUG".toList]

def msgs : List (List Char) := ["processing request".toList, "connection timeout".toList, "disk full".toList,
  "auth failed".toList, "cache hit".toList, "retry attempt".toList, "shutdown".toList]

/-- The text "id=" with a number, in a line and as a pattern. -/
def idText (id : Nat) : List Char := "id=".toList ++ printNat id

def LogLine.text (l : LogLine) : List Char :=
  ['['] ++ printNat l.stamp ++ [']', ' '] ++ levels.getD l.level [] ++ [':', ' '] ++ msgs.getD l.msg [] ++ [' '] ++
    idText l.id ++ " latency=".toList ++ printNat l.latency ++ ['u', 's', '\n']

/-- The log behind int_regex_init, in a buffer of one byte more than its size. -/
def intRegexLog (before : Nat → Char) (lines : Nat → LogLine) : Filling :=
  lineLoop 80 (fun k => (lines k).text) logSize ⟨before, 0, logSize, 0⟩

/-- The inner loop of simple_match: how far the needle agrees. -/
def agrees (haystack : Nat → Char) (i : Nat) : List Char → Nat
  | [] => 0
  | c :: needle => if haystack i ≠ c then 0 else agrees haystack (i + 1) needle + 1

def simpleMatch (haystack : Nat → Char) (hsLen : Nat) (needle : List Char) : Nat :=
  if needle.length = 0 then 0
  else if (List.range (hsLen + 1 - needle.length)).any (fun i => agrees haystack i needle == needle.length) then 1
  else 0

/-- int_regex_measure: the number of patterns found, none for the return of -1. -/
def intRegexMeasure (haystack : Nat → Char) (patterns : List (List Char)) : Option Nat :=
  let sink := patterns.foldl (fun sink pattern => sink + simpleMatch haystack logSize pattern) 0
  if sink = 0 then none else some sink

theorem printNat_short (digits : Nat) {n : Nat} (positive : 0 < digits) (below : n < 10 ^ digits) :
    1 ≤ (printNat n).length ∧ (printNat n).length ≤ digits :=
  ⟨List.length_pos_iff.mpr (printNat_some n), (Nat.length_toDigits_le_iff (by decide) positive).mpr below⟩

theorem logLine_short (lines : Nat → LogLine) : Short 80 63 (fun k => (lines k).text) := by
  have most (l : LogLine) : 1 ≤ l.text.length ∧ l.text.length ≤ 63 := by
    have level : ∀ i : Fin 4, (levels.getD i []).length ≤ 5 := by decide
    have msg : ∀ i : Fin 7, (msgs.getD i []).length ≤ 18 := by decide
    have stamp := printNat_short 10 (by decide) (l.stamp_int.trans (by decide))
    have id := printNat_short 5 (by decide) l.id_below
    have latency := printNat_short 4 (by decide) (l.latency_below.trans (by decide))
    have level := level l.level
    have msg := msg l.msg
    have mark : "id=".toList.length = 3 := rfl
    have label : " latency=".toList.length = 9 := rfl
    simp only [LogLine.text, idText, List.length_append, List.length_cons, List.length_nil, mark, label]
    omega
  exact ⟨fun k => (most (lines k)).1, fun k => (most (lines k)).2, by decide⟩

theorem agrees_whole {haystack : Nat → Char} {i : Nat} {needle : List Char} :
    agrees haystack i needle = needle.length ↔ (List.range needle.length).map (fun j => haystack (i + j)) = needle := by
  induction needle generalizing i with
  | nil => simp [agrees]
  | cons c needle ih =>
    have later : (List.range needle.length).map ((fun j => haystack (i + j)) ∘ Nat.succ) =
        (List.range needle.length).map (fun j => haystack (i + 1 + j)) :=
      List.map_congr_left (fun j _ => by rw [Function.comp_apply]; congr 1; omega)
    rw [List.length_cons, List.range_succ_eq_map, List.map_cons, List.map_map, later, List.cons.injEq, Nat.add_zero,
      ← ih]
    rw [agrees]
    split_ifs with first
    · simp [first]
    · rw [Nat.succ_inj]
      exact (and_iff_right (not_not.mp first)).symm

/-- A text stands in a stretch of memory where it is what is read there from some place on. -/
theorem infix_memory (haystack : Nat → Char) (hsLen : Nat) (needle : List Char) :
    needle <:+: (List.range hsLen).map haystack ↔
      ∃ i, i + needle.length ≤ hsLen ∧ (List.range needle.length).map (fun j => haystack (i + j)) = needle := by
  have window (i n : Nat) (within : i + n ≤ hsLen) :
      (((List.range hsLen).map haystack).drop i).take n = (List.range n).map (fun j => haystack (i + j)) := by
    refine List.ext_getElem (by simp; omega) (fun j first second => ?_)
    simp
  constructor
  · rintro ⟨front, back, whole⟩
    have length : front.length + needle.length + back.length = hsLen := by
      have both := congrArg List.length whole
      simpa [Nat.add_assoc] using both
    refine ⟨front.length, by omega, ?_⟩
    rw [← window _ _ (by omega), ← whole, List.append_assoc, List.drop_left, List.take_left]
  · rintro ⟨i, within, same⟩
    rw [← window i _ within] at same
    exact ⟨_, _, (congrArg (· ++ _) (congrArg (((List.range hsLen).map haystack).take i ++ ·) same.symm)).trans (by
      rw [List.append_assoc, List.take_append_drop, List.take_append_drop])⟩

/-- The search finds exactly the non-empty texts that stand somewhere in the haystack. -/
theorem simpleMatch_iff (haystack : Nat → Char) (hsLen : Nat) (needle : List Char) :
    simpleMatch haystack hsLen needle = 1 ↔ needle ≠ [] ∧ needle <:+: (List.range hsLen).map haystack := by
  rw [infix_memory, simpleMatch]
  rcases eq_or_ne needle [] with rfl | some_
  · simp
  · have length : needle.length ≠ 0 := fun none_ => some_ (List.length_eq_zero_iff.mp none_)
    rw [if_neg length, and_iff_right some_]
    have found : (List.range (hsLen + 1 - needle.length)).any (fun i => agrees haystack i needle == needle.length) =
        true ↔ ∃ i, i + needle.length ≤ hsLen ∧ (List.range needle.length).map (fun j => haystack (i + j)) = needle := by
      simp only [List.any_eq_true, List.mem_range, beq_iff_eq, agrees_whole]
      exact exists_congr fun i => and_congr_left' (by omega)
    rw [← found]
    split_ifs with any <;> simp [any]

theorem simpleMatch_bit (haystack : Nat → Char) (hsLen : Nat) (needle : List Char) :
    simpleMatch haystack hsLen needle = 0 ∨ simpleMatch haystack hsLen needle = 1 := by
  unfold simpleMatch
  split_ifs
  · exact Or.inl rfl
  · exact Or.inr rfl
  · exact Or.inl rfl

/-- The call fails exactly where none of the patterns stands in the log. -/
theorem intRegexMeasure_none (haystack : Nat → Char) (ids : List Nat) :
    intRegexMeasure haystack (ids.map idText) = none ↔
      ∀ id ∈ ids, ¬ idText id <:+: (List.range logSize).map haystack := by
  have sum : ∀ (patterns : List (List Char)) (start : Nat),
      patterns.foldl (fun sink pattern => sink + simpleMatch haystack logSize pattern) start = 0 ↔
        start = 0 ∧ ∀ pattern ∈ patterns, simpleMatch haystack logSize pattern ≠ 1 := by
    intro patterns
    induction patterns with
    | nil => simp
    | cons pattern patterns ih =>
      intro start
      have bit := simpleMatch_bit haystack logSize pattern
      rw [List.foldl_cons, ih, List.forall_mem_cons, ← and_assoc]
      refine and_congr_left' ⟨fun none_ => ⟨by omega, by omega⟩, fun both => ?_⟩
      omega
  have some_ : ∀ id, idText id ≠ [] := fun id => by simp [idText]
  have each : (∀ pattern ∈ ids.map idText, simpleMatch haystack logSize pattern ≠ 1) ↔
      ∀ id ∈ ids, ¬ idText id <:+: (List.range logSize).map haystack := by
    rw [List.forall_mem_map]
    exact forall₂_congr fun id _ => not_congr ((simpleMatch_iff _ _ _).trans (and_iff_right (some_ id)))
  have whole := (sum (ids.map idText) 0).trans (and_iff_right rfl)
  rw [← each, ← whole]
  unfold intRegexMeasure
  dsimp only
  split_ifs with zero
  · exact iff_of_true rfl zero
  · exact iff_of_false nofun zero

/-- Whatever rand() gives and whatever the buffer held: the log consists of whole lines that reach to within eighty
bytes of its end and leave the rest of the memory alone, the search finds the identifier of every line, and a call
of measure fails only if no pattern is one of them. -/
theorem log_ids_found (before : Nat → Char) (lines : Nat → LogLine) :
    (∃ text, text = (List.range (intRegexLog before lines).count).flatMap (fun k => (lines k).text) ∧
      (List.range text.length).map (intRegexLog before lines).buffer = text ∧
      logSize ≤ text.length + 80 ∧ text.length + 17 < logSize ∧
      ∀ q, text.length < q → (intRegexLog before lines).buffer q = before q) ∧
    (∀ k < (intRegexLog before lines).count,
      simpleMatch (intRegexLog before lines).buffer logSize (idText (lines k).id) = 1) ∧
    ∀ ids : List Nat, intRegexMeasure (intRegexLog before lines).buffer (ids.map idText) = none →
      ∀ k < (intRegexLog before lines).count, (lines k).id ∉ ids := by
  have size : logSize = 2097152 := rfl
  obtain ⟨log, same, filled, low, high⟩ := @fill_empty logSize 80 _ before 63 (logLine_short lines) (by omega)
  rw [← intRegexLog] at same
  rw [same]
  have room := filled.room
  have length : ((List.range log.count).flatMap (fun k => (lines k).text)).length = log.p := by
    rw [← filled.lines, List.length_map, List.length_range]
  have stands : ∀ k < log.count, idText (lines k).id <:+: (List.range logSize).map log.buffer := by
    intro k below
    have line : idText (lines k).id <:+: (lines k).text :=
      (List.suffix_append _ _).isInfix.trans ((List.prefix_append _ _).trans
        ((List.prefix_append _ _).trans (List.prefix_append _ _))).isInfix
    have written : (lines k).text <:+: (List.range log.count).flatMap (fun k => (lines k).text) := by
      obtain ⟨front, back, split⟩ := List.append_of_mem (List.mem_range.mpr below)
      rw [split, List.flatMap_append, List.flatMap_cons, ← List.append_assoc]
      exact ⟨_, _, rfl⟩
    rw [← filled.lines] at written
    have whole : (List.range log.p).map log.buffer <+: (List.range logSize).map log.buffer := by
      have extent : log.p ≤ logSize := by omega
      obtain ⟨rest, eq⟩ := Nat.exists_eq_add_of_le extent
      rw [eq, List.range_add, List.map_append]
      exact List.prefix_append _ _
    exact (line.trans written).trans whole.isInfix
  refine ⟨⟨_, rfl, ?_, ?_, ?_, ?_⟩, fun k below => ?_, fun ids failed k below member => ?_⟩
  · rw [length]
    exact filled.lines
  · omega
  · omega
  · rw [length]
    exact filled.behind
  · exact (simpleMatch_iff _ _ _).mpr ⟨by simp [idText], stands k below⟩
  · exact (intRegexMeasure_none _ _).mp failed _ member (stands k below)

/- crypto_zstd.c. -/

def dataSize : Nat := 64 * 1024 * 1024
def maxLineLen : Nat := 128

/-- The words of one line by their indices, and the number between them. -/
structure WordLine where
  word : Fin 6 → Fin 13
  number : Nat
  number_int : number < 2 ^ 31

def words : List (List Char) := ["the".toList, "quick".toList, "brown".toList, "fox".toList, "jumps".toList,
  "over".toList, "lazy".toList, "dog".toList, "benchmark".toList, "compress".toList, "decompress".toList,
  "throughput".toList, "test".toList]

def WordLine.wordText (l : WordLine) (i : Fin 6) : List Char := words.getD (l.word i) []

def WordLine.text (l : WordLine) : List Char :=
  l.wordText 0 ++ [' '] ++ l.wordText 1 ++ [' '] ++ l.wordText 2 ++ [' '] ++ printNat l.number ++ [' '] ++
    l.wordText 3 ++ [' '] ++ l.wordText 4 ++ [' '] ++ l.wordText 5 ++ ['\n']

/-- The data behind crypto_zstd_init; the bytes in front of p are those that are compressed. -/
def cryptoZstdData (before : Nat → Char) (lines : Nat → WordLine) : Filling :=
  fillGuarded maxLineLen (fun k => (lines k).text) dataSize ⟨before, 0, dataSize, 0⟩

theorem wordLine_short (lines : Nat → WordLine) : Short maxLineLen 77 (fun k => (lines k).text) := by
  have most (l : WordLine) : 1 ≤ l.text.length ∧ l.text.length ≤ 77 := by
    have word : ∀ i : Fin 13, (words.getD i []).length ≤ 10 := by decide
    have each (i : Fin 6) : (l.wordText i).length ≤ 10 := word (l.word i)
    have number := printNat_short 10 (by decide) (l.number_int.trans (by decide))
    have first := each 0
    have second := each 1
    have third := each 2
    have fourth := each 3
    have fifth := each 4
    have sixth := each 5
    simp only [WordLine.text, List.length_append, List.length_cons, List.length_nil]
    omega
  exact ⟨fun k => (most (lines k)).1, fun k => (most (lines k)).2, by decide⟩

/-- The data to compress is made of whole lines, whatever the memory held before: no line is cut off, the way out of
the loop for a line that does not fit is never taken, and all but a line's margin of the buffer is filled. -/
theorem zstd_data_whole (before : Nat → Char) (lines : Nat → WordLine) :
    (List.range (cryptoZstdData before lines).p).map (cryptoZstdData before lines).buffer =
      (List.range (cryptoZstdData before lines).count).flatMap (fun k => (lines k).text) ∧
    dataSize ≤ (cryptoZstdData before lines).p + maxLineLen ∧ (cryptoZstdData before lines).p + 51 < dataSize ∧
    ∀ q, (cryptoZstdData before lines).p < q → (cryptoZstdData before lines).buffer q = before q := by
  have short := wordLine_short lines
  have size : dataSize = 67108864 := rfl
  have line : maxLineLen = 128 := rfl
  obtain ⟨data, same, filled, low, high⟩ := @fill_empty dataSize maxLineLen _ before 77 short (by omega)
  rw [← fillGuarded_eq short, ← cryptoZstdData] at same
  rw [same]
  have room := filled.room
  exact ⟨filled.lines, by omega, by omega, filled.behind⟩

end ServMark
