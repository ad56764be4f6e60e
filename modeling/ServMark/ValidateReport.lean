import ServMark.Provenance
import ServMark.SystemProbe
import ServMark.Library.JsonCompact

/-! validate_system of validate.c, which prints its checks in JSON. The governor is printed as the kernel
names it. -/
namespace ServMark
open CText Printf Json

def scalingGovernorPath : String := "/sys/devices/system/cpu/cpu0/cpufreq/scaling_governor"

def scalingGovernor (host : Host) : Option (List Char) := systemReadProcStr host scalingGovernorPath 32

structure ValidationLine where
  check : String
  expected : String
  actual : List Char
  severity : String

def ValidationLine.text (line : ValidationLine) : List Char :=
  "    \x7b\"check\":\"".toList ++ line.check.toList ++ "\",\"expected\":\"".toList ++ line.expected.toList ++
    "\",\"actual\":\"".toList ++ line.actual ++ "\",\"severity\":\"".toList ++ line.severity.toList ++ "\"\x7d".toList

/-- What is printed, and whether the next check is the first. -/
abbrev Printed := Bool × List Char

def printCheck (out : Printed) (line : ValidationLine) : Printed :=
  (false, (if out.1 then out.2 else out.2 ++ [',', '\n']) ++ line.text)

/-- The limit is rlim_cur, none if getrlimit fails. -/
def validateSystem (host : Host) (rlimit : Option UInt64) : List Char :=
  let out : Printed := (true, "\x7b\n  \"status\": \"ready\",\n  \"checks\": [\n".toList)
  let out := match scalingGovernor host with
    | some gov =>
      printCheck out ⟨"cpu_governor", "performance", gov, if gov = "performance".toList then "info" else "warning"⟩
    | none => out
  let out := printCheck out ⟨"disk_space", ">50GB", "ok".toList, "info"⟩
  let out := match rlimit with
    | some cur =>
      printCheck out ⟨"open_files", ">=1048576", (printNat cur.toNat).take 63,
        if cur ≥ 1048576 then "info" else "error"⟩
    | none => out
  let out := printCheck out ⟨"swap", "off_or_idle", "checked".toList, "info"⟩
  out.2 ++ "\n  ]\n\x7d\n".toList

/-- The checks that can be made, in order. -/
def checks (host : Host) (rlimit : Option UInt64) : List ValidationLine :=
  (scalingGovernor host).toList.map (fun gov =>
    ⟨"cpu_governor", "performance", gov, if gov = "performance".toList then "info" else "warning"⟩) ++
  [⟨"disk_space", ">50GB", "ok".toList, "info"⟩] ++
  rlimit.toList.map (fun cur =>
    ⟨"open_files", ">=1048576", printNat cur.toNat, if cur.toNat < 1048576 then "error" else "info"⟩) ++
  [⟨"swap", "off_or_idle", "checked".toList, "info"⟩]

def ValidationLine.members (line : ValidationLine) : List (List Char × Scalar) := [
  ("check".toList, .string line.check.toList), ("expected".toList, .string line.expected.toList),
  ("actual".toList, .string line.actual), ("severity".toList, .string line.severity.toList)]

/-- The report as it is meant: it says ready whatever the checks found. -/
def report (host : Host) (rlimit : Option UInt64) : Value := .object [
  ("status".toList, .string "ready".toList),
  ("checks".toList, .array ((checks host rlimit).map (fun line => compactValue line.members)))]

theorem limit_whole (cur : UInt64) : (printNat cur.toNat).take 63 = printNat cur.toNat := by
  have fits : cur.toNat < 10 ^ 63 := Nat.lt_trans cur.toNat_lt (by norm_num)
  exact List.take_of_length_le ((Nat.length_toDigits_le_iff (by decide) (by decide)).mpr fits)

theorem validateSystem_checks (host : Host) (rlimit : Option UInt64) : validateSystem host rlimit =
    ((checks host rlimit).foldl printCheck (true, "\x7b\n  \"status\": \"ready\",\n  \"checks\": [\n".toList)).2 ++
      "\n  ]\n\x7d\n".toList := by
  have limit (cur : UInt64) : (if cur ≥ 1048576 then "info" else "error") =
      if cur.toNat < 1048576 then "error" else "info" := by
    have same : cur ≥ 1048576 ↔ ¬ cur.toNat < 1048576 := by
      rw [Nat.not_lt]
      exact UInt64.le_iff_toNat_le
    by_cases low : cur.toNat < 1048576
    · rw [if_pos low, if_neg (fun high => same.mp high low)]
    · rw [if_neg low, if_pos (same.mpr low)]
  unfold validateSystem checks
  cases scalingGovernor host <;> cases rlimit <;>
    simp only [Option.toList_none, Option.toList_some, List.map_nil, List.map_cons, List.nil_append, List.cons_append,
      List.foldl_cons, List.foldl_nil, limit_whole, limit]

theorem printCheck_later (lines : List ValidationLine) (line : ValidationLine) (s : List Char) :
    (lines.foldl printCheck (false, s ++ line.text)).2 ++ ['\n'] =
      s ++ commaLines ((line :: lines).map ValidationLine.text) := by
  induction lines generalizing s line with
  | nil => simp [commaLines]
  | cons next lines ih =>
    have step : printCheck (false, s ++ line.text) next = (false, s ++ line.text ++ [',', '\n'] ++ next.text) := rfl
    rw [List.foldl_cons, step, ih next]
    simp [commaLines]

/-- A comma ends each line but the last. -/
theorem printCheck_lines {lines : List ValidationLine} (some_ : lines ≠ []) (s : List Char) :
    (lines.foldl printCheck (true, s)).2 ++ ['\n'] = s ++ commaLines (lines.map ValidationLine.text) := by
  obtain ⟨line, lines, rfl⟩ := List.exists_cons_of_ne_nil some_
  exact printCheck_later lines line s

theorem lineText_eq (line : ValidationLine) : line.text = blanks 4 ++ compactText line.members := by
  unfold ValidationLine.text ValidationLine.members
  generalize line.check.toList = check, line.expected.toList = expected, line.severity.toList = severity
  simp [blanks, compactText, commas, shortMember, Scalar.text, quoted]

def reportPiece (lines : List ValidationLine) : Piece := objectPiece (blanks 2) [] [
  ("status".toList, stringPiece "ready".toList),
  ("checks".toList, arrayPiece (blanks 4) (blanks 2) (lines.map (fun line => compactPiece line.members)))]

theorem report_text (host : Host) (rlimit : Option UInt64) :
    validateSystem host rlimit = (reportPiece (checks host rlimit)).text ++ ['\n'] := by
  have some_ : checks host rlimit ≠ [] := List.append_ne_nil_of_right_ne_nil _ (List.cons_ne_nil _ _)
  have items : (checks host rlimit).map ValidationLine.text =
      ((checks host rlimit).map (fun line => compactPiece line.members)).map (fun item => blanks 4 ++ item.text) := by
    rw [List.map_map]
    exact List.map_congr_left fun line _ => lineText_eq line
  have split : "\n  ]\n\x7d\n".toList = ['\n'] ++ "  ]\n\x7d\n".toList := rfl
  rw [validateSystem_checks, split, ← List.append_assoc, printCheck_lines some_, items]
  unfold reportPiece
  generalize (checks host rlimit).map (fun line => compactPiece line.members) = pieces
  simp [objectPiece, arrayPiece, memberText, stringPiece, quoted, commaLines, blanks]

/-- A line whose strings JSON can hold without escapes. -/
def ValidationLine.Safe (line : ValidationLine) : Prop :=
  keyText line.check.toList = true ∧ keyText line.expected.toList = true ∧ ServMark.Safe line.actual ∧
    keyText line.severity.toList = true

theorem printNat_safe (n : Nat) : Safe (printNat n) := by
  apply safe_keyText
  rw [keyText, List.all_eq_true]
  intro c among
  have digit := printNat_digits c among
  simp only [Char.isDigit, Bool.and_eq_true, decide_eq_true_eq, UInt32.le_iff_toNat_le] at digit
  have low : 48 ≤ c.toNat := digit.1
  have high : c.toNat ≤ 57 := digit.2
  have quote : c ≠ '"' := by
    rintro rfl
    exact absurd low (by decide)
  have backslash : c ≠ '\\' := by
    rintro rfl
    exact absurd high (by decide)
  simp only [isPlain, Bool.and_eq_true, decide_eq_true_eq, bne_iff_ne]
  exact ⟨⟨⟨by omega, quote⟩, backslash⟩, by omega⟩

theorem checks_safe {host : Host} (safe : ∀ gov ∈ scalingGovernor host, Safe gov) (rlimit : Option UInt64) :
    ∀ line ∈ checks host rlimit, line.Safe := by
  have two (p : Prop) [Decidable p] {a b : String} (first : keyText a.toList = true) (second : keyText b.toList = true) :
      keyText (if p then a else b).toList = true := by
    split
    · exact first
    · exact second
  have governor : keyText "cpu_governor".toList = true ∧ keyText "performance".toList = true := by decide
  have files : keyText "open_files".toList = true ∧ keyText ">=1048576".toList = true := by decide
  have ok : Safe "ok".toList := safe_keyText (by decide)
  have checked : Safe "checked".toList := safe_keyText (by decide)
  unfold checks
  simp only [List.forall_mem_append, List.forall_mem_map, List.forall_mem_singleton, Option.mem_toList]
  exact ⟨⟨⟨fun gov among => ⟨governor.1, governor.2, safe gov among, two _ (by decide) (by decide)⟩,
    ⟨by decide, by decide, ok, by decide⟩⟩,
    fun cur _ => ⟨files.1, files.2, printNat_safe _, two _ (by decide) (by decide)⟩⟩,
    ⟨by decide, by decide, checked, by decide⟩⟩

theorem members_keys (line : ValidationLine) : ∀ member ∈ line.members, Plain member.1 ∧ Ascii member.1 := by
  have keys : ∀ key ∈ line.members.map Prod.fst, keyText key = true :=
    (by decide : ∀ key ∈ ["check".toList, "expected".toList, "actual".toList, "severity".toList], keyText key = true)
  exact fun member among => keyText_plain (keys member.1 (List.mem_map_of_mem among))

theorem members_good {line : ValidationLine} (safe : line.Safe) :
    ∀ member ∈ line.members, member.2.Good ∧ member.2.Bytes := by
  obtain ⟨check, expected, actual, severity⟩ := safe
  simp only [ValidationLine.members, List.forall_mem_cons]
  exact ⟨safe_keyText check, safe_keyText expected, actual, safe_keyText severity, List.forall_mem_nil _⟩

theorem reportPiece_sound {lines : List ValidationLine} (safe : ∀ line ∈ lines, line.Safe) :
    (reportPiece lines).Sound := by
  have items : (arrayPiece (blanks 4) (blanks 2) (lines.map (fun line => compactPiece line.members))).Sound := by
    apply arrayPiece_sound (blanks_blank 4) (blanks_blank 2)
    · rw [List.forall_mem_map]
      exact fun line among => compactPiece_sound (by simp [ValidationLine.members])
        (fun member inside => ⟨(members_keys line member inside).1, (members_good (safe line among) member inside).1⟩)
    · rw [List.forall_mem_map]
      exact fun line _ => ⟨_, rfl⟩
  have status : Readable ("status".toList, stringPiece "ready".toList) := readable_string (by decide) _
  have inner : Readable ("checks".toList, _) := readable (by decide) items
  exact @readable_object 2 0 _ (List.cons_ne_nil _ _)
    (List.forall_mem_cons.mpr ⟨status, List.forall_mem_cons.mpr ⟨inner, List.forall_mem_nil _⟩⟩)

theorem reportPiece_good (lines : List ValidationLine) : (reportPiece lines).good := by
  have items : ∀ item ∈ lines.map (fun line => compactPiece line.members), item.good := by
    rw [List.forall_mem_map]
    exact fun _ _ => trivial
  have status : Plain "ready".toList := (keyText_plain (by decide)).1
  exact List.forall_mem_cons.mpr ⟨status, List.forall_mem_cons.mpr ⟨items, List.forall_mem_nil _⟩⟩

theorem reportPiece_bytes {lines : List ValidationLine} (safe : ∀ line ∈ lines, line.Safe) :
    utf8 (reportPiece lines).text := by
  have keys : ∀ key ∈ ["status".toList, "checks".toList], keyText key = true := by decide
  have status : utf8 (stringPiece "ready".toList).text := (utf8_quoted _).mpr (utf8_of_ascii (keyText_plain (by decide)).2)
  have items : utf8 (arrayPiece (blanks 4) (blanks 2) (lines.map (fun line => compactPiece line.members))).text := by
    rw [utf8_array (blanks_blank 4) (blanks_blank 2), List.forall_mem_map]
    exact fun line among => utf8_compact (fun member inside => (members_keys line member inside).2)
      (members_good (safe line among))
  apply (utf8_object (blanks_blank 2) (blanks_blank 0) fun member among =>
    (keyText_plain (keys member.1 (List.mem_map_of_mem among))).2).mpr
  exact List.forall_mem_cons.mpr ⟨status, List.forall_mem_cons.mpr ⟨items, List.forall_mem_nil _⟩⟩

/-- Every string that the program prints of its own can be read back. -/
theorem reportPiece_unspoilt (lines : List ValidationLine) (v : Value) : ¬ (reportPiece lines).spoilt v := by
  have status : Plain "ready".toList := (keyText_plain (by decide)).1
  rintro ⟨_, _, member, among, w, _, spoilt⟩
  rcases List.mem_pair.mp among with rfl | rfl
  · exact plain_unspoilt status w spoilt
  · obtain ⟨_, _, i, item, x, inside, _, spoilt⟩ := spoilt
    rw [List.getElem?_map] at inside
    obtain ⟨line, _, rfl⟩ := Option.map_eq_some_iff.mp inside
    exact spoilt

theorem reportPiece_value (host : Host) (rlimit : Option UInt64) :
    (reportPiece (checks host rlimit)).value = report host rlimit := by
  have items : ((checks host rlimit).map (fun line => compactPiece line.members)).map Piece.value =
      (checks host rlimit).map (fun line => compactValue line.members) := List.map_map
  unfold reportPiece report
  rw [← items]
  rfl

/-- The report can be read in one way: every check that could be made, under a status that is ready
even when a check is an error. -/
theorem validation_read (host : Host) (rlimit : Option UInt64) (safe : ∀ gov ∈ scalingGovernor host, Safe gov)
    (v : Value) : Text (validateSystem host rlimit) v ↔ v = report host rlimit := by
  have lines := checks_safe safe rlimit
  have sound := reportPiece_sound lines
  have newline : Json.LineEnd ['\n'] := ⟨[], Or.inr rfl⟩
  have bytes : utf8 ((reportPiece (checks host rlimit)).text ++ ['\n']) :=
    (utf8_ascii (by decide) _ _).mpr ⟨reportPiece_bytes lines, rfl⟩
  rw [report_text, ← reportPiece_value]
  constructor
  · rintro ⟨_, left, read, _⟩
    obtain ⟨_, same, _⟩ | spoilt := sound.only _ _ _ newline read
    · exact same
    · exact absurd spoilt (reportPiece_unspoilt _ v)
  · rintro rfl
    exact ⟨bytes, ['\n'], sound.read (reportPiece_good _) _ newline, rfl⟩

def savingHost : Host := Host.pair (fun _ => some "powersave\n".toList)

theorem saving_validation_read :
    Text (validateSystem savingHost (some 1024)) (.object [("status".toList, .string "ready".toList),
      ("checks".toList, .array ((checks savingHost (some 1024)).map (fun line => compactValue line.members)))]) := by
  have governor : ∀ gov ∈ scalingGovernor savingHost, Safe gov := by
    rintro gov ⟨⟩
    exact safe_keyText (by decide)
  exact (validation_read savingHost (some 1024) governor _).mpr rfl

end ServMark
