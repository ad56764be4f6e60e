import ServMark.Harness
import ServMark.Library.JsonLines

/-! output_generate_uuid and output_provenance of output.c: the number of a run and its JSON record,
printed piece by piece. Strings are printed as they are. -/
namespace ServMark
open CText Printf Json

def ssbVersion : List Char := "1.0.0".toList

/-- The sixteen bytes read from /dev/urandom, none if it cannot be opened or gives fewer, and else the
results of rand(). -/
def outputGenerateUuid (urandom : Option (Vector UInt8 16)) (rand : Nat → UInt32) : List Char :=
  match urandom with
  | some r =>
    let r := (r.set 6 (r[6] &&& 0x0f ||| 0x40)).set 8 (r[8] &&& 0x3f ||| 0x80)
    let bytes := fun first count => ((r.toList.drop first).take count).flatMap (fun byte => printHex 2 byte.toNat)
    ['-'].intercalate [bytes 0 4, bytes 4 2, bytes 6 2, bytes 8 2, bytes 10 6]
  | none =>
    ['-'].intercalate [printHex 8 (rand 0).toNat, printHex 4 (rand 1 &&& 0xffff).toNat,
      printHex 4 (rand 2 &&& 0x0fff ||| 0x4000).toNat, printHex 4 (rand 3 &&& 0x3fff ||| 0x8000).toNat,
      printHex 4 (rand 4 &&& 0xffff).toNat ++ printHex 8 (rand 5).toNat]

/-- The fields of system_info_t that the record prints. -/
structure SystemInfo where
  cpuModel : List Char
  cpuCoresPhysical : Int
  numaNodeCount : Int
  kernelVersion : List Char
  pageSize : Nat

/- A run result with what the record prints besides the subtests. -/
structure ProvenanceResult (α : Type) extends RunResult α where
  runId : List Char
  overallScore : α
  pillarThroughput : α
  pillarLatency : α
  pillarEfficiency : α
  mitigationTaxPct : α
  thermalDeratingFactor : α
  sysinfo : Option SystemInfo

def modeText : RunMode → List Char
  | .peak => "peak".toList
  | _ => "sustained".toList

/-- The conversion %s of a pointer that may be NULL. -/
def labelText (label : Option String) : List Char := (label.getD "(null)").toList

def blanks (n : Nat) : List Char := List.replicate n ' '

/-- The text  "key": value  behind so many blanks. -/
def field (indent : Nat) (key : String) (value : List Char) : List Char :=
  blanks indent ++ quoted key.toList ++ ':' :: ' ' :: value

def nextLine : List Char := [',', '\n']

section Output
variable {α : Type} [Field α] [LinearOrder α] [FloorRing α]

def systemText (info : SystemInfo) : List Char :=
  field 2 "system" ['\x7b', '\n'] ++
  field 4 "cpu_model" (quoted info.cpuModel) ++ nextLine ++
  field 4 "cpu_cores" (printInt info.cpuCoresPhysical) ++ nextLine ++
  field 4 "numa_nodes" (printInt info.numaNodeCount) ++ nextLine ++
  field 4 "kernel" (quoted info.kernelVersion) ++ nextLine ++
  field 4 "page_size" (printNat info.pageSize) ++ ['\n'] ++
  blanks 2 ++ ['\x7d'] ++ nextLine

/-- One turn of the loop over the subtests; a comma follows each but the last. -/
def subtestText (sr : SubtestResult α) (more : Bool) : List Char :=
  blanks 4 ++ ['\x7b', '\n'] ++
  field 6 "name" (quoted sr.bench.name.toList) ++ nextLine ++
  field 6 "category" (quoted sr.bench.category.toList) ++ nextLine ++
  field 6 "status" (quoted sr.status.toList) ++ nextLine ++
  field 6 "mean" (printFixed 6 sr.stats.mean) ++ nextLine ++
  field 6 "cv" (printFixed 4 sr.stats.cv) ++ nextLine ++
  field 6 "reliability" (quoted (labelText sr.stats.reliability)) ++ nextLine ++
  field 6 "ci_95" ('[' :: printFixed 6 sr.stats.ciLower ++ [',', ' '] ++ printFixed 6 sr.stats.ciUpper ++ [']']) ++
    nextLine ++
  field 6 "iterations" (printInt sr.stats.iterations) ++ ['\n'] ++
  blanks 4 ++ ['\x7d'] ++ (if more then [','] else []) ++ ['\n']

def outputProvenance (r : ProvenanceResult α) : List Char :=
  ['\x7b', '\n'] ++
  field 2 "servmark_version" (quoted ssbVersion) ++ nextLine ++
  field 2 "run_id" (quoted r.runId) ++ nextLine ++
  field 2 "run_mode" (quoted (modeText r.config.mode)) ++ nextLine ++
  field 2 "overall_score" (printFixed 4 r.overallScore) ++ nextLine ++
  field 2 "pillars" ['\x7b', '\n'] ++
  field 4 "throughput" (printFixed 4 r.pillarThroughput) ++ nextLine ++
  field 4 "latency" (printFixed 4 r.pillarLatency) ++ nextLine ++
  field 4 "efficiency" (printFixed 4 r.pillarEfficiency) ++ ['\n'] ++
  blanks 2 ++ ['\x7d'] ++ nextLine ++
  field 2 "mitigation_tax_pct" (printFixed 1 (r.mitigationTaxPct * (100 : Nat))) ++ nextLine ++
  field 2 "thermal_derating" (printFixed 3 r.thermalDeratingFactor) ++ nextLine ++
  (r.sysinfo.map systemText).getD [] ++
  field 2 "subtests" ['[', '\n'] ++
  r.subtests.zipIdx.flatMap (fun p => subtestText p.1 (decide ((p.2 : Int) < r.subtests.length - 1))) ++
  blanks 2 ++ [']', '\n', '\x7d', '\n']

end Output

/- The record as pieces of JSON. -/
section Pieces
variable {α : Type} [Field α] [LinearOrder α] [FloorRing α]

def systemMembers (info : SystemInfo) : List (List Char × Piece) := [
  ("cpu_model".toList, stringPiece info.cpuModel),
  ("cpu_cores".toList, numberPiece (printInt info.cpuCoresPhysical)),
  ("numa_nodes".toList, numberPiece (printInt info.numaNodeCount)),
  ("kernel".toList, stringPiece info.kernelVersion),
  ("page_size".toList, numberPiece (printNat info.pageSize))]

def subtestMembers (sr : SubtestResult α) : List (List Char × Piece) := [
  ("name".toList, stringPiece sr.bench.name.toList),
  ("category".toList, stringPiece sr.bench.category.toList),
  ("status".toList, stringPiece sr.status.toList),
  ("mean".toList, numberPiece (printFixed 6 sr.stats.mean)),
  ("cv".toList, numberPiece (printFixed 4 sr.stats.cv)),
  ("reliability".toList, stringPiece (labelText sr.stats.reliability)),
  ("ci_95".toList, rangePiece (printFixed 6 sr.stats.ciLower) (printFixed 6 sr.stats.ciUpper)),
  ("iterations".toList, numberPiece (printInt sr.stats.iterations))]

def pillarMembers (r : ProvenanceResult α) : List (List Char × Piece) := [
  ("throughput".toList, numberPiece (printFixed 4 r.pillarThroughput)),
  ("latency".toList, numberPiece (printFixed 4 r.pillarLatency)),
  ("efficiency".toList, numberPiece (printFixed 4 r.pillarEfficiency))]

def subtestsPiece (r : ProvenanceResult α) : Piece :=
  arrayPiece (blanks 4) (blanks 2) (r.subtests.map (fun sr => objectPiece (blanks 6) (blanks 4) (subtestMembers sr)))

def members (r : ProvenanceResult α) : List (List Char × Piece) := [
  ("servmark_version".toList, stringPiece ssbVersion),
  ("run_id".toList, stringPiece r.runId),
  ("run_mode".toList, stringPiece (modeText r.config.mode)),
  ("overall_score".toList, numberPiece (printFixed 4 r.overallScore)),
  ("pillars".toList, objectPiece (blanks 4) (blanks 2) (pillarMembers r)),
  ("mitigation_tax_pct".toList, numberPiece (printFixed 1 (r.mitigationTaxPct * (100 : Nat)))),
  ("thermal_derating".toList, numberPiece (printFixed 3 r.thermalDeratingFactor))] ++
  (r.sysinfo.map (fun info => ("system".toList, objectPiece (blanks 4) (blanks 2) (systemMembers info)))).toList ++
  [("subtests".toList, subtestsPiece r)]

def record (r : ProvenanceResult α) : Piece := objectPiece (blanks 2) [] (members r)

theorem systemText_eq (info : SystemInfo) : systemText info =
    memberText (blanks 2) ("system".toList, objectPiece (blanks 4) (blanks 2) (systemMembers info)) ++ nextLine := by
  simp only [systemText, field, nextLine, objectPiece, systemMembers, stringPiece, numberPiece, List.map_cons,
    List.map_nil, memberText, commaLines, List.append_assoc, List.cons_append, List.nil_append]

theorem subtestText_eq (sr : SubtestResult α) (more : Bool) : subtestText sr more =
    blanks 4 ++ (objectPiece (blanks 6) (blanks 4) (subtestMembers sr)).text ++ (if more then [','] else []) ++
      ['\n'] := by
  unfold subtestText objectPiece subtestMembers
  generalize printFixed 6 sr.stats.mean = mean, printFixed 4 sr.stats.cv = cv, printFixed 6 sr.stats.ciLower = low,
    printFixed 6 sr.stats.ciUpper = high, printInt sr.stats.iterations = iterations,
    (if more then [','] else []) = comma
  simp only [field, nextLine, stringPiece, numberPiece, rangePiece, List.map_cons, List.map_nil, memberText, commaLines,
    List.append_assoc, List.cons_append, List.nil_append]

theorem subtests_eq (r : ProvenanceResult α) :
    r.subtests.zipIdx.flatMap (fun p => subtestText p.1 (decide ((p.2 : Int) < r.subtests.length - 1))) =
      commaLines ((r.subtests.map (fun sr => objectPiece (blanks 6) (blanks 4) (subtestMembers sr))).map
        (fun item => blanks 4 ++ item.text)) := by
  rw [commaLines_loop, List.map_map, List.zipIdx_map, List.flatMap_map, List.length_map]
  refine List.flatMap_congr fun p _ => ?_
  rw [subtestText_eq]
  simp

/-- What is printed is the text of the pieces. -/
theorem outputProvenance_eq (r : ProvenanceResult α) : outputProvenance r = (record r).text ++ ['\n'] := by
  have system : (r.sysinfo.map systemText).getD [] =
      ((r.sysinfo.map (fun info => ("system".toList, objectPiece (blanks 4) (blanks 2) (systemMembers info)))).toList.map
        (memberText (blanks 2))).flatMap (fun line => line ++ [',', '\n']) := by
    cases r.sysinfo with
    | none => rfl
    | some info => simp [systemText_eq, nextLine]
  unfold outputProvenance record objectPiece members subtestsPiece arrayPiece pillarMembers
  rw [List.map_append, List.map_append, List.map_singleton, commaLines_snoc, system, subtests_eq]
  generalize printFixed 4 r.overallScore = score, printFixed 4 r.pillarThroughput = throughput,
    printFixed 4 r.pillarLatency = latency, printFixed 4 r.pillarEfficiency = efficiency,
    printFixed 1 (r.mitigationTaxPct * (100 : Nat)) = tax, printFixed 3 r.thermalDeratingFactor = derating
  simp only [field, nextLine, stringPiece, numberPiece, List.map_cons, List.map_nil, memberText, commaLines,
    List.flatMap_cons, List.append_assoc, List.cons_append, List.nil_append, objectPiece]

theorem blanks_blank (n : Nat) : ∀ c ∈ blanks n, isBlank c = true := by
  intro c member
  rw [List.eq_of_mem_replicate member]
  decide

/-- A key is ASCII and needs no escapes. -/
def keyText (key : List Char) : Bool := key.all (fun c => isPlain c && decide (c.toNat < 0x80))

theorem keyText_plain {key : List Char} (own : keyText key = true) : Plain key ∧ Ascii key := by
  simp only [keyText, List.all_eq_true, Bool.and_eq_true, decide_eq_true_eq] at own
  exact ⟨fun c member => (own c member).1, fun c member => (own c member).2⟩

/- What each member of the record owes: a key that can be read back and a sound value. -/
def Readable (member : List Char × Piece) : Prop := keyText member.1 = true ∧ member.2.Sound

theorem readable_object {gap close : Nat} {fields : List (List Char × Piece)} (some_ : fields ≠ [])
    (own : ∀ member ∈ fields, Readable member) : (objectPiece (blanks gap) (blanks close) fields).Sound :=
  objectPiece_sound (blanks_blank gap) (blanks_blank close) some_
    (fun member among => ⟨(keyText_plain (own member among).1).1, (own member among).2⟩)

theorem readable {key : List Char} {p : Piece} (own : keyText key = true) (sound : p.Sound) : Readable (key, p) :=
  ⟨own, sound⟩

theorem readable_string {key : List Char} (own : keyText key = true) (s : List Char) : Readable (key, stringPiece s) :=
  ⟨own, stringPiece_sound s⟩

theorem readable_int {key : List Char} (own : keyText key = true) (n : Int) :
    Readable (key, numberPiece (printInt n)) := ⟨own, numberPiece_sound (printInt_number n)⟩

theorem readable_fixed {key : List Char} (own : keyText key = true) (places : Nat) (x : α) :
    Readable (key, numberPiece (printFixed places x)) := ⟨own, numberPiece_sound (printFixed_number places x)⟩

theorem systemMembers_readable (info : SystemInfo) : ∀ member ∈ systemMembers info, Readable member := by
  simp only [systemMembers, List.forall_mem_cons]
  exact ⟨readable_string (by decide) _, readable_int (by decide) _, readable_int (by decide) _,
    readable_string (by decide) _, readable (by decide) (numberPiece_sound (printNat_number _)), nofun⟩

theorem subtestMembers_readable (sr : SubtestResult α) : ∀ member ∈ subtestMembers sr, Readable member := by
  simp only [subtestMembers, List.forall_mem_cons]
  exact ⟨readable_string (by decide) _, readable_string (by decide) _, readable_string (by decide) _,
    readable_fixed (by decide) 6 _, readable_fixed (by decide) 4 _, readable_string (by decide) _,
    readable (by decide) (rangePiece_sound (printFixed_number 6 _) (printFixed_number 6 _)),
    readable_int (by decide) _, nofun⟩

theorem pillarMembers_readable (r : ProvenanceResult α) : ∀ member ∈ pillarMembers r, Readable member := by
  simp only [pillarMembers, List.forall_mem_cons]
  exact ⟨readable_fixed (by decide) 4 _, readable_fixed (by decide) 4 _, readable_fixed (by decide) 4 _, nofun⟩

theorem subtestsPiece_sound (r : ProvenanceResult α) : (subtestsPiece r).Sound := by
  apply arrayPiece_sound (blanks_blank 4) (blanks_blank 2)
  · rw [List.forall_mem_map]
    exact fun sr _ => readable_object (by simp [subtestMembers]) (subtestMembers_readable sr)
  · rw [List.forall_mem_map]
    exact fun sr _ => ⟨_, rfl⟩

theorem members_readable (r : ProvenanceResult α) : ∀ member ∈ members r, Readable member := by
  have system : ∀ member ∈ (r.sysinfo.map (fun info =>
      ("system".toList, objectPiece (blanks 4) (blanks 2) (systemMembers info)))).toList, Readable member := by
    cases r.sysinfo with
    | none => nofun
    | some info =>
      rw [Option.map_some, Option.toList_some, List.forall_mem_singleton]
      exact readable (by decide) (readable_object (by simp [systemMembers]) (systemMembers_readable info))
  have pillars : (objectPiece (blanks 4) (blanks 2) (pillarMembers r)).Sound :=
    readable_object (by simp [pillarMembers]) (pillarMembers_readable r)
  simp only [members, List.forall_mem_append, List.forall_mem_cons]
  exact ⟨⟨⟨readable_string (by decide) _, readable_string (by decide) _, readable_string (by decide) _,
    readable_fixed (by decide) 4 _, readable (by decide) pillars, readable_fixed (by decide) 1 _,
    readable_fixed (by decide) 3 _, nofun⟩, system⟩, readable (by decide) (subtestsPiece_sound r), nofun⟩

theorem record_sound (r : ProvenanceResult α) : (record r).Sound :=
  objectPiece_sound (blanks_blank 2) (blanks_blank 0) (by simp [members])
    (fun member among => ⟨(keyText_plain (members_readable r member among).1).1, (members_readable r member among).2⟩)

end Pieces

/- The strings of the record, all with one property. -/
section Strings
variable {α : Type} (P : List Char → Prop)

def SystemStrings (info : SystemInfo) : Prop := P info.cpuModel ∧ P info.kernelVersion

def SubtestStrings (sr : SubtestResult α) : Prop :=
  P sr.bench.name.toList ∧ P sr.bench.category.toList ∧ P sr.status.toList

/-- The strings that the run names for itself: its number and the reliability labels. -/
def OwnStrings (r : ProvenanceResult α) : Prop :=
  P r.runId ∧ ∀ sr ∈ r.subtests, P (labelText sr.stats.reliability)

/-- The strings that come from outside. -/
def OutsideStrings (r : ProvenanceResult α) : Prop :=
  (∀ info, r.sysinfo = some info → SystemStrings P info) ∧ ∀ sr ∈ r.subtests, SubtestStrings P sr

variable [Field α] [LinearOrder α] [FloorRing α]

theorem modeText_keyText (mode : RunMode) : keyText (modeText mode) = true := by
  cases mode <;> decide

/-- A property of pieces that only the strings in them decide. -/
structure DecidedByStrings (Q : Piece → Prop) : Prop where
  ascii : ∀ s, keyText s = true → P s
  string : ∀ s, Q (stringPiece s) ↔ P s
  number : ∀ text, Number text → Q (numberPiece text)
  range : ∀ low high, Number low → Number high → Q (rangePiece low high)
  object : ∀ gap close fields, (∀ member ∈ fields, keyText member.1 = true) →
    (Q (objectPiece (blanks gap) (blanks close) fields) ↔ ∀ member ∈ fields, Q member.2)
  array : ∀ gap close items, Q (arrayPiece (blanks gap) (blanks close) items) ↔ ∀ item ∈ items, Q item

variable {P} {Q : Piece → Prop} (decided : DecidedByStrings P Q)
include decided

theorem system_strings (info : SystemInfo) :
    Q (objectPiece (blanks 4) (blanks 2) (systemMembers info)) ↔ SystemStrings P info := by
  rw [decided.object 4 2 _ (fun member among => (systemMembers_readable info member among).1)]
  have int (n : Int) := decided.number _ (printInt_number n)
  have size := decided.number _ (printNat_number info.pageSize)
  simp only [systemMembers, List.forall_mem_cons, decided.string, int, size, true_and, SystemStrings]
  simp

theorem subtest_strings (sr : SubtestResult α) :
    Q (objectPiece (blanks 6) (blanks 4) (subtestMembers sr)) ↔
      SubtestStrings P sr ∧ P (labelText sr.stats.reliability) := by
  rw [decided.object 6 4 _ (fun member among => (subtestMembers_readable sr member among).1)]
  have int (n : Int) := decided.number _ (printInt_number n)
  have fixed (places : Nat) (x : α) := decided.number _ (printFixed_number places x)
  have range (x y : α) := decided.range _ _ (printFixed_number 6 x) (printFixed_number 6 y)
  simp only [subtestMembers, List.forall_mem_cons, decided.string, int, fixed, range, true_and, SubtestStrings]
  simp [and_assoc]

theorem record_strings (r : ProvenanceResult α) : Q (record r) ↔ OwnStrings P r ∧ OutsideStrings P r := by
  have fixed (places : Nat) (x : α) := decided.number _ (printFixed_number places x)
  have version := decided.ascii ssbVersion (by decide)
  have mode := decided.ascii _ (modeText_keyText r.config.mode)
  have pillars : Q (objectPiece (blanks 4) (blanks 2) (pillarMembers r)) := by
    rw [decided.object 4 2 _ (fun member among => (pillarMembers_readable r member among).1)]
    simp only [pillarMembers, List.forall_mem_cons]
    exact ⟨fixed 4 _, fixed 4 _, fixed 4 _, nofun⟩
  have subtests : Q (subtestsPiece r) ↔
      ∀ sr ∈ r.subtests, SubtestStrings P sr ∧ P (labelText sr.stats.reliability) := by
    rw [subtestsPiece, decided.array, List.forall_mem_map]
    exact forall₂_congr fun sr _ => subtest_strings decided sr
  have system : (∀ member ∈ (r.sysinfo.map (fun info =>
      ("system".toList, objectPiece (blanks 4) (blanks 2) (systemMembers info)))).toList, Q member.2) ↔
      ∀ info, r.sysinfo = some info → SystemStrings P info := by
    cases r.sysinfo with
    | none => simp
    | some info => simp [system_strings decided]
  have whole := decided.object 2 0 _ (fun member among => (members_readable r member among).1)
  rw [record, show ([] : List Char) = blanks 0 from rfl, whole]
  simp only [members, List.forall_mem_append, List.forall_mem_cons, decided.string, fixed, version, mode, pillars,
    subtests, system, true_and, OwnStrings, OutsideStrings]
  constructor
  · rintro ⟨⟨⟨own, _⟩, outside⟩, rows, _⟩
    exact ⟨⟨own, fun sr among => (rows sr among).2⟩, outside, fun sr among => (rows sr among).1⟩
  · rintro ⟨⟨own, labels⟩, outside, rows⟩
    exact ⟨⟨⟨own, nofun⟩, outside⟩, fun sr among => ⟨rows sr among, labels sr among⟩, nofun⟩

end Strings

theorem decided_good : DecidedByStrings Plain Piece.good where
  ascii _ own := (keyText_plain own).1
  string _ := Iff.rfl
  number _ _ := trivial
  range _ _ _ _ := trivial
  object _ _ _ _ := Iff.rfl
  array _ _ _ := Iff.rfl

theorem decided_utf8 : DecidedByStrings utf8 (fun p => utf8 p.text) where
  ascii _ own := utf8_of_ascii (keyText_plain own).2
  string s := utf8_quoted s
  number _ number := utf8_number number
  range _ _ first second := utf8_range first second
  object gap close _ keys := utf8_object (blanks_blank gap) (blanks_blank close)
    (fun member among => (keyText_plain (keys member among)).2)
  array gap close items := utf8_array (blanks_blank gap) (blanks_blank close) items

/-- The members of one name all have the same value, and there is one. -/
def Under (fields : List (List Char × Value)) (key : String) (v : Value) : Prop :=
  (key.toList, v) ∈ fields ∧ ∀ w, (key.toList, w) ∈ fields → w = v

section Faithful
variable {α : Type} [Field α] [LinearOrder α] [FloorRing α]

def SubtestRead (sr : SubtestResult α) (item : Value) : Prop :=
  ∃ fields, item = .object fields ∧ Under fields "name" (.string sr.bench.name.toList) ∧
    Under fields "category" (.string sr.bench.category.toList) ∧ Under fields "status" (.string sr.status.toList)

/-- The members give the strings of the result back, each subtest in its place. -/
def Found (r : ProvenanceResult α) (fields : List (List Char × Value)) : Prop :=
  (∀ info, r.sysinfo = some info → ∃ system, Under fields "system" (.object system) ∧
    Under system "cpu_model" (.string info.cpuModel) ∧ Under system "kernel" (.string info.kernelVersion)) ∧
  ∃ items, Under fields "subtests" (.array items) ∧ List.Forall₂ SubtestRead r.subtests items

/-- The record is one JSON object that gives the strings of the result back. -/
def Faithful (r : ProvenanceResult α) : Prop :=
  ∃ fields, Text (outputProvenance r) (.object fields) ∧ Found r fields

/-- A string that JSON can hold without escapes. -/
def Safe (s : List Char) : Prop := Plain s ∧ utf8 s

omit [Field α] [LinearOrder α] [FloorRing α] in
theorem own_safe {r : ProvenanceResult α} : OwnStrings Safe r ↔ OwnStrings Plain r ∧ OwnStrings utf8 r := by
  simp only [OwnStrings, Safe, forall_and]
  exact and_and_and_comm

omit [Field α] [LinearOrder α] [FloorRing α] in
theorem outside_safe {r : ProvenanceResult α} :
    OutsideStrings Safe r ↔ OutsideStrings Plain r ∧ OutsideStrings utf8 r := by
  simp only [OutsideStrings, SystemStrings, SubtestStrings, Safe, forall_and]
  tauto

theorem record_bytes (r : ProvenanceResult α) :
    utf8 (outputProvenance r) ↔ OwnStrings utf8 r ∧ OutsideStrings utf8 r := by
  have newline := utf8_ascii (show '\n'.toNat < 0x80 by decide) (record r).text []
  have none : utf8 [] := rfl
  rw [outputProvenance_eq, newline, and_iff_left none]
  exact record_strings decided_utf8 r

theorem under_member {pieces : List (List Char × Piece)} (distinct : (pieces.map Prod.fst).Nodup) {key : String}
    {p : Piece} (among : (key.toList, p) ∈ pieces) :
    Under (pieces.map (fun member => (member.1, member.2.value))) key p.value := by
  refine ⟨List.mem_map.mpr ⟨_, among, rfl⟩, fun w found => ?_⟩
  obtain ⟨member, there, eq⟩ := List.mem_map.mp found
  obtain ⟨same, rfl⟩ := Prod.mk.inj eq
  rw [List.inj_on_of_nodup_map distinct there among same]

theorem members_distinct (r : ProvenanceResult α) : ((members r).map Prod.fst).Nodup := by
  unfold members
  cases r.sysinfo with
  | none => exact (by decide : ["servmark_version".toList, "run_id".toList, "run_mode".toList, "overall_score".toList,
      "pillars".toList, "mitigation_tax_pct".toList, "thermal_derating".toList, "subtests".toList].Nodup)
  | some info => exact (by decide : ["servmark_version".toList, "run_id".toList, "run_mode".toList,
      "overall_score".toList, "pillars".toList, "mitigation_tax_pct".toList, "thermal_derating".toList,
      "system".toList, "subtests".toList].Nodup)

theorem systemMembers_distinct (info : SystemInfo) : ((systemMembers info).map Prod.fst).Nodup :=
  (by decide : ["cpu_model".toList, "cpu_cores".toList, "numa_nodes".toList, "kernel".toList,
    "page_size".toList].Nodup)

theorem subtestMembers_distinct (sr : SubtestResult α) : ((subtestMembers sr).map Prod.fst).Nodup :=
  (by decide : ["name".toList, "category".toList, "status".toList, "mean".toList, "cv".toList, "reliability".toList,
    "ci_95".toList, "iterations".toList].Nodup)

theorem record_found (r : ProvenanceResult α) :
    Found r ((members r).map (fun member => (member.1, member.2.value))) := by
  constructor
  · intro info eq
    have there : ("system".toList, objectPiece (blanks 4) (blanks 2) (systemMembers info)) ∈ members r := by
      simp [members, eq]
    have model : ("cpu_model".toList, stringPiece info.cpuModel) ∈ systemMembers info := by simp [systemMembers]
    have kernel : ("kernel".toList, stringPiece info.kernelVersion) ∈ systemMembers info := by simp [systemMembers]
    exact ⟨_, under_member (members_distinct r) there, under_member (systemMembers_distinct info) model,
      under_member (systemMembers_distinct info) kernel⟩
  · have there : ("subtests".toList, subtestsPiece r) ∈ members r := by simp [members]
    refine ⟨_, under_member (members_distinct r) there, ?_⟩
    rw [List.forall₂_map_right_iff, List.forall₂_map_right_iff]
    refine List.forall₂_same.mpr (fun sr _ => ?_)
    have distinct := subtestMembers_distinct sr
    have name : ("name".toList, stringPiece sr.bench.name.toList) ∈ subtestMembers sr := by simp [subtestMembers]
    have category : ("category".toList, stringPiece sr.bench.category.toList) ∈ subtestMembers sr := by
      simp [subtestMembers]
    have status : ("status".toList, stringPiece sr.status.toList) ∈ subtestMembers sr := by simp [subtestMembers]
    exact ⟨_, rfl, under_member distinct name, under_member distinct category, under_member distinct status⟩

omit [Field α] [LinearOrder α] [FloorRing α] in
theorem string_unspoilt {fields : List (List Char × Value)} {key : String} {s : List Char}
    (found : Under fields key (.string s)) {w : Value} (inside : (key.toList, w) ∈ fields) :
    ¬ (stringPiece s).spoilt w := by
  rintro ⟨_, d, rfl, other⟩
  exact other (Value.string.inj (found.2 _ inside))

theorem plain_unspoilt {s : List Char} (plain : Plain s) (w : Value) : ¬ (stringPiece s).spoilt w :=
  fun spoilt => spoilt.1 plain

theorem numbers_unspoilt {gap close : List Char} {fields : List (List Char × Piece)}
    (none : ∀ member ∈ fields, ∀ w, ¬ member.2.spoilt w) (w : Value) : ¬ (objectPiece gap close fields).spoilt w := by
  rintro ⟨_, _, member, among, w, _, spoilt⟩
  exact none member among w spoilt

theorem system_unspoilt {info : SystemInfo} {fields : List (List Char × Value)} (gap close : List Char)
    (model : Under fields "cpu_model" (.string info.cpuModel))
    (kernel : Under fields "kernel" (.string info.kernelVersion)) :
    ¬ (objectPiece gap close (systemMembers info)).spoilt (.object fields) := by
  rintro ⟨_, eq, member, among, w, inside, spoilt⟩
  cases eq
  simp only [systemMembers, List.mem_cons, List.not_mem_nil, or_false] at among
  obtain rfl | rfl | rfl | rfl | rfl := among
  · exact string_unspoilt model inside spoilt
  · exact spoilt
  · exact spoilt
  · exact string_unspoilt kernel inside spoilt
  · exact spoilt

theorem subtest_unspoilt {sr : SubtestResult α} {item : Value} (gap close : List Char) (read : SubtestRead sr item)
    (own : Plain (labelText sr.stats.reliability)) :
    ¬ (objectPiece gap close (subtestMembers sr)).spoilt item := by
  obtain ⟨fields, rfl, name, category, status⟩ := read
  rintro ⟨_, eq, member, among, w, inside, spoilt⟩
  cases eq
  simp only [subtestMembers, List.mem_cons, List.not_mem_nil, or_false] at among
  obtain rfl | rfl | rfl | rfl | rfl | rfl | rfl | rfl := among
  · exact string_unspoilt name inside spoilt
  · exact string_unspoilt category inside spoilt
  · exact string_unspoilt status inside spoilt
  · exact spoilt
  · exact spoilt
  · exact plain_unspoilt own w spoilt
  · exact spoilt
  · exact spoilt

theorem subtests_unspoilt {r : ProvenanceResult α} {items : List Value}
    (rows : List.Forall₂ SubtestRead r.subtests items)
    (own : ∀ sr ∈ r.subtests, Plain (labelText sr.stats.reliability)) :
    ¬ (subtestsPiece r).spoilt (.array items) := by
  rintro ⟨_, eq, i, piece, w, among, inside, spoilt⟩
  cases eq
  rw [List.getElem?_map] at among
  obtain ⟨sr, at_i, rfl⟩ := Option.map_eq_some_iff.mp among
  obtain ⟨left, rfl⟩ := List.getElem?_eq_some_iff.mp at_i
  obtain ⟨right, rfl⟩ := List.getElem?_eq_some_iff.mp inside
  exact subtest_unspoilt _ _ (rows.get left right) (own _ (List.getElem_mem left)) spoilt

omit [Field α] [LinearOrder α] [FloorRing α] in
theorem system_among {r : ProvenanceResult α} {member : List Char × Piece}
    (among : member ∈ (r.sysinfo.map (fun info =>
      ("system".toList, objectPiece (blanks 4) (blanks 2) (systemMembers info)))).toList) :
    ∃ info, r.sysinfo = some info ∧
      member = ("system".toList, objectPiece (blanks 4) (blanks 2) (systemMembers info)) := by
  simpa [eq_comm] using among

/-- A string from outside that is not read back spoils the record. -/
theorem record_unspoilt {r : ProvenanceResult α} (own : OwnStrings Plain r) {fields : List (List Char × Value)}
    (found : Found r fields) : ¬ (record r).spoilt (.object fields) := by
  obtain ⟨system, items, subtests, rows⟩ := found
  rintro ⟨_, eq, member, among, w, inside, spoilt⟩
  cases eq
  simp only [members, List.mem_append, List.mem_cons, List.not_mem_nil, or_false] at among
  obtain ((rfl | rfl | rfl | rfl | rfl | rfl | rfl) | there) | rfl := among
  · exact plain_unspoilt (keyText_plain (by decide)).1 w spoilt
  · exact plain_unspoilt own.1 w spoilt
  · exact plain_unspoilt (keyText_plain (modeText_keyText r.config.mode)).1 w spoilt
  · exact spoilt
  · refine numbers_unspoilt ?_ w spoilt
    simp only [pillarMembers, List.forall_mem_cons]
    exact ⟨fun _ => id, fun _ => id, fun _ => id, nofun⟩
  · exact spoilt
  · exact spoilt
  · obtain ⟨info, eq, rfl⟩ := system_among there
    obtain ⟨read, whole, model, kernel⟩ := system info eq
    obtain rfl := whole.2 w inside
    exact system_unspoilt _ _ model kernel spoilt
  · obtain rfl := subtests.2 w inside
    exact subtests_unspoilt rows own.2 spoilt

theorem outside_faithful {r : ProvenanceResult α} (own : OwnStrings Plain r) (faithful : Faithful r) :
    OutsideStrings Safe r := by
  obtain ⟨fields, ⟨bytes, left, reads, _⟩, found⟩ := faithful
  refine outside_safe.mpr ⟨?_, ((record_bytes r).mp bytes).2⟩
  rw [outputProvenance_eq] at reads
  obtain ⟨good, _⟩ | spoilt := (record_sound r).only ['\n'] _ left ⟨[], Or.inr rfl⟩ reads
  · exact ((record_strings decided_good r).mp good).2
  · exact absurd spoilt (record_unspoilt own found)

theorem faithful_outside {r : ProvenanceResult α} (own : OwnStrings Safe r) (outside : OutsideStrings Safe r) :
    Faithful r := by
  obtain ⟨own_plain, own_bytes⟩ := own_safe.mp own
  obtain ⟨plain, bytes⟩ := outside_safe.mp outside
  have good := (record_strings decided_good r).mpr ⟨own_plain, plain⟩
  have reads := (record_sound r).read good ['\n'] ⟨[], Or.inr rfl⟩
  rw [← outputProvenance_eq] at reads
  exact ⟨_, ⟨(record_bytes r).mpr ⟨own_bytes, bytes⟩, _, reads, rfl⟩, record_found r⟩

/-- With the names the run gives itself as the program makes them, the record is faithful exactly if
the strings from outside need no escapes and are UTF-8. -/
theorem provenance_faithful_iff (r : ProvenanceResult α) (own : OwnStrings Safe r) :
    Faithful r ↔ OutsideStrings Safe r :=
  ⟨outside_faithful (own_safe.mp own).1, faithful_outside own⟩

end Faithful

theorem safe_keyText {key : List Char} (own : keyText key = true) : Safe key :=
  ⟨(keyText_plain own).1, utf8_of_ascii (keyText_plain own).2⟩

theorem uuid_keyText (urandom : Option (Vector UInt8 16)) (rand : Nat → UInt32) :
    keyText (outputGenerateUuid urandom rand) = true := by
  have digit : ∀ d, d < 16 → keyText [Nat.digitChar d] = true := by decide
  have hex (width n : Nat) : keyText (printHex width n) = true := by
    refine List.all_eq_true.mpr (fun c member => ?_)
    obtain ⟨d, lt, rfl⟩ := printHex_digits c member
    exact List.all_eq_true.mp (digit d lt) _ List.mem_cons_self
  have bytes (some_ : List UInt8) : keyText (some_.flatMap (fun byte => printHex 2 byte.toNat)) = true := by
    refine List.all_eq_true.mpr (fun c member => ?_)
    obtain ⟨byte, _, among⟩ := List.mem_flatMap.mp member
    exact List.all_eq_true.mp (hex 2 byte.toNat) c among
  have append (front back : List Char) : keyText (front ++ back) = (keyText front && keyText back) := List.all_append
  have dash : keyText ['-'] = true := by decide
  have dashes (a b c d e : List Char) : ['-'].intercalate [a, b, c, d, e] =
      a ++ (['-'] ++ (b ++ (['-'] ++ (c ++ (['-'] ++ (d ++ (['-'] ++ e))))))) := by simp [List.intercalate]
  unfold outputGenerateUuid
  cases urandom <;> simp only [dashes, append, dash, hex, bytes, Bool.and_self]

section Run
variable {α : Type} [Field α] [LinearOrder α] [Libm α]

end Run

/-- The run of one benchmark on a machine of that model. -/
def machineRun (model : String) : ProvenanceResult ℚ where
  config := mainConfig
  subtests := [⟨plainBenchmark ℚ, .zeroed ℚ, 0, "completed"⟩]
  runId := outputGenerateUuid none (fun _ => 0)
  overallScore := 0
  pillarThroughput := 0
  pillarLatency := 0
  pillarEfficiency := 0
  mitigationTaxPct := 0
  thermalDeratingFactor := 1
  sysinfo := some ⟨model.toList, 4, 1, "6.1.0".toList, 4096⟩

theorem machine_own (model : String) : OwnStrings Safe (machineRun model) := by
  refine ⟨safe_keyText (uuid_keyText none (fun _ => 0)), fun sr member => ?_⟩
  obtain rfl := List.mem_singleton.mp member
  exact safe_keyText (by decide)

theorem plain_machine_faithful : Faithful (machineRun "Xeon Gold") := by
  refine (provenance_faithful_iff _ (machine_own "Xeon Gold")).mpr ⟨fun info eq => ?_, fun sr member => ?_⟩
  · obtain rfl := Option.some.inj eq
    exact ⟨safe_keyText (by decide), safe_keyText (by decide)⟩
  · obtain rfl := List.mem_singleton.mp member
    exact ⟨safe_keyText (by decide), safe_keyText (by decide), safe_keyText (by decide)⟩

/-- A model name with quotation marks. -/
theorem quoted_machine_unfaithful : ¬ Faithful (machineRun "Xeon \"Gold\"") := by
  intro faithful
  have outside := outside_faithful (own_safe.mp (machine_own _)).1 faithful
  have plain : Plain "Xeon \"Gold\"".toList := (outside.1 _ rfl).1.1
  exact absurd (plain '"' (by decide)) (by decide)

end ServMark
