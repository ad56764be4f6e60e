import ServMark.Harness
import ServMark.Library.Strtod

/-! parse_config of main.c and what it selects: the settings a configuration file assigns,
and the names its benchmark lines hand to harness_run. -/
namespace ServMark
open CText

def maxBenchFilter : Nat := 64

/-- sizeof(line). -/
def lineSize : Nat := 512

def trim (s : List Char) : List Char := strip isspace s

/-- What parse_config fills: the configuration and the separate list of names. -/
structure ConfigState where
  config : RunConfig
  benchFilter : List String

/- 1 << tier in 32 bits. A shift by a negative number or by more than 31, for which C defines
nothing, takes the lowest five bits as the machine does. -/
def tierBit (tier : Int) : Nat := 2 ^ (tier % 32).toNat

/-- The second field of "C1 : name : description"; a value without colon has none. -/
def benchName (value : List Char) : Option (List Char) :=
  match strchr ':' value with
  | none => none
  | some (_, behind) =>
    let name := trim behind
    let name := match strchr ':' name with
      | none => name
      | some (field, _) => field
    some (trim name)

/-- The setting of one key. The two build-time keys print a warning, an unknown key nothing. -/
def assignSetting (c : RunConfig) (key : String) (value : List Char) : RunConfig :=
  if key = "runmode" then { c with mode := if value = "sustained".toList then .sustained else .peak }
  else if key = "threads" then { c with numInstances := atoi value }
  else if key = "output_dir" then { c with outputDir := String.ofList value }
  else if key = "tier" then { c with tierMask := tierBit (atoi value) }
  else if key = "category" then
    if value = [] then c else { c with categoryFilter := some (String.ofList value) }
  else if key = "mitigations_off" then { c with mitigationsOff := decide (atoi value ≠ 0) }
  else if key = "min_iterations" then { c with minIterations := atoi value }
  else if key = "max_iterations" then { c with maxIterations := atoi value }
  else if key = "convergence" then { c with convergenceTarget := atof value }
  else if key = "max_runtime" then { c with maxRuntimeSec := atoi value }
  else if key = "cooldown_sec" then { c with cooldownSec := atoi value }
  else if key = "reportable" then { c with reportable := decide (atoi value ≠ 0) }
  else if key = "require_validate" then { c with requireValidate := decide (atoi value ≠ 0) }
  else if key = "cpu_pin" then { c with cpuPinSpec := some (String.ofList value) }
  else if key = "numa_bind" ∨ key = "numa_topo" then { c with numaTopoSpec := some (String.ofList value) }
  else if key = "membind" then { c with membindSpec := some (String.ofList value) }
  else c

def assignKey (st : ConfigState) (key : String) (value : List Char) : ConfigState :=
  if key = "benchmark" then
    match benchName value with
    | none => st
    | some name => { st with benchFilter := Bounded.push maxBenchFilter st.benchFilter (String.ofList name) }
  else { st with config := assignSetting st.config key value }

/-- The key and the value in a line, unless it is blank, a comment or without '='. -/
def keyValue (line : List Char) : Option (String × List Char) :=
  let p := trim (cString line)
  if p.head? = some '#' ∨ p = [] then none
  else (strchr '=' p).map (fun parts => (String.ofList (trim parts.1), trim parts.2))

def parseLine (st : ConfigState) (line : List Char) : ConfigState :=
  match keyValue line with
  | none => st
  | some (key, value) => assignKey st key value

/-- The return code and the settings after the file, whose text is none when it cannot be
opened. -/
def parseConfig (text : Option (List Char)) (st : ConfigState) : Int × ConfigState :=
  match text with
  | none => (-1, st)
  | some text => (0, (fgetsAll lineSize text).foldl parseLine st)

def filterEntry (line : List Char) : Option String :=
  match keyValue line with
  | none => none
  | some (key, value) => if key = "benchmark" then (benchName value).map String.ofList else none

theorem keyValue_newline (line : List Char) : keyValue (line ++ ['\n']) = keyValue line := by
  have stripped : trim (cString (line ++ ['\n'])) = trim (cString line) := by
    rcases cString_append line ['\n'] with same | longer
    · rw [same]
    · rw [longer]
      have blank : cString ['\n'] = ['\n'] := rfl
      exact strip_right (by simp [blank, isspace]) (cString line)
  unfold keyValue
  rw [stripped]

theorem filterEntry_newline (line : List Char) : filterEntry (line ++ ['\n']) = filterEntry line := by
  rw [filterEntry, keyValue_newline, filterEntry]

theorem parseLine_filter (st : ConfigState) (line : List Char) :
    (parseLine st line).benchFilter =
      (filterEntry line).toList.foldl (Bounded.push maxBenchFilter) st.benchFilter := by
  unfold parseLine filterEntry
  cases keyValue line with
  | none => rfl
  | some pair =>
    obtain ⟨key, value⟩ := pair
    simp only [assignKey]
    split
    · cases benchName value <;> rfl
    · rfl

theorem foldl_filter (read : List (List Char)) (c : RunConfig) (names : List String) :
    (read.foldl parseLine ⟨c, names.take maxBenchFilter⟩).benchFilter =
      (names ++ read.filterMap filterEntry).take maxBenchFilter := by
  have lines : ∀ st : ConfigState, (read.foldl parseLine st).benchFilter =
      read.foldl (fun all line => (filterEntry line).toList.foldl (Bounded.push maxBenchFilter) all)
        st.benchFilter := by
    induction read with
    | nil => exact fun st => rfl
    | cons line read ih =>
      intro st
      rw [List.foldl_cons, ih, parseLine_filter, List.foldl_cons]
  have pushes := Bounded.foldl_pushes maxBenchFilter (fun line => (filterEntry line).toList) names read
  rw [← List.filterMap_eq_flatMap_toList] at pushes
  exact (lines _).trans pushes

theorem parseConfig_filter (text : List Char) (c : RunConfig) :
    (parseConfig (some text) ⟨c, []⟩).2.benchFilter =
      ((fgetsAll lineSize text).filterMap filterEntry).take maxBenchFilter :=
  foldl_filter (fgetsAll lineSize text) c []

theorem benchName_none {value : List Char} (absent : ':' ∉ value) : benchName value = none := by
  rw [benchName, strchr_none absent]

/-- Behind the second colon nothing is read. -/
theorem benchName_fields {first name : List Char} (one : ':' ∉ first) (two : ':' ∉ name) (behind : List Char) :
    benchName (first ++ ':' :: (name ++ ':' :: behind)) = some (trim name) := by
  have inner : ':' ∉ name.dropWhile isspace := fun member => two ((List.dropWhile_sublist _).mem member)
  unfold benchName
  simp only [strchr_append one, trim, strip_split (show isspace ':' = false by decide), strchr_append inner,
    strip_dropWhile]

/-- A line "benchmark = Cx : name : description" with any blanks around the key and the name.
The field first is what stands between '=' and the first colon. -/
structure BenchFields where
  lead : List Char
  gap : List Char
  first : List Char
  left : List Char
  name : List Char
  right : List Char
  description : List Char

def BenchFields.text (f : BenchFields) : List Char :=
  f.lead ++ "benchmark".toList ++ f.gap ++
    '=' :: (f.first ++ ':' :: (f.left ++ f.name ++ f.right ++ ':' :: f.description))

def BenchFields.wellFormed (f : BenchFields) : Bool :=
  (f.lead ++ f.gap ++ f.left ++ f.right).all isspace && !(f.first ++ f.name).contains ':' &&
    trim f.name == f.name && f.text.all (fun c => c != '\n' && c != Char.ofNat 0) && decide (f.text.length < 511)

structure BenchLine extends BenchFields where
  sound : toBenchFields.wellFormed = true

theorem BenchLine.facts (line : BenchLine) :
    (∀ c ∈ line.lead ++ line.gap ++ line.left ++ line.right, isspace c = true) ∧ ':' ∉ line.first ++ line.name ∧
      trim line.name = line.name ∧ (∀ c ∈ line.text, c ≠ '\n' ∧ c ≠ Char.ofNat 0) ∧ line.text.length < 511 := by
  have sound := line.sound
  simp only [BenchFields.wellFormed, Bool.and_eq_true, Bool.not_eq_true', List.contains_eq_mem,
    decide_eq_false_iff_not, List.all_eq_true, bne_iff_ne, beq_iff_eq, decide_eq_true_eq] at sound
  exact ⟨sound.1.1.1.1, sound.1.1.1.2, sound.1.1.2, sound.1.2, sound.2⟩

section Line
variable (line : BenchLine)

theorem BenchLine.blank {c : Char} (member : c ∈ line.lead ∨ c ∈ line.gap ∨ c ∈ line.left ∨ c ∈ line.right) :
    isspace c = true := line.facts.1 c (by simpa using member)

theorem BenchLine.solid {c : Char} (solid : isspace c = false) :
    c ∉ line.gap ∧ c ∉ line.left ∧ c ∉ line.right := by
  have absent : c ∉ line.lead ++ line.gap ++ line.left ++ line.right := by
    intro member
    rw [line.facts.1 c member] at solid
    cases solid
  simp only [List.mem_append, not_or] at absent
  exact ⟨absent.1.1.2, absent.1.2, absent.2⟩

theorem benchName_line (behind : List Char) : benchName (trim (line.first ++ ':' ::
    (line.left ++ line.name ++ line.right ++ ':' :: behind))) = some line.name := by
  have solid : isspace ':' = false := by decide
  have first : ':' ∉ line.first.dropWhile isspace := fun member =>
    line.facts.2.1 (List.mem_append_left _ ((List.dropWhile_sublist _).mem member))
  have second : ':' ∉ line.left ++ line.name ++ line.right := by
    intro member
    rcases List.mem_append.mp member with inner | right
    · rcases List.mem_append.mp inner with left | name
      · exact (line.solid solid).2.1 left
      · exact line.facts.2.1 (List.mem_append_right _ name)
    · exact (line.solid solid).2.2 right
  have field : trim (line.left ++ line.name ++ line.right) = line.name := by
    rw [trim, strip_right (fun c member => line.blank (by simp [member])),
      strip_left (fun c member => line.blank (by simp [member])), ← trim, line.facts.2.2.1]
  rw [trim, strip_split solid, rdropWhile_split solid, benchName_fields first second, field]

theorem keyValue_line : keyValue line.text = some ("benchmark",
    trim (line.first ++ ':' :: (line.left ++ line.name ++ line.right ++ ':' :: line.description))) := by
  have solid : isspace '=' = false := by decide
  have whole : cString line.text = line.text := cString_eq (fun c member => (line.facts.2.2.2.1 c member).2)
  have key : ("benchmark".toList ++ line.gap).dropWhile isspace = "benchmark".toList ++ line.gap := by
    simp [show isspace 'b' = false by decide]
  have absent : '=' ∉ "benchmark".toList ++ line.gap := by
    intro member
    rcases List.mem_append.mp member with literal | gap
    · exact absurd literal (by decide)
    · exact (line.solid solid).1 gap
  have stripped : trim line.text = "benchmark".toList ++ line.gap ++ '=' ::
      (line.first ++ ':' ::
        (line.left ++ line.name ++ line.right ++ ':' :: line.description)).rdropWhile isspace := by
    have lead : ∀ c ∈ line.lead, isspace c = true := fun c member => line.blank (by simp [member])
    rw [BenchFields.text, List.append_assoc, List.append_assoc, trim, strip_left lead, ← List.append_assoc,
      strip_split solid, key]
  have name : trim ("benchmark".toList ++ line.gap) = "benchmark".toList := by
    rw [trim, strip_right (fun c member => line.blank (by simp [member]))]
    decide
  have goes : ¬ ((trim line.text).head? = some '#' ∨ trim line.text = []) := by
    rw [stripped]
    simp
  unfold keyValue
  rw [whole]
  simp only [if_neg goes]
  rw [stripped, strchr_append absent]
  simp only [Option.map_some, name]
  rw [trim, strip_rdropWhile]
  rfl

theorem filterEntry_line : filterEntry line.text = some (String.ofList line.name) := by
  simp only [filterEntry, keyValue_line line, if_true, benchName_line, Option.map_some]

end Line

/-- A line that adds no name, whether or not a newline ends it. -/
def Quiet (line : List Char) : Prop :=
  ∀ ending ∈ [[], ['\n']], ∀ piece ∈ fgetsAll lineSize (line ++ ending), filterEntry piece = none

/-- A line that fits the buffer is quiet if it is a comment, blank, or sets another key. -/
theorem short_quiet {line : List Char} (single : '\n' ∉ line) (short : line.length < 511)
    (other : filterEntry line = none) : Quiet line := by
  have size : lineSize = 512 := rfl
  intro ending cases_ piece member
  simp only [List.mem_cons, List.not_mem_nil, or_false] at cases_
  rcases cases_ with rfl | rfl
  · rw [List.append_nil] at member
    rcases eq_or_ne line [] with rfl | some_
    · simp [fgetsAll] at member
    · rw [fgetsAll_last single some_ (by omega), List.mem_singleton] at member
      rw [member, other]
  · rw [fgetsAll_line single (by omega), List.mem_singleton] at member
    rw [member, filterEntry_newline, other]

example : Quiet "# tier 2".toList ∧ Quiet "reportable      = 1".toList :=
  ⟨short_quiet (by decide) (by decide) (by decide), short_quiet (by decide) (by decide) (by decide)⟩

inductive ConfigLine where
  | bench (line : BenchLine)
  | other (text : List Char) (single : '\n' ∉ text) (quiet : Quiet text)

def ConfigLine.text : ConfigLine → List Char
  | bench line => line.text
  | other text _ _ => text

def ConfigLine.name : ConfigLine → Option String
  | bench line => some (String.ofList line.name)
  | other _ _ _ => none

/-- A file of lines, each with its newline, and perhaps a last line without one. -/
structure ConfigFile where
  lines : List ConfigLine
  last : Option ConfigLine

def ConfigFile.text (file : ConfigFile) : List Char :=
  file.lines.flatMap (fun line => line.text ++ ['\n']) ++ (file.last.map ConfigLine.text).getD []

def ConfigFile.names (file : ConfigFile) : List String := (file.lines ++ file.last.toList).filterMap ConfigLine.name

theorem BenchLine.single (line : BenchLine) : '\n' ∉ line.text := fun member => (line.facts.2.2.2.1 _ member).1 rfl

theorem line_entries (line : ConfigLine) :
    (fgetsAll lineSize (line.text ++ ['\n'])).filterMap filterEntry = line.name.toList := by
  cases line with
  | bench line =>
    have size : lineSize = 512 := rfl
    have short := line.facts.2.2.2.2
    have entry := (filterEntry_newline line.text).trans (filterEntry_line line)
    rw [ConfigLine.text, fgetsAll_line line.single (by omega), List.filterMap_cons_some entry]
    rfl
  | other text single quiet => exact List.filterMap_eq_nil_iff.mpr (quiet ['\n'] (by simp))

theorem last_entries (line : ConfigLine) :
    (fgetsAll lineSize line.text).filterMap filterEntry = line.name.toList := by
  cases line with
  | bench line =>
    have size : lineSize = 512 := rfl
    have short := line.facts.2.2.2.2
    have some_ : line.text ≠ [] := by simp [BenchFields.text]
    rw [ConfigLine.text, fgetsAll_last line.single some_ (by omega), List.filterMap_cons_some (filterEntry_line line)]
    rfl
  | other text single quiet =>
    have none := quiet [] (by simp)
    rw [List.append_nil] at none
    exact List.filterMap_eq_nil_iff.mpr none

theorem names_cons (line : ConfigLine) (lines : List ConfigLine) :
    (line :: lines).filterMap ConfigLine.name = line.name.toList ++ lines.filterMap ConfigLine.name := by
  cases line <;> rfl

/-- However the file is cut into reads, they add the names of its benchmark lines. -/
theorem file_entries (file : ConfigFile) : (fgetsAll lineSize file.text).filterMap filterEntry = file.names := by
  obtain ⟨lines, last⟩ := file
  simp only [ConfigFile.text, ConfigFile.names, List.filterMap_append]
  induction lines with
  | nil =>
    cases last with
    | none => simp [fgetsAll]
    | some line =>
      rw [Option.toList_some, names_cons]
      simpa using last_entries line
  | cons line lines ih =>
    have closed : Closed (line.text ++ ['\n']) := Or.inr ⟨line.text, rfl⟩
    rw [List.flatMap_cons, List.append_assoc, fgetsAll_append closed, List.filterMap_append, ih, line_entries,
      names_cons, List.append_assoc]

section Selected
variable {α : Type} [Field α] [LinearOrder α] [Libm α]

/-- No selected benchmark is lost exactly if at most 64 lines name one. -/
theorem config_selects_iff (file : ConfigFile) (c : RunConfig) :
    ((parseConfig (some file.text) ⟨c, []⟩).2.benchFilter = file.names ∧
      ∀ (config : RunConfig) (registry : List (Benchmark α)) (env : RunEnv α) (r : RunResult α),
        config.benchFilter = (parseConfig (some file.text) ⟨c, []⟩).2.benchFilter →
        harnessRun config registry env = .ok r →
        ∀ b ∈ registry, b.name ∈ file.names → config.admits b = true → ∃ sr ∈ r.subtests, sr.bench = b) ↔
      file.names.length ≤ maxBenchFilter := by
  rw [parseConfig_filter, file_entries]
  constructor
  · rintro ⟨all, _⟩
    exact List.take_eq_self_iff _ |>.mp all
  · intro few
    rw [List.take_of_length_le few]
    refine ⟨rfl, fun config registry env r names ok b member named admits => ?_⟩
    apply selected_runs ok member
    simp [RunConfig.selects, admits, names, named]

end Selected

/- The benchmark lines of default.cfg: category, name, blanks that pad the name, description. -/
def defaultEntries : List (String × String × Nat × String) := [
  ("C1", "vm-cpu-overhead", 0, "Sieve integer compute"),
  ("C1", "int-hash", 6, "64-bit integer hash table"),
  ("C1", "int-sort", 6, "64-bit integer LSD radix sort"),
  ("C1", "int-parse", 5, "Integer string parsing"),
  ("C1", "int-substr", 4, "Naive substring search on log text"),
  ("C2", "fp-gemm", 7, "DGEMM matrix multiply"),
  ("C2", "fp-fft", 8, "Radix-2 FFT N=2048"),
  ("C2", "fp-conv", 7, "3x3 convolution 128x128"),
  ("C2", "fp-distance", 3, "Vector cosine distance dim=768"),
  ("C2", "fp-ray", 8, "Ray-triangle intersection"),
  ("C3", "crypto-zstd", 3, "zstd level 3 compress"),
  ("C3", "crypto-aes", 4, "AES-256-GCM encrypt"),
  ("C3", "crypto-aes-gcm-decrypt", 0, "AES-256-GCM decrypt"),
  ("C3", "crypto-hash", 3, "SHA-256 hash 256MB"),
  ("C3", "crypto-hash-l2", 0, "SHA-256 hash L2-resident"),
  ("C3", "crypto-rsa", 4, "RSA-2048 signature"),
  ("C3", "crypto-rsa-verify", 0, "RSA-2048 verify"),
  ("C3", "crypto-ecdsa-p256-sign", 0, "ECDSA P-256 sign"),
  ("C3", "crypto-ecdsa-p256-verify", 0, "ECDSA P-256 verify"),
  ("C3", "crypto-ed25519-sign", 0, "Ed25519 sign"),
  ("C3", "crypto-x25519-ecdh", 0, "X25519 ECDH"),
  ("C3", "crypto-chacha20-poly1305", 0, "ChaCha20-Poly1305 AEAD"),
  ("C3", "crypto-sm2-sign", 0, "SM2 SM3 sign (GM/T 0003)"),
  ("C3", "crypto-sm3", 4, "SM3 hash (GM/T 0004)"),
  ("C3", "crypto-sm4", 4, "SM4 CTR encrypt (GM/T 0002)"),
  ("C4", "mem-latency", 3, "Pointer chase latency"),
  ("C4", "mem-bandwidth", 1, "Sequential memory read bandwidth"),
  ("C4", "mem-stream", 4, "STREAM Triad"),
  ("C4", "mem-random", 4, "Random access latency"),
  ("C5", "numa-latency", 2, "NUMA local memory latency"),
  ("C5", "numa-bandwidth", 0, "NUMA remote node bandwidth"),
  ("C5", "numa-false-sharing", 0, "False sharing degradation"),
  ("C5", "numa-migration", 0, "NUMA page migration"),
  ("C6", "proc-fork-exec", 0, "fork+exec+wait loop"),
  ("C6", "proc-pthread", 2, "pthread create/join"),
  ("C6", "proc-mmap", 5, "mmap/munmap anonymous"),
  ("C7", "sync-mutex", 4, "pthread_mutex contention"),
  ("C7", "sync-spinlock", 1, "pthread_spinlock throughput"),
  ("C7", "sync-rwlock", 3, "pthread_rwlock reader/writer"),
  ("C7", "sync-semaphore", 0, "sem_post/wait wakeup"),
  ("C7", "sync-mpmc", 5, "Lock-free MPMC queue"),
  ("C8", "cswitch-pipe-ping", 0, "Pipe-based context switching"),
  ("C8", "cswitch-futex", 1, "Futex-based context switching"),
  ("C8", "cswitch-smt", 3, "SMT cache line bouncing"),
  ("C9", "script-shell", 2, "Shell script throughput"),
  ("C9", "script-python", 1, "Python script throughput"),
  ("C10", "fs-copy", 7, "File copy 4096B buffer"),
  ("C10", "fs-seq-rw", 5, "Sequential file read"),
  ("C10", "fs-rand-rw", 4, "Random 4KB read IOPS"),
  ("C10", "fs-fsync", 6, "fdatasync latency"),
  ("C10", "fs-meta", 7, "Metadata stat() throughput"),
  ("C10", "fs-uring", 6, "Random 4KB read via pread()"),
  ("C11", "ipc-pipe", 6, "Pipe throughput 512B"),
  ("C11", "ipc-unix", 6, "AF_UNIX socketpair throughput"),
  ("C11", "ipc-signal", 4, "signal delivery throughput"),
  ("C12", "syscall-getpid", 0, "getpid() system call overhead"),
  ("C12", "syscall-vdso", 2, "vDSO clock_gettime"),
  ("C12", "syscall-raw", 3, "Raw syscall(SYS_getpid)"),
  ("C12", "ipc-eventfd", 3, "eventfd roundtrip"),
  ("C13", "net-tcp", 7, "TCP loopback stream throughput"),
  ("C13", "net-udp", 7, "UDP loopback packet throughput"),
  ("C13", "net-conn-rate", 1, "TCP connection establishment rate"),
  ("C13", "net-latency", 3, "TCP request-response latency"),
  ("C13", "net-zero-copy", 1, "sendfile() zero-copy throughput"),
  ("C14", "vm-detect", 5, "VM detect via DMI sysfs"),
  ("C15", "ctr-lifecycle", 1, "Container lifecycle simulation")]

def defaultFields (entry : String × String × Nat × String) : BenchFields where
  lead := []
  gap := List.replicate 7 ' '
  first := " ".toList ++ entry.1.toList ++ " ".toList
  left := " ".toList
  name := entry.2.1.toList
  right := List.replicate (entry.2.2.1 + 1) ' '
  description := " ".toList ++ entry.2.2.2.toList

theorem defaultFields_sound : ∀ entry ∈ defaultEntries, (defaultFields entry).wellFormed = true := by
  decide +kernel

/-- The shipped configuration, as far as it names benchmarks. -/
def defaultFile : ConfigFile where
  lines := defaultEntries.pmap (fun entry sound => .bench ⟨defaultFields entry, sound⟩) defaultFields_sound
  last := none

theorem defaultFile_names : defaultFile.names = defaultEntries.map (fun entry => entry.2.1) := by
  simp only [ConfigFile.names, defaultFile, Option.toList_none, List.append_nil]
  generalize defaultEntries = entries, defaultFields_sound = sound
  induction entries with
  | nil => rfl
  | cons entry entries ih =>
    rw [List.pmap_cons, names_cons, ih, List.map_cons]
    simp [ConfigLine.name, defaultFields]

/- The filter keeps 64 of the 66 names: the last two are lost. -/
theorem default_config_loses :
    (parseConfig (some defaultFile.text) ⟨mainConfig, []⟩).2.benchFilter ≠ defaultFile.names ∧
      defaultFile.names =
        (parseConfig (some defaultFile.text) ⟨mainConfig, []⟩).2.benchFilter ++ ["vm-detect", "ctr-lifecycle"] := by
  have lost : (defaultEntries.map (fun entry => entry.2.1)).drop maxBenchFilter =
      ["vm-detect", "ctr-lifecycle"] := rfl
  have split := List.take_append_drop maxBenchFilter (defaultEntries.map (fun entry => entry.2.1))
  rw [lost] at split
  rw [parseConfig_filter, file_entries, defaultFile_names]
  refine ⟨fun same => ?_, split.symm⟩
  rw [same] at split
  exact absurd (List.append_right_eq_self.mp split) (by decide)

end ServMark
