import ServMark.SystemProbe
import ServMark.Library.Hexadecimal
import ServMark.Library.Loops

/-! The nodes and the caches as system_probe reads them from sysfs. Allocations succeed; the rows
of distances are left out. -/
namespace ServMark
open CText Printf

/-- sizeof(cmap) and sizeof(mline). -/
def cmapSize : Nat := 1024
def mlineSize : Nat := 128

def cpumapPath (node : Nat) : String := s!"/sys/devices/system/node/node{node}/cpumap"
def meminfoPath (node : Nat) : String := s!"/sys/devices/system/node/node{node}/meminfo"

/-- The loop over the 32 bits of a group. -/
def countBits (count val : Nat) : Nat :=
  (List.range 32).foldl (fun count b => if val &&& (1 <<< b) ≠ 0 then count + 1 else count) count

def nodeCpuCount (host : Host) (node : Nat) : Nat :=
  match host.file (cpumapPath node) with
  | none => 0
  | some text =>
    let cmap := (cString (fgets (cmapSize - 1) text).1).rdropWhile (fun c => c == '\n' || c == '\r')
    (tokens ',' cmap).foldl (fun count tok => countBits count (strtoul 16 tok)) 0

def memTotal : List Char := "MemTotal:".toList

/-- The number behind the first line read that begins with MemTotal, zero where there is none. -/
def nodeMemoryKb (host : Host) (node : Nat) : Int :=
  match host.file (meminfoPath node) with
  | none => 0
  | some text =>
    match ((fgetsAll mlineSize text).map cString).find? (fun mline => memTotal.isPrefixOf mline) with
    | none => 0
    | some mline => (strtoul 10 ((mline.drop 9).dropWhile isblank) : Int).bmod (2 ^ 64)

structure ProbedNode where
  id : Nat
  cpuCount : Nat
  memoryKb : Int

/-- The nodes up to the first of 64 whose directory is not there. -/
def probeNodes (host : Host) (access : Nat → Bool) : List ProbedNode :=
  ((List.range 64).takeWhile access).map
    (fun node => ⟨node, nodeCpuCount host node, nodeMemoryKb host node⟩)

structure CacheInfo where
  level : Int
  type : Option String
  sizeKb : Int
  lineSize : Int
  associativity : Int

def cachePath (index : Nat) (name : String) : String :=
  s!"/sys/devices/system/cpu/cpu0/cache/index{index}/{name}"

/-- An int field of a cache, zero where its file cannot be read. -/
def cacheNumber (host : Host) (index : Nat) (name : String) (convert : Int → Int) : Int :=
  ((systemReadProcInt host (cachePath index name)).map (fun num => (convert num).bmod (2 ^ 32))).getD 0

def cacheType (val : List Char) : String :=
  if "Data".toList <:+: val then "data"
  else if "Instruction".toList <:+: val then "instruction"
  else "unified"

def probeCache (host : Host) (index : Nat) : CacheInfo where
  level := cacheNumber host index "level" id
  type := (systemReadProcStr host (cachePath index "type") 64).map cacheType
  sizeKb := cacheNumber host index "size" (fun num => num.tdiv 1024)
  lineSize := cacheNumber host index "coherency_line_size" id
  associativity := cacheNumber host index "ways_of_associativity" id

/-- The caches up to the first of eight without a type, or those of the fallback. -/
def probeCaches (host : Host) : List CacheInfo :=
  match (List.range 8).takeWhile (fun index => (host.file (cachePath index "type")).isSome) with
  | [] => [⟨1, some "data", 32, 64, 8⟩, ⟨2, some "unified", 1024, 64, 16⟩, ⟨3, some "unified", 32768, 64, 16⟩]
  | indexes => indexes.map (probeCache host)

/- The map of a node's CPUs. -/

/-- The groups of a set of CPUs, the most significant first. -/
def cpumapGroups (set : Finset Nat) (groups : Nat) : List (List Char) :=
  (List.range groups).reverse.map (fun group => printHex 8 (memberBits 32 set (32 * group)))

/-- The file of the kernel. -/
def cpumapText (set : Finset Nat) (groups : Nat) : List Char :=
  [','].intercalate (cpumapGroups set groups) ++ ['\n']

theorem countBits_eq (set : Finset Nat) (count group : Nat) : countBits count (memberBits 32 set (32 * group)) =
    count + (List.range 32).countP (fun b => 32 * group + b ∈ set) := by
  rw [countBits, Loops.foldl_count, ← memberBits_count]
  simp only [and_bit, Bool.decide_eq_true]

theorem groups_count (set : Finset Nat) (groups count : Nat) :
    (cpumapGroups set groups).foldl (fun count tok => countBits count (strtoul 16 tok)) count =
      count + (List.range (32 * groups)).countP (fun cpu => cpu ∈ set) := by
  induction groups generalizing count with
  | zero => rfl
  | succ groups ih =>
    have small : memberBits 32 set (32 * groups) < 2 ^ 64 :=
      (Nat.ofBits_lt_two_pow _).trans (by decide)
    have split : List.range (32 * (groups + 1)) = List.range (32 * groups) ++ (List.range 32).map (32 * groups + ·) :=
      List.range_add
    have first : cpumapGroups set (groups + 1) =
        printHex 8 (memberBits 32 set (32 * groups)) :: cpumapGroups set groups := by
      simp [cpumapGroups, List.range_succ]
    rw [first, List.foldl_cons, strtoul_printHex small, countBits_eq, ih, split, List.countP_append, List.countP_map]
    simp only [Function.comp_def]
    omega

theorem group_spec {set : Finset Nat} {groups : Nat} : ∀ group ∈ cpumapGroups set groups,
    group.length = 8 ∧ ∀ c ∈ group, ∃ d < 16, c = Nat.digitChar d := by
  intro group member
  obtain ⟨g, _, rfl⟩ := List.mem_map.mp member
  exact ⟨printHex_length (by decide) ((Nat.ofBits_lt_two_pow _).trans_eq (by decide)),
    fun c inside => printHex_digits c inside⟩

theorem cpumap_plain {set : Finset Nat} {groups : Nat} {c : Char}
    (member : c ∈ [','].intercalate (cpumapGroups set groups)) : c ≠ '\n' ∧ c ≠ '\r' ∧ c ≠ Char.ofNat 0 := by
  rcases intercalate_mem member with rfl | ⟨group, within, inside⟩
  · decide
  · obtain ⟨d, small, rfl⟩ := (group_spec group within).2 c inside
    obtain ⟨-, -, -, -, -, -, -, line, return_, zero⟩ := hex_digit d small
    exact ⟨line, return_, zero⟩

theorem cpumap_tokens (set : Finset Nat) (groups : Nat) :
    tokens ',' ([','].intercalate (cpumapGroups set groups)) = cpumapGroups set groups := by
  refine tokens_intercalate (fun group within => ⟨?_, fun member => ?_⟩)
  · rintro rfl
    have length := (group_spec [] within).1
    cases length
  · obtain ⟨d, small, eq⟩ := (group_spec group within).2 ',' member
    exact (hex_digit d small).2.2.2.2.2.2.1 eq.symm

/-- The count of a node is the number of CPUs in its map. -/
theorem cpumap_counts_all (host : Host) (access : Nat → Bool) (set : Finset Nat) (groups : Nat)
    (below : ∀ cpu ∈ set, cpu < 32 * groups) (fits : groups ≤ 113) (node : ProbedNode)
    (probed : node ∈ probeNodes host access)
    (map : host.file (cpumapPath node.id) = some (cpumapText set groups)) : node.cpuCount = set.card := by
  obtain ⟨id, _, rfl⟩ := List.mem_map.mp probed
  dsimp only at map ⊢
  have width : ([','].intercalate (cpumapGroups set groups)).length < cmapSize - 1 := by
    have length : (cpumapGroups set groups).length = groups := by simp [cpumapGroups]
    have same : ∀ group ∈ cpumapGroups set groups, group.length = 8 := fun group within => (group_spec group within).1
    have bound := @intercalate_length ',' 8 _ same
    have size : cmapSize - 1 = 1023 := rfl
    omega
  have newline : '\n' ∉ [','].intercalate (cpumapGroups set groups) := fun member => (cpumap_plain member).1 rfl
  have text : cString ([','].intercalate (cpumapGroups set groups) ++ ['\n']) =
      [','].intercalate (cpumapGroups set groups) ++ ['\n'] := by
    refine cString_eq (fun c member => ?_)
    rcases List.mem_append.mp member with line | ending
    · exact (cpumap_plain line).2.2
    · rw [List.mem_singleton.mp ending]
      decide
  have trimmed : ([','].intercalate (cpumapGroups set groups) ++ ['\n']).rdropWhile
      (fun c => c == '\n' || c == '\r') = [','].intercalate (cpumapGroups set groups) := by
    rw [List.rdropWhile_concat_pos _ _ _ (by decide), List.rdropWhile_eq_self_iff]
    intro some_
    have last := cpumap_plain (List.getLast_mem some_)
    simp [last.1, last.2.1]
  rw [nodeCpuCount, map]
  simp only [cpumapText, fgets_line newline width [], text, trimmed, cpumap_tokens, groups_count]
  rw [Nat.zero_add, card_countP below]

/-- A machine whose only node has the CPUs 0, 33 and 40. -/
def mapHost : Host :=
  ⟨64, by decide, by decide, fun path => if path = cpumapPath 0 then some (cpumapText {0, 33, 40} 2) else none⟩

theorem cpumap_counts_all_two : nodeCpuCount mapHost 0 = 3 :=
  cpumap_counts_all mapHost (fun node => node = 0) {0, 33, 40} 2 (by decide) (by decide)
    ⟨0, nodeCpuCount mapHost 0, nodeMemoryKb mapHost 0⟩ (List.mem_map.mpr ⟨0, by decide, rfl⟩) (by simp [mapHost])

/- The memory of a node. -/

structure MeminfoLine where
  field : List Char
  blanks : Nat
  number : Nat
  single : '\n' ∉ field
  word : ':' ∉ field

/-- What stands in front of the colon. -/
def MeminfoLine.label (line : MeminfoLine) (node : Nat) : List Char :=
  "Node ".toList ++ printNat node ++ ' ' :: line.field

def MeminfoLine.amount (line : MeminfoLine) : List Char :=
  List.replicate line.blanks ' ' ++ printNat line.number ++ " kB".toList

def MeminfoLine.text (line : MeminfoLine) (node : Nat) : List Char := line.label node ++ ':' :: line.amount

def meminfoText (lines : List MeminfoLine) (node : Nat) : List Char := ended (lines.map (fun line => line.text node))

/-- The file of a node, with the line of its total. -/
structure Meminfo where
  lines : List MeminfoLine
  total : MeminfoLine
  among : total ∈ lines
  named : total.field = "MemTotal".toList

/-- The label ends in MemTotal, and fgets cuts it right in front of that. -/
def MeminfoLine.Cut (line : MeminfoLine) (node : Nat) : Prop :=
  "MemTotal".toList <:+ line.label node ∧ ∃ k > 0, (line.label node).length = (mlineSize - 1) * k + 8

theorem digits_plain {n : Nat} {c : Char} (plain : c.isDigit = false) : c ∉ printNat n := by
  intro member
  rw [printNat_digits c member] at plain
  cases plain

theorem label_plain (line : MeminfoLine) (node : Nat) :
    '\n' ∉ line.label node ∧ ':' ∉ line.label node := by
  have newline : '\n' ∉ printNat node := digits_plain rfl
  have colon : ':' ∉ printNat node := digits_plain rfl
  -- without its equation, for which Lean would decode the string
  delta MeminfoLine.label
  simp [newline, colon, line.single, line.word]

theorem amount_plain (line : MeminfoLine) : '\n' ∉ line.amount := by
  have newline : '\n' ∉ printNat line.number := digits_plain rfl
  simp [MeminfoLine.amount, newline]

theorem text_single (line : MeminfoLine) (node : Nat) : '\n' ∉ line.text node := by
  simp [MeminfoLine.text, label_plain, amount_plain]

theorem amount_word (line : MeminfoLine) : ':' ∉ line.amount := by
  have colon : ':' ∉ printNat line.number := digits_plain rfl
  simp [MeminfoLine.amount, colon]

/-- A piece of a line begins with MemTotal only if the line is cut there. -/
theorem piece_misses {line : MeminfoLine} {node : Nat} (whole : ¬ line.Cut node) {piece : List Char}
    (read : piece ∈ fgetsAll mlineSize (line.text node ++ ['\n'])) : ¬ memTotal <+: cString piece := by
  intro hit
  obtain ⟨k, inside⟩ := fgetsAll_pieces (text_single line node) piece read
  obtain ⟨tail, eq⟩ := (hit.trans (List.takeWhile_prefix _)).trans inside
  rcases Nat.eq_zero_or_pos k with rfl | positive
  · rw [Nat.mul_zero, List.drop_zero] at eq
    exact absurd (List.cons.inj eq).1 (by decide)
  · refine whole ?_
    have total : memTotal = "MemTotal".toList ++ [':'] := by decide
    have split := List.take_append_drop ((mlineSize - 1) * k) (line.text node ++ ['\n'])
    have start : ((line.text node ++ ['\n']).take ((mlineSize - 1) * k)).length = (mlineSize - 1) * k := by
      rw [List.length_take, min_eq_left]
      by_contra short
      rw [List.drop_eq_nil_of_le (by omega)] at eq
      cases eq
    rw [← eq, total] at split
    have same : line.label node ++ ':' :: (line.amount ++ ['\n']) =
        ((line.text node ++ ['\n']).take ((mlineSize - 1) * k) ++ "MemTotal".toList) ++ ':' :: tail := by
      simp only [List.append_assoc, List.singleton_append] at split ⊢
      rw [split]
      simp [MeminfoLine.text]
    -- the line has one colon
    have behind : ':' ∉ line.amount ++ ['\n'] := by simp [amount_word]
    have label := ((List.append_cons_inj_of_notMem (label_plain line node).2 behind).mp same).1
    refine ⟨label ▸ List.suffix_append _ _, k, positive, ?_⟩
    rw [label, List.length_append, start]
    rfl

/-- Without a line cut there, the memory of a node stays zero. -/
theorem nodeMemoryKb_zero {host : Host} {node : Nat} {lines : List MeminfoLine}
    (file : host.file (meminfoPath node) = some (meminfoText lines node))
    (whole : ∀ line ∈ lines, ¬ line.Cut node) : nodeMemoryKb host node = 0 := by
  have misses : ∀ piece ∈ fgetsAll mlineSize (meminfoText lines node), ¬ memTotal <+: cString piece := by
    clear file
    induction lines with
    | nil => simp [meminfoText, ended, fgetsAll]
    | cons line lines ih =>
      obtain ⟨own, rest⟩ := List.forall_mem_cons.mp whole
      have closed : Closed (line.text node ++ ['\n']) := Or.inr ⟨_, rfl⟩
      have text : meminfoText (line :: lines) node = (line.text node ++ ['\n']) ++ meminfoText lines node := by
        simp [meminfoText, ended]
      rw [text, fgetsAll_append closed]
      intro piece read
      rcases List.mem_append.mp read with here | later
      · exact piece_misses own here
      · exact ih rest piece later
  have none : ((fgetsAll mlineSize (meminfoText lines node)).map cString).find?
      (fun mline => memTotal.isPrefixOf mline) = none := by
    refine List.find?_eq_none.mpr (fun mline member hit => ?_)
    obtain ⟨piece, read, rfl⟩ := List.mem_map.mp member
    exact misses piece read (List.isPrefixOf_iff_prefix.mp hit)
  simp only [nodeMemoryKb, file, none]

/- The size of a cache. -/

def cacheSizeText (size : Nat) (behind : List Char) : List Char := printNat size ++ 'K' :: behind

theorem cacheSize_read {host : Host} {index size : Nat} {behind : List Char}
    (file : host.file (cachePath index "size") = some (cacheSizeText size behind)) :
    (probeCache host index).sizeKb = ((min (2 ^ 63 - 1) (size : Int)).tdiv 1024).bmod (2 ^ 32) := by
  let n : Numeral := ⟨printNat size, printNat_some _, List.all_eq_true.mpr printNat_digits⟩
  have taken := n.taken (show ∀ c ∈ ('K' :: behind).head?, c.isDigit = false by simp [Char.isDigit])
  have value : decimal n.chars = size := decimal_printNat size
  have number : scanLong (cacheSizeText size behind) = some (min (2 ^ 63 - 1) (size : Int)) := by
    rw [cacheSizeText, show printNat size = n.chars from rfl]
    simp only [scanLong, strtol, n.behind, taken, n.some_, if_false, value, one_mul]
    rw [max_eq_right (by omega)]
  simp only [probeCache, cacheNumber, systemReadProcInt, file, Option.bind_some, number, Option.map_some,
    Option.getD_some]

theorem cacheSize_iff {host : Host} {index size : Nat} {behind : List Char}
    (file : host.file (cachePath index "size") = some (cacheSizeText size behind)) :
    (probeCache host index).sizeKb = size ↔ size = 0 := by
  rw [cacheSize_read file, Int.tdiv_eq_ediv_of_nonneg (by omega)]
  have below := Int.bmod_lt (x := min (2 ^ 63 - 1) (size : Int) / 1024) (show 0 < 2 ^ 32 by decide)
  constructor
  · intro same
    have small : size < 2 ^ 31 := by omega
    rw [min_eq_right (by omega), Int.bmod_eq_of_le (by omega) (by omega)] at same
    omega
  · rintro rfl
    rfl

/-- The memory of a node is set to its MemTotal exactly if that is zero, and so is the size of a cache. -/
theorem sysfs_sizes_iff (host : Host) (access : Nat → Bool) (node : ProbedNode)
    (probed : node ∈ probeNodes host access) (info : Meminfo)
    (meminfo : host.file (meminfoPath node.id) = some (meminfoText info.lines node.id))
    (whole : ∀ line ∈ info.lines, ¬ line.Cut node.id) (index size : Nat) (behind : List Char)
    (file : host.file (cachePath index "size") = some (cacheSizeText size behind)) :
    (node.memoryKb = info.total.number ↔ info.total.number = 0) ∧
      ((probeCache host index).sizeKb = size ↔ size = 0) := by
  refine ⟨?_, cacheSize_iff file⟩
  obtain ⟨id, _, rfl⟩ := List.mem_map.mp probed
  dsimp only at meminfo whole ⊢
  rw [nodeMemoryKb_zero meminfo whole]
  omega

/-- The line "Node N MemTotal: K kB". -/
def totalLine (number : Nat) : MeminfoLine := ⟨"MemTotal".toList, 1, number, by decide, by decide⟩

def totalInfo (number : Nat) : Meminfo := ⟨[totalLine number], totalLine number, by simp, rfl⟩

/-- A machine of one node and one cache. -/
def sizesHost (memory size : Nat) : Host := ⟨1, by decide, by decide, fun path =>
  if path = meminfoPath 0 then some (meminfoText [totalLine memory] 0)
  else if path = cachePath 0 "size" then some (cacheSizeText size ['\n']) else none⟩

theorem sysfs_sizes_iff_zero : nodeMemoryKb (sizesHost 0 0) 0 = 0 ∧ (probeCache (sizesHost 0 0) 0).sizeKb = 0 := by
  have cache : cachePath 0 "size" ≠ meminfoPath 0 := by decide
  have sizes := sysfs_sizes_iff (sizesHost 0 0) (fun node => node = 0)
    ⟨0, nodeCpuCount (sizesHost 0 0) 0, nodeMemoryKb (sizesHost 0 0) 0⟩ (List.mem_map.mpr ⟨0, by decide, rfl⟩)
    (totalInfo 0) (by simp [sizesHost, totalInfo]) (fun line member => ?_) 0 0 ['\n'] (by simp [sizesHost, cache])
  · exact ⟨sizes.1.mpr rfl, sizes.2.mpr rfl⟩
  · obtain rfl : line = totalLine 0 := by simpa [totalInfo] using member
    rintro ⟨-, k, positive, length⟩
    have short : ((totalLine 0).label 0).length = 15 := by decide
    rw [short, mlineSize] at length
    omega

/-- A node with 16 kB and a cache of 32 kB are both recorded with zero. -/
theorem sysfs_sizes_lost : ¬ ∀ (host : Host) (info : Meminfo) (index size : Nat),
    host.file (meminfoPath 0) = some (meminfoText info.lines 0) →
    host.file (cachePath index "size") = some (cacheSizeText size ['\n']) →
    nodeMemoryKb host 0 = info.total.number ∧ (probeCache host index).sizeKb = size := by
  intro all
  have cache : cachePath 0 "size" ≠ meminfoPath 0 := by decide
  have both := all (sizesHost 16 32) (totalInfo 16) 0 32 (by simp [sizesHost, totalInfo]) (by simp [sizesHost, cache])
  have memory : nodeMemoryKb (sizesHost 16 32) 0 = 0 := by decide +kernel
  have size : (probeCache (sizesHost 16 32) 0).sizeKb = 0 := by decide +kernel
  rw [memory, size] at both
  exact absurd both.1 (by decide)

end ServMark
