import ServMark.Types
import ServMark.Library.CText
import ServMark.Library.Stores
import ServMark.Library.Labelling
import Mathlib.Data.Int.Range

/-! The physical cores: harness_get_physical_cores over the sibling lists of sysfs. Its
allocations succeed. A cell of an array is named by an int, so that a store in front of the
array is a store like any other. -/
namespace ServMark
open CText

/-- sizeof(line). -/
def siblingLineSize : Nat := 256

def siblingsPath (cpu : Int) : String := s!"/sys/devices/system/cpu/cpu{cpu}/topology/thread_siblings_list"

/-- The CPUs other than this one that a token of its list marks. -/
def siblingCpus (ncpu : Nat) (cpu : Int) (tok : List Char) : List Int :=
  match scanRange tok with
  | some (start, last) => (Int.range start (min (last + 1) ncpu)).filter (fun s => s ≠ cpu)
  | none =>
    match scanInt tok with
    | some (start, _) => if start < ncpu ∧ start ≠ cpu then [start] else []
    | none => []

structure CoreScan where
  physMap : Int → Nat
  seen : Int → Bool
  physId : Nat

def markCore (s : CoreScan) (cpus : List Int) : CoreScan :=
  { s with
    physMap := Stores.apply (cpus.map (fun c => (c, s.physId))) s.physMap
    seen := Stores.apply (cpus.map (fun c => (c, true))) s.seen }

def scanCore (host : Host) (s : CoreScan) (cpu : Int) : CoreScan :=
  if s.seen cpu then s
  else
    let s := markCore s [cpu]
    let s := match host.file (siblingsPath cpu) with
      | none => s
      | some text =>
        let line := cString (fgets (siblingLineSize - 1) text).1
        markCore s ((tokens ',' line).flatMap (siblingCpus host.ncpu cpu))
    { s with physId := s.physId + 1 }

structure CoreMap where
  physMap : Int → Nat
  numPhysical : Nat

def harnessGetPhysicalCores (host : Host) : CoreMap :=
  let s := (Int.range 0 host.ncpu).foldl (scanCore host) ⟨fun _ => 0, fun _ => false, 0⟩
  ⟨s.physMap, s.physId⟩

/- The loop numbers classes: the CPUs one turn marks are the CPU itself and those its list
names. -/

def coreMembers (host : Host) (cpu : Int) : List Int :=
  cpu :: match host.file (siblingsPath cpu) with
    | none => []
    | some text =>
      (tokens ',' (cString (fgets (siblingLineSize - 1) text).1)).flatMap (siblingCpus host.ncpu cpu)

def CoreScan.labels (s : CoreScan) : Labelling.Labels Int := ⟨s.physMap, s.seen, s.physId⟩

theorem markCore_labels (s : CoreScan) (cpus : List Int) : (markCore s cpus).labels =
    ⟨fun c => if c ∈ cpus then s.physId else s.physMap c, fun c => decide (c ∈ cpus) || s.seen c, s.physId⟩ := by
  have seen : ∀ c, Stores.apply (cpus.map (fun c => (c, true))) s.seen c = (decide (c ∈ cpus) || s.seen c) := by
    intro c
    simp only [Stores.apply_block]
    by_cases member : c ∈ cpus <;> simp [member]
  simp only [CoreScan.labels, markCore, Labelling.Labels.mk.injEq, and_true]
  exact ⟨funext (fun c => Stores.apply_block _ _ _ c), funext seen⟩

theorem markCore_append (s : CoreScan) (first second : List Int) :
    markCore (markCore s first) second = markCore s (first ++ second) := by
  simp only [markCore, List.map_append, Stores.apply_append]

theorem scanCore_eq (host : Host) (s : CoreScan) (cpu : Int) : scanCore host s cpu =
    if s.seen cpu then s
    else { markCore s (coreMembers host cpu) with physId := s.physId + 1 } := by
  unfold scanCore coreMembers
  split
  · rfl
  · cases host.file (siblingsPath cpu) with
    | none => rfl
    | some text => simp only [markCore_append, List.singleton_append]; rfl

theorem scanCore_visit (host : Host) (s : CoreScan) (cpu : Int) : (scanCore host s cpu).labels =
    Labelling.visit (fun x y => decide (y ∈ coreMembers host x)) s.labels cpu := by
  have marked := markCore_labels s (coreMembers host cpu)
  simp only [CoreScan.labels, Labelling.Labels.mk.injEq] at marked
  have seen : s.labels.seen cpu = s.seen cpu := rfl
  simp only [scanCore_eq, Labelling.visit, seen]
  split
  · rfl
  · simp [CoreScan.labels, marked]

theorem scanCores_visit (host : Host) (cpus : List Int) (s : CoreScan) : (cpus.foldl (scanCore host) s).labels =
    cpus.foldl (Labelling.visit (fun x y => decide (y ∈ coreMembers host x))) s.labels := by
  induction cpus generalizing s with
  | nil => rfl
  | cons cpu cpus ih => rw [List.foldl_cons, ih, scanCore_visit, List.foldl_cons]

/- Sibling lists as the kernel writes them. -/

structure CpuItem where
  first : Numeral
  last : Option Numeral
  ordered : ∀ n ∈ last, first.value ≤ n.value

def CpuItem.single (n : Numeral) : CpuItem := ⟨n, none, nofun⟩

def CpuItem.text (item : CpuItem) : List Char :=
  item.first.chars ++ match item.last with
    | none => []
    | some n => '-' :: n.chars

/-- The last id of a range, or the only one. -/
def CpuItem.top (item : CpuItem) : Nat := (item.last.getD item.first).value

def CpuItem.names (item : CpuItem) (cpu : Int) : Prop := item.first.value ≤ cpu ∧ cpu ≤ item.top

/-- One line of ids and ranges with commas between them; a newline may end it. -/
structure SiblingList where
  front : List CpuItem
  last : CpuItem
  newline : Bool

def SiblingList.line (list : SiblingList) : List Char := listed ',' (list.front.map CpuItem.text) list.last.text

def SiblingList.text (list : SiblingList) : List Char := list.line ++ if list.newline then ['\n'] else []

def SiblingList.denotes (list : SiblingList) (cpu : Int) : Prop := ∃ item ∈ list.front ++ [list.last], item.names cpu

/-- What may stand behind the last token of a line. -/
def LineEnd (ending : List Char) : Prop := ending = [] ∨ ending = ['\n']

theorem LineEnd.stops {ending : List Char} (end_ : LineEnd ending) :
    ∀ c ∈ ending.head?, c.isDigit = false ∧ c ≠ '-' := by
  obtain rfl | rfl := end_ <;> simp [Char.isDigit]

theorem item_ordered (item : CpuItem) : item.first.value ≤ item.top := by
  cases last : item.last with
  | none => simp [CpuItem.top, last]
  | some n => simpa [CpuItem.top, last] using item.ordered n (by simp [last])

/-- How many CPUs an item names. -/
def CpuItem.size (item : CpuItem) : Nat := item.top - item.first.value + 1

/-- The CPUs that an item names, in their order. -/
def CpuItem.members (item : CpuItem) : List Int := Int.range item.first.value (item.top + 1)

theorem members_length (item : CpuItem) : item.members.length = item.size := by
  have ordered := item_ordered item
  simp only [CpuItem.members, Int.range, List.length_map, List.length_range, CpuItem.size]
  omega

theorem mem_members {item : CpuItem} {c : Int} : c ∈ item.members ↔ item.names c := by
  rw [CpuItem.members, Int.mem_range_iff, CpuItem.names, Int.lt_add_one_iff]

/-- What stands behind an item does not change how it is scanned, if it continues neither a number
nor a range. -/
theorem CpuItem.scan (item : CpuItem) {behind : List Char}
    (stops : ∀ c ∈ behind.head?, c.isDigit = false ∧ c ≠ '-') (fits : item.top < 2 ^ 31) :
    scanRange (item.text ++ behind) =
        item.last.map (fun n => ((item.first.value : Int), (n.value : Int))) ∧
      (item.last = none → scanInt (item.text ++ behind) = some ((item.first.value : Int), behind)) := by
  have ordered := item_ordered item
  have digit : ∀ c ∈ behind.head?, c.isDigit = false := fun c first => (stops c first).1
  cases last : item.last with
  | none =>
    have scan := item.first.scan digit (by omega)
    simp only [CpuItem.text, last, List.append_nil, scanRange, scan, Option.map_none]
    refine ⟨?_, fun _ => trivial⟩
    cases behind with
    | nil => rfl
    | cons c behind =>
      have dash := (stops c rfl).2
      split
      · rename_i eq
        exact absurd (List.cons.inj (Prod.mk.inj (Option.some.inj eq)).2).1 dash
      · rfl
  | some n =>
    have top : item.top = n.value := by simp [CpuItem.top, last]
    have dash : ∀ d ∈ ('-' :: (n.chars ++ behind)).head?, d.isDigit = false := by simp [Char.isDigit]
    simp only [CpuItem.text, last, List.append_assoc, List.cons_append, scanRange,
      item.first.scan dash (by omega), Option.map_some, reduceCtorEq, false_implies, and_true]
    simp only [n.scan digit (by omega), Option.map_some]

/-- A token marks the online CPUs that it names, but not the one whose list it is in. -/
theorem mem_siblingCpus {item : CpuItem} (ending : List Char) (end_ : LineEnd ending) (fits : item.top < 2 ^ 31)
    (ncpu : Nat) (cpu c : Int) :
    c ∈ siblingCpus ncpu cpu (item.text ++ ending) ↔ c ≠ cpu ∧ c < ncpu ∧ item.names c := by
  have ordered := item_ordered item
  obtain ⟨range, scan⟩ := item.scan end_.stops fits
  cases last : item.last with
  | none =>
    have top : item.top = item.first.value := by simp [CpuItem.top, last]
    simp only [siblingCpus, range, last, scan last, Option.map_none, CpuItem.names, top]
    split
    · simp only [List.mem_singleton]
      omega
    · simp only [iff_false_left List.not_mem_nil]
      omega
  | some n =>
    have top : item.top = n.value := by simp [CpuItem.top, last]
    simp only [siblingCpus, range, last, Option.map_some, List.mem_filter, Int.mem_range_iff, decide_eq_true_eq,
      CpuItem.names, top]
    omega

theorem CpuItem.chars (item : CpuItem) : ∀ c ∈ item.text, c.isDigit = true ∨ c = '-' := by
  have first : ∀ c ∈ item.first.chars, c.isDigit = true := List.all_eq_true.mp item.first.digits
  intro c member
  rcases List.mem_append.mp member with digit | range
  · exact Or.inl (first c digit)
  · cases last : item.last with
    | none => simp [last] at range
    | some n =>
      simp only [last] at range
      rcases List.mem_cons.mp range with dash | digit
      · exact Or.inr dash
      · exact Or.inl (List.all_eq_true.mp n.digits c digit)

theorem CpuItem.text_some (item : CpuItem) : item.text ≠ [] := by
  simp [CpuItem.text, item.first.some_]

theorem SiblingList.chars (list : SiblingList) : ∀ c ∈ list.line, c.isDigit = true ∨ c = '-' ∨ c = ',' := by
  have item : ∀ item ∈ list.front ++ [list.last], ∀ c ∈ item.text, c.isDigit = true ∨ c = '-' ∨ c = ',' :=
    fun item _ c member => (item.chars c member).imp_right Or.inl
  intro c member
  simp only [SiblingList.line, listed, List.mem_append, List.mem_flatMap, List.mem_map] at member
  rcases member with ⟨_, ⟨i, within, rfl⟩, text | comma⟩ | text
  · exact item i (List.mem_append_left _ within) c text
  · exact Or.inr (Or.inr (List.mem_singleton.mp comma))
  · exact item list.last (by simp) c text

theorem SiblingList.end_ (list : SiblingList) : LineEnd (if list.newline then ['\n'] else []) := by
  cases list.newline <;> simp [LineEnd]

theorem SiblingList.read (list : SiblingList) (short : list.line.length < 255) :
    cString (fgets (siblingLineSize - 1) list.text).1 = list.text := by
  have size : siblingLineSize - 1 = 255 := rfl
  have newline : '\n' ∉ list.line := fun member => absurd (list.chars _ member) (by decide)
  have text : ∀ c ∈ list.text, c ≠ Char.ofNat 0 := by
    rintro c member rfl
    rcases List.mem_append.mp member with line | ending
    · exact absurd (list.chars _ line) (by decide)
    · obtain none | one := list.end_
      · simp only [none] at ending
        cases ending
      · simp only [one] at ending
        exact absurd ending (by decide)
  have whole : (fgets (siblingLineSize - 1) list.text).1 = list.text := by
    simp only [size, SiblingList.text]
    cases list.newline with
    | true => simp [fgets_line newline short []]
    | false => simp [fgets_last newline short.le]
  simp only [whole, cString_eq text]

theorem SiblingList.tokens (list : SiblingList) : tokens ',' list.text =
    list.front.map CpuItem.text ++ [list.last.text ++ if list.newline then ['\n'] else []] := by
  have solid : ∀ item : CpuItem, ',' ∉ item.text := fun item member => absurd (item.chars _ member) (by decide)
  have text : list.text = listed ',' (list.front.map CpuItem.text)
      (list.last.text ++ if list.newline then ['\n'] else []) := by
    simp [SiblingList.text, SiblingList.line, listed]
  simp only [text]
  apply tokens_listed
  intro tok member
  rcases List.mem_append.mp member with front | last
  · obtain ⟨item, _, rfl⟩ := List.mem_map.mp front
    exact ⟨item.text_some, solid item⟩
  · simp only [List.mem_singleton.mp last]
    refine ⟨by simp [list.last.text_some], ?_⟩
    simp only [List.mem_append]
    rintro (inside | ending)
    · exact solid _ inside
    · cases newline : list.newline <;> simp [newline] at ending

theorem mem_coreMembers {host : Host} {cpu : Int} {list : SiblingList}
    (text : host.file (siblingsPath cpu) = some list.text) (short : list.line.length < 255)
    (fits : ∀ item ∈ list.front ++ [list.last], item.top < 2 ^ 31) (c : Int) :
    c ∈ coreMembers host cpu ↔ c = cpu ∨ c < host.ncpu ∧ list.denotes c := by
  have marks : ∀ item ∈ list.front,
      (c ∈ siblingCpus host.ncpu cpu item.text ↔ c ≠ cpu ∧ c < host.ncpu ∧ item.names c) := by
    intro item within
    have token := mem_siblingCpus [] (Or.inl rfl) (fits item (List.mem_append_left _ within)) host.ncpu cpu c
    rwa [List.append_nil] at token
  have front : c ∈ (list.front.map CpuItem.text).flatMap (siblingCpus host.ncpu cpu) ↔
      c ≠ cpu ∧ c < host.ncpu ∧ ∃ item ∈ list.front, item.names c := by
    simp only [List.mem_flatMap, List.mem_map]
    constructor
    · rintro ⟨_, ⟨item, within, rfl⟩, marked⟩
      obtain ⟨other, online, names⟩ := (marks item within).mp marked
      exact ⟨other, online, item, within, names⟩
    · rintro ⟨other, online, item, within, names⟩
      exact ⟨_, ⟨item, within, rfl⟩, (marks item within).mpr ⟨other, online, names⟩⟩
  have last := mem_siblingCpus _ list.end_ (fits list.last (by simp)) host.ncpu cpu c
  simp only [coreMembers, text, List.mem_cons]
  simp only [list.read short, list.tokens, List.flatMap_append, List.mem_append, front, List.flatMap_singleton, last,
    SiblingList.denotes, List.mem_singleton]
  constructor
  · rintro (same | ⟨_, online, item, within, names⟩ | ⟨_, online, names⟩)
    · exact Or.inl same
    · exact Or.inr ⟨online, item, Or.inl within, names⟩
    · exact Or.inr ⟨online, list.last, Or.inr rfl, names⟩
  · rintro (same | ⟨online, item, within, names⟩)
    · exact Or.inl same
    · by_cases same : c = cpu
      · exact Or.inl same
      · rcases within with within | rfl
        · exact Or.inr (Or.inl ⟨same, online, item, within, names⟩)
        · exact Or.inr (Or.inr ⟨same, online, names⟩)

section Partition
variable {κ : Type} {host : Host} {core : Int → κ}

/-- Every online CPU has a readable sibling list, and it denotes the core of the CPU. -/
structure SiblingFiles (host : Host) (core : Int → κ) : Prop where
  lists : ∀ cpu, host.Online cpu → ∃ list : SiblingList, host.file (siblingsPath cpu) = some list.text ∧
    list.line.length < 255 ∧ ∀ c, list.denotes c ↔ host.Online c ∧ core c = core cpu

/-- An id in a list is that of an online CPU, so it fits an int. -/
theorem denoted_fits {list : SiblingList} (online : ∀ c, list.denotes c → host.Online c) :
    ∀ item ∈ list.front ++ [list.last], item.top < 2 ^ 31 := by
  intro item within
  have ordered := item_ordered item
  have top : item.names item.top := ⟨by omega, le_refl _⟩
  have below := (online _ ⟨item, within, top⟩).2
  have fits := host.fits
  omega

theorem coreMembers_iff (files : SiblingFiles host core) {cpu : Int} (online : host.Online cpu) (c : Int) :
    c ∈ coreMembers host cpu ↔ host.Online c ∧ core cpu = core c := by
  obtain ⟨list, text, short, denotes⟩ := files.lists cpu online
  simp only [mem_coreMembers text short (denoted_fits fun c named => ((denotes c).mp named).1), denotes]
  constructor
  · rintro (rfl | ⟨_, within, same⟩)
    · exact ⟨online, rfl⟩
    · exact ⟨within, same.symm⟩
  · rintro ⟨within, same⟩
    exact Or.inr ⟨within.2, within, same.symm⟩

/-- The map numbers the cores: one id for each, from zero on. -/
structure NumbersCores (host : Host) (core : Int → κ) (cores : CoreMap) : Prop where
  same : ∀ c d, host.Online c → host.Online d → (cores.physMap c = cores.physMap d ↔ core c = core d)
  ids : ∀ k, k < cores.numPhysical ↔ ∃ c, host.Online c ∧ cores.physMap c = k

theorem physical_cores (files : SiblingFiles host core) : NumbersCores host core (harnessGetPhysicalCores host) := by
  have numbered := Labelling.numbered_all {c | host.Online c} core (fun x y => decide (y ∈ coreMembers host x))
    (fun x (member : x ∈ Int.range 0 host.ncpu) => Int.mem_range_iff.mp member)
    (fun x member y => by rw [decide_eq_true_eq]; exact coreMembers_iff files (Int.mem_range_iff.mp member) y)
  have scanned := scanCores_visit host (Int.range 0 host.ncpu) ⟨fun _ => 0, fun _ => false, 0⟩
  have start : CoreScan.labels ⟨fun _ => 0, fun _ => false, 0⟩ = Labelling.empty := rfl
  simp only [start] at scanned
  rw [← scanned] at numbered
  have all : ∀ c, host.Online c → ((Int.range 0 host.ncpu).foldl (scanCore host)
      ⟨fun _ => 0, fun _ => false, 0⟩).labels.seen c = true :=
    fun c online => (numbered.seen c).mpr ⟨online, c, Int.mem_range_iff.mpr online, rfl⟩
  refine ⟨fun c d onlineC onlineD => numbered.same c d (all c onlineC) (all d onlineD), fun k => ⟨fun below => ?_, ?_⟩⟩
  · obtain ⟨c, seen, label⟩ := numbered.used k below
    exact ⟨c, ((numbered.seen c).mp seen).1, label⟩
  · rintro ⟨c, online, rfl⟩
    exact numbered.below c (all c online)

end Partition

end ServMark
