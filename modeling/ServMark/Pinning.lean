import ServMark.Cores
import ServMark.Library.Bounded

/-! The CPU an instance is pinned to: harness_parse_cpu_spec, and the choice between its
list and the physical cores that a child of harness_run_parallel makes. Allocations succeed. -/
namespace ServMark
open CText

/-- The ints of the list of an explicit specification. -/
def cpuListCells : Nat := 512

def autoNumaNodes : Nat := 64

def nodeCpusPath (node : Nat) : String := s!"/sys/devices/system/node/node{node}/cpulist"

/-- One CPU of each node, up to the first node without a file. -/
def autoNuma (host : Host) : Nat → Nat → List Int → List Int
  | 0, _, list => list
  | left + 1, ni, list =>
    match host.file (nodeCpusPath ni) with
    | none => list
    | some text =>
      let line := cString (fgets (siblingLineSize - 1) text).1
      autoNuma host left (ni + 1) (list ++ ((scanInt line).map Prod.fst).toList)

/- The CPUs one token asks for. The branch of a single id checks both bounds, the branch of
a range only the upper one. -/
def specCpus (ncpu : Nat) (tok : List Char) : List Int :=
  let tok := tok.dropWhile isblank
  match scanRange tok with
  | some (start, last) => Int.range start (min (last + 1) ncpu)
  | none =>
    match scanInt tok with
    | some (start, _) => if 0 ≤ start ∧ start < ncpu then [start] else []
    | none => []

def cpuListLoop (ncpu : Nat) : List (List Char) → List Int → List Int
  | [], list => list
  | tok :: rest, list =>
    if list.length < cpuListCells then
      cpuListLoop ncpu rest ((specCpus ncpu tok).foldl (Bounded.push cpuListCells) list)
    else list

/-- The list of CPUs; none is the NULL that leaves the choice to the physical cores. -/
def harnessParseCpuSpec (host : Host) (spec : List Char) : Option (List Int) :=
  if spec = [] then none
  else if spec = "auto".toList then none
  else if spec = "auto-all".toList then some (Int.range 0 host.ncpu)
  else if spec = "auto-numa".toList then
    let list := autoNuma host autoNumaNodes 0 []
    if list = [] then none else some list
  else some (cpuListLoop host.ncpu (tokens ',' spec) [])

def manualPins (host : Host) (config : RunConfig) : Option (List Int) :=
  config.cpuPinSpec.bind (fun spec => harnessParseCpuSpec host spec.toList)

/-- pin_cpu of instance i. -/
def pinCpu (host : Host) (pins : Option (List Int)) (cores : Option CoreMap) (i : Nat) : Int :=
  let manual := pins.getD []
  if manual.length > 0 then manual.getD (i % manual.length) 0
  else
    match cores with
    | none => i
    | some cores =>
      if cores.numPhysical > 0 then
        ((Int.range 0 host.ncpu).find? (fun c => cores.physMap c = i % cores.numPhysical)).getD i
      else i

/-- The same with what the parent sets up before it starts the children. -/
def childPin (host : Host) (config : RunConfig) (i : Nat) : Int :=
  pinCpu host (manualPins host config) (some (harnessGetPhysicalCores host)) i

/- An explicit list. -/

def Explicit (spec : List Char) : Prop :=
  spec ≠ [] ∧ spec ≠ "auto".toList ∧ spec ≠ "auto-all".toList ∧ spec ≠ "auto-numa".toList

theorem cpuListLoop_eq (ncpu : Nat) (toks : List (List Char)) (list : List Int) :
    cpuListLoop ncpu toks (list.take cpuListCells) = (list ++ toks.flatMap (specCpus ncpu)).take cpuListCells := by
  induction toks generalizing list with
  | nil => simp [cpuListLoop]
  | cons tok toks ih =>
    simp only [cpuListLoop, Bounded.foldl_push, ih, List.flatMap_cons, List.append_assoc]
    split
    · rfl
    · rename_i full
      have long : cpuListCells ≤ list.length := by simp at full; omega
      simp only [List.take_append_of_le_length long]

theorem explicit_list (host : Host) {spec : List Char} (explicit : Explicit spec) :
    harnessParseCpuSpec host spec = some (((tokens ',' spec).flatMap (specCpus host.ncpu)).take cpuListCells) := by
  have loop := cpuListLoop_eq host.ncpu (tokens ',' spec) []
  simp only [List.take_nil, List.nil_append] at loop
  rw [harnessParseCpuSpec, if_neg explicit.1, if_neg explicit.2.1, if_neg explicit.2.2.1, if_neg explicit.2.2.2, loop]

theorem explicit_pins (host : Host) {config : RunConfig} (spec : List Char)
    (given : config.cpuPinSpec = some (String.ofList spec)) (explicit : Explicit spec) :
    manualPins host config = some (((tokens ',' spec).flatMap (specCpus host.ncpu)).take cpuListCells) := by
  rw [manualPins, given, Option.bind_some, String.toList_ofList, explicit_list host explicit]

/-- An item of a specification, with the blanks in front of it. -/
structure SpecItem where
  blanks : List Char
  item : CpuItem
  blank : ∀ c ∈ blanks, isblank c = true

def SpecItem.text (i : SpecItem) : List Char := i.blanks ++ i.item.text

def specText (items : List SpecItem) : List Char := [','].intercalate (items.map SpecItem.text)

theorem specItem_cpus (i : SpecItem) {host : Host} (below : i.item.top < host.ncpu) :
    specCpus host.ncpu i.text = i.item.members := by
  have ordered := item_ordered i.item
  have solid : ∀ c ∈ i.item.text.head?, isblank c = false := by
    intro c first
    rcases i.item.chars c (List.mem_of_mem_head? first) with digit | rfl
    · have space := isspace_digit digit
      simp only [isspace, Bool.or_eq_false_iff, beq_eq_false_iff_ne] at space
      have tab : c ≠ '\t' := by rintro rfl; cases digit
      simp [isblank, space.1, tab]
    · decide
  have text : i.text.dropWhile isblank = i.item.text ++ [] := by
    rw [SpecItem.text, List.dropWhile_append_of_pos i.blank]
    simpa using dropWhile_solid solid i.item.text_some []
  have ends : ∀ c ∈ ([] : List Char).head?, c.isDigit = false ∧ c ≠ '-' := by simp
  obtain ⟨range, scan⟩ := i.item.scan ends (below.trans host.fits)
  rw [specCpus, text, range]
  cases last : i.item.last with
  | none =>
    have top : i.item.top = i.item.first.value := by simp [CpuItem.top, last]
    rw [Option.map_none, scan last]
    simp only [if_pos (show (0 : Int) ≤ i.item.first.value ∧ (i.item.first.value : Int) < host.ncpu by omega),
      CpuItem.members, top]
    simp [Int.range]
  | some n =>
    have top : i.item.top = n.value := by simp [CpuItem.top, last]
    simp only [Option.map_some, CpuItem.members, top]
    rw [min_eq_left (by omega)]

/-- A list of ids and ranges is decoded to the CPUs it names, in their order, as many as fit. -/
theorem cpu_spec_decoded (host : Host) (items : List SpecItem) (some_ : items ≠ [])
    (below : ∀ i ∈ items, i.item.top < host.ncpu) : harnessParseCpuSpec host (specText items) =
      some ((items.flatMap (fun i => i.item.members)).take cpuListCells) := by
  have own : ∀ text ∈ items.map SpecItem.text, text ≠ [] ∧ ',' ∉ text := by
    intro text member
    obtain ⟨i, _, rfl⟩ := List.mem_map.mp member
    refine ⟨by simp [SpecItem.text, i.item.text_some], fun comma => ?_⟩
    rcases List.mem_append.mp comma with blank | item
    · exact absurd (i.blank _ blank) (by decide)
    · exact absurd (i.item.chars _ item) (by decide)
  have plain : 'a' ∉ specText items := by
    intro member
    rcases intercalate_mem member with comma | ⟨text, within, inside⟩
    · cases comma
    · obtain ⟨i, _, rfl⟩ := List.mem_map.mp within
      rcases List.mem_append.mp inside with blank | item
      · exact absurd (i.blank _ blank) (by decide)
      · exact absurd (i.item.chars _ item) (by decide)
  have explicit : Explicit (specText items) := by
    refine ⟨fun empty => ?_, fun eq => plain (eq ▸ by decide), fun eq => plain (eq ▸ by decide),
      fun eq => plain (eq ▸ by decide)⟩
    have none := tokens_intercalate own
    rw [← specText, empty] at none
    exact some_ (List.map_eq_nil_iff.mp none.symm)
  have cpus : ∀ i ∈ items, specCpus host.ncpu i.text = i.item.members :=
    fun i member => specItem_cpus i (below i member)
  rw [explicit_list host explicit, specText, tokens_intercalate own, List.flatMap_map, List.flatMap_congr cpus]

/-- An id is online unless it is in a range that starts below zero. -/
theorem specCpus_online {host : Host} {tok : List Char}
    (lower : ∀ start last, scanRange (tok.dropWhile isblank) = some (start, last) → start ≤ last → 0 ≤ start) :
    ∀ c ∈ specCpus host.ncpu tok, host.Online c := by
  intro c member
  unfold specCpus at member
  dsimp only at member
  split at member
  · rename_i start last range
    have bounds := Int.mem_range_iff.mp member
    have positive := lower start last range (by omega)
    exact ⟨by omega, by omega⟩
  · split at member
    · split at member
      · rename_i inside
        simp only [List.mem_singleton.mp member]
        exact inside
      · cases member
    · cases member

/-- A range that starts below zero asks first for the number it starts with. -/
theorem specCpus_negative (host : Host) {tok : List Char} {start last : Int}
    (range : scanRange (tok.dropWhile isblank) = some (start, last)) (ordered : start ≤ last) (negative : start < 0) :
    ∃ rest, specCpus host.ncpu tok = start :: rest := by
  have online := host.online
  obtain ⟨more, eq⟩ := Nat.exists_eq_succ_of_ne_zero (by omega : (min (last + 1) (host.ncpu : Int) - start).toNat ≠ 0)
  refine ⟨(List.range more).map (fun k => start + (k + 1 : Nat)), ?_⟩
  simp [specCpus, range, Int.range, eq, List.range_succ_eq_map, Function.comp_def]

theorem childPin_manual {host : Host} {config : RunConfig} {list : List Int}
    (pins : manualPins host config = some list) (some_ : list ≠ []) (p : Int → Prop) :
    (∀ i, p (childPin host config i)) ↔ ∀ c ∈ list, p c := by
  have positive : 0 < list.length := List.length_pos_of_ne_nil some_
  have pin : ∀ i, childPin host config i = list.get ⟨i % list.length, Nat.mod_lt i positive⟩ := by
    intro i
    have within : i % list.length < list.length := Nat.mod_lt i positive
    simp [childPin, pinCpu, pins, positive, List.getElem?_eq_getElem within]
  simp only [pin]
  constructor
  · intro all c member
    obtain ⟨i, rfl⟩ := List.mem_iff_get.mp member
    have own := all i
    simpa only [Nat.mod_eq_of_lt i.isLt] using own
  · exact fun all i => all _ (List.get_mem _ _)

/-- Every instance is pinned to an online CPU exactly if no range that is reached before the
list is full starts below zero. -/
theorem pins_online_iff (host : Host) {config : RunConfig} (spec : List Char)
    (given : config.cpuPinSpec = some (String.ofList spec)) (explicit : Explicit spec) :
    (∀ list, manualPins host config = some list → list ≠ [] → ∀ i, host.Online (childPin host config i)) ↔
      ∀ before tok after, tokens ',' spec = before ++ tok :: after →
        (before.flatMap (specCpus host.ncpu)).length < cpuListCells →
        ∀ start last, scanRange (tok.dropWhile isblank) = some (start, last) → start ≤ last → 0 ≤ start := by
  have pins := explicit_pins host spec given explicit
  constructor
  · intro all before tok after split reached start last range ordered
    by_contra negative
    obtain ⟨rest, first⟩ := specCpus_negative host range ordered (by omega)
    have member : start ∈ ((tokens ',' spec).flatMap (specCpus host.ncpu)).take cpuListCells := by
      obtain ⟨room, eq⟩ := Nat.exists_eq_succ_of_ne_zero (Nat.sub_ne_zero_of_lt reached)
      refine Bounded.mem_take_flatMap.mpr ⟨before, tok, after, split, ?_⟩
      simp only [first, eq]
      exact List.mem_cons_self
    have some_ := List.ne_nil_of_mem member
    exact negative ((childPin_manual pins some_ host.Online).mp (all _ pins some_) start member).1
  · intro lower list eq some_
    simp only [pins] at eq
    obtain rfl := Option.some.inj eq
    simp only [childPin_manual pins some_ host.Online]
    intro c member
    obtain ⟨before, tok, after, split, within⟩ := Bounded.mem_take_flatMap.mp member
    have reached : (before.flatMap (specCpus host.ncpu)).length < cpuListCells := by
      by_contra full
      rw [Nat.sub_eq_zero_of_le (by omega)] at within
      cases within
    exact specCpus_online (lower before tok after split reached) c (List.mem_of_mem_take within)

/-- Two CPUs that are the threads of one core. -/
def smtHost : Host := .pair (fun _ => some "0-1\n".toList)

theorem cpu_spec_decoded_two : harnessParseCpuSpec smtHost "0-1, 1".toList = some [0, 1, 1] :=
  cpu_spec_decoded smtHost [⟨[], ⟨.zero, some .one, by simp⟩, by simp⟩, ⟨[' '], ⟨.one, none, by simp⟩, by simp [isblank]⟩]
    (by decide) (by decide)

theorem one_pin_online_iff :
    (∀ list, manualPins smtHost { mainConfig with cpuPinSpec := some "1" } = some list → list ≠ [] →
        ∀ i, smtHost.Online (childPin smtHost { mainConfig with cpuPinSpec := some "1" } i)) ↔
      ∀ before tok after, tokens ',' "1".toList = before ++ tok :: after →
        (before.flatMap (specCpus smtHost.ncpu)).length < cpuListCells →
        ∀ start last, scanRange (tok.dropWhile isblank) = some (start, last) → start ≤ last → 0 ≤ start :=
  pins_online_iff smtHost "1".toList (by simp) ⟨by decide, by decide, by decide, by decide⟩

/- "-1-1" lists the CPUs -1, 0 and 1. -/
theorem negative_pin :
    ∃ list, manualPins smtHost { mainConfig with cpuPinSpec := some "-1-1" } = some list ∧ list ≠ [] ∧
      ¬ smtHost.Online (childPin smtHost { mainConfig with cpuPinSpec := some "-1-1" } 0) := by
  have pins : manualPins smtHost { mainConfig with cpuPinSpec := some "-1-1" } = some [-1, 0, 1] := by
    rw [explicit_pins smtHost "-1-1".toList (by simp) ⟨by decide, by decide, by decide, by decide⟩]
    decide +kernel
  refine ⟨_, pins, by decide, fun online => ?_⟩
  have first : childPin smtHost { mainConfig with cpuPinSpec := some "-1-1" } 0 = -1 := by
    simp [childPin, pinCpu, pins]
  simp only [first] at online
  exact absurd online.1 (by decide)

/- The physical cores. -/
section Spread
variable {κ : Type} {host : Host} {core : Int → κ}

theorem childPin_core (numbers : NumbersCores host core (harnessGetPhysicalCores host)) {config : RunConfig}
    (auto : (manualPins host config).getD [] = []) (i : Nat) : host.Online (childPin host config i) ∧
      (harnessGetPhysicalCores host).physMap (childPin host config i) =
        i % (harnessGetPhysicalCores host).numPhysical := by
  have zero : host.Online 0 := ⟨le_refl 0, by exact_mod_cast host.online⟩
  have cores : 0 < (harnessGetPhysicalCores host).numPhysical :=
    Nat.zero_lt_of_lt ((numbers.ids _).mpr ⟨0, zero, rfl⟩)
  obtain ⟨c, online, label⟩ := (numbers.ids _).mp (Nat.mod_lt i cores)
  have exists_ : ((Int.range 0 host.ncpu).find? (fun c => (harnessGetPhysicalCores host).physMap c =
      i % (harnessGetPhysicalCores host).numPhysical)).isSome :=
    List.find?_isSome.mpr ⟨c, Int.mem_range_iff.mpr online, decide_eq_true label⟩
  obtain ⟨first, found⟩ := Option.isSome_iff_exists.mp exists_
  have pin : childPin host config i = first := by
    simp only [childPin, pinCpu, auto, List.length_nil, gt_iff_lt, lt_irrefl, if_false, cores, if_true, found,
      Option.getD_some]
  have chosen := List.find?_some found
  simp only [decide_eq_true_eq] at chosen
  simp only [pin]
  exact ⟨Int.mem_range_iff.mp (List.mem_of_find?_eq_some found), chosen⟩

/-- The physical cores are numbered as they are, and instances share a core exactly if their
numbers agree modulo the number of cores. -/
theorem pinning_spreads (files : SiblingFiles host core) {config : RunConfig}
    (auto : (manualPins host config).getD [] = []) : NumbersCores host core (harnessGetPhysicalCores host) ∧
      ∀ i j, host.Online (childPin host config i) ∧ host.Online (childPin host config j) ∧
        (core (childPin host config i) = core (childPin host config j) ↔
          i ≡ j [MOD (harnessGetPhysicalCores host).numPhysical]) := by
  have numbers := physical_cores files
  refine ⟨numbers, fun i j => ?_⟩
  obtain ⟨onlineI, labelI⟩ := childPin_core numbers auto i
  obtain ⟨onlineJ, labelJ⟩ := childPin_core numbers auto j
  refine ⟨onlineI, onlineJ, ?_⟩
  simp only [← numbers.same _ _ onlineI onlineJ, labelI, labelJ]
  rfl

end Spread

/-- Four CPUs, the threads of two cores: 0 and 2, 1 and 3. -/
def quadHost : Host :=
  .quad (fun path => some (if path = siblingsPath 0 ∨ path = siblingsPath 2 then "0,2\n".toList
    else "1,3\n".toList))

def evenList : SiblingList := ⟨[.single .zero], .single ⟨['2'], by decide, by decide⟩, true⟩
def oddList : SiblingList := ⟨[.single .one], .single ⟨['3'], by decide, by decide⟩, true⟩

theorem quad_files : SiblingFiles quadHost (fun cpu => cpu % 2) := by
  have even (c : Int) : evenList.denotes c ↔ c = 0 ∨ c = 2 := by
    have top : (⟨['2'], by decide, by decide⟩ : Numeral).value = 2 := rfl
    simp [SiblingList.denotes, evenList, CpuItem.single, CpuItem.names, CpuItem.top, top]
    omega
  have odd (c : Int) : oddList.denotes c ↔ c = 1 ∨ c = 3 := by
    have top : (⟨['3'], by decide, by decide⟩ : Numeral).value = 3 := rfl
    simp [SiblingList.denotes, oddList, CpuItem.single, CpuItem.names, CpuItem.top, top]
    omega
  have cpus : quadHost.ncpu = 4 := rfl
  refine ⟨fun cpu online => ?_⟩
  rw [Host.Online, cpus] at online
  have each : cpu = 0 ∨ cpu = 1 ∨ cpu = 2 ∨ cpu = 3 := by omega
  simp only [Host.Online, cpus]
  rcases each with rfl | rfl | rfl | rfl
  · exact ⟨evenList, by decide +kernel, by decide, fun c => by rw [even]; omega⟩
  · exact ⟨oddList, by decide +kernel, by decide, fun c => by rw [odd]; omega⟩
  · exact ⟨evenList, by decide +kernel, by decide, fun c => by rw [even]; omega⟩
  · exact ⟨oddList, by decide +kernel, by decide, fun c => by rw [odd]; omega⟩

theorem quad_spreads : NumbersCores quadHost (fun cpu => cpu % 2) (harnessGetPhysicalCores quadHost) ∧
    ∀ i j, quadHost.Online (childPin quadHost mainConfig i) ∧ quadHost.Online (childPin quadHost mainConfig j) ∧
      (childPin quadHost mainConfig i % 2 = childPin quadHost mainConfig j % 2 ↔
        i ≡ j [MOD (harnessGetPhysicalCores quadHost).numPhysical]) :=
  pinning_spreads quad_files rfl

end ServMark
