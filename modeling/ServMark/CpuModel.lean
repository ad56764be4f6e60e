import ServMark.SystemProbe

/-! The processor as system_probe reads it from /proc/cpuinfo: the model, on ARM put together from the lines of all
processors, and the instruction set. -/
namespace ServMark
open CText

/-- sizeof(cline), sizeof(info->cpu_model) and sizeof(info->cpu_isa). -/
def clineSize : Nat := 512
def cpuModelSize : Nat := 256
def cpuIsaSize : Nat := 64

def cpuinfoPath : String := "/proc/cpuinfo"

/-- strncmp with a word and its length. -/
def beginsWith (word : String) (line : List Char) : Bool := word.toList.isPrefixOf line

/-- What stands behind the colon and the blanks after it, without the line end. -/
def colonValue (line : List Char) : Option (List Char) :=
  (strchr ':' line).map (fun parts =>
    let c := parts.2.dropWhile isblank
    if c.getLast? = some '\n' then c.dropLast else c)

/-- strncat with the room that an array of so many bytes has left. -/
def strncat (size : Nat) (s more : List Char) : List Char := s ++ more.take (size - s.length - 1)

def partWord (cline : List Char) : Bool := beginsWith "CPU implementer" cline || beginsWith "CPU part" cline

/-- A part of the model behind a blank. -/
def addPart (model c : List Char) : List Char :=
  strncat cpuModelSize (if model ≠ [] then strncat cpuModelSize model [' '] else model) c

/-- The loop for the model. -/
def modelLoop : List (List Char) → List Char → List Char
  | [], model => model
  | cline :: rest, model =>
    if beginsWith "model name" cline then
      match colonValue cline with
      | some c => c.take (cpuModelSize - 1)
      | none => model
    else if partWord cline then
      match colonValue cline with
      | some c => modelLoop rest (addPart model c)
      | none => modelLoop rest model
    else modelLoop rest model

def isaWord (cline : List Char) : Bool :=
  beginsWith "flags" cline || beginsWith "Features" cline || beginsWith "isa" cline

def cpuinfoLines (host : Host) : List (List Char) :=
  match host.file cpuinfoPath with
  | none => []
  | some text => (fgetsAll clineSize text).map cString

def cpuModel (host : Host) : List Char := modelLoop (cpuinfoLines host) []

def cpuIsa (host : Host) : List Char :=
  match (cpuinfoLines host).find? isaWord with
  | none => []
  | some cline => ((colonValue cline).getD []).take (cpuIsaSize - 1)

/- Lines of the file. -/

/-- A key, a colon, blanks and a value. -/
structure CpuinfoLine where
  key : List Char
  gap : List Char
  value : List Char
  text : ∀ c ∈ key ++ gap ++ value, c ≠ '\n' ∧ c ≠ Char.ofNat 0
  word : ':' ∉ key
  blank : ∀ c ∈ gap, isblank c = true
  solid : ∀ c ∈ value.head?, isblank c = false

def CpuinfoLine.line (l : CpuinfoLine) : List Char := l.key ++ ':' :: (l.gap ++ l.value)

/-- The lines of the file, none for the empty ones between two processors. -/
def cpuinfoLine : Option CpuinfoLine → List Char
  | none => []
  | some l => l.line

/-- Where the value starts there is room in the buffer for so much of it. -/
def CpuinfoLine.Reaches (l : CpuinfoLine) (size : Nat) : Prop := l.key.length + l.gap.length + size < clineSize - 1

theorem line_text (l : CpuinfoLine) : ∀ c ∈ l.line, c ≠ '\n' ∧ c ≠ Char.ofNat 0 := by
  intro c member
  simp only [CpuinfoLine.line, List.mem_append, List.mem_cons] at member
  rcases member with key | rfl | gap | value
  · exact l.text c (by simp [key])
  · exact ⟨by decide, by decide⟩
  · exact l.text c (by simp [gap])
  · exact l.text c (by simp [value])

/-- A word without a colon can only be found in the key. -/
theorem beginsWith_key {word : String} {key : List Char} (plain : ':' ∉ word.toList) (rest : List Char) :
    beginsWith word (key ++ ':' :: rest) = beginsWith word key := by
  rw [Bool.eq_iff_iff, beginsWith, beginsWith, List.isPrefixOf_iff_prefix, List.isPrefixOf_iff_prefix]
  refine ⟨fun inside => ?_, fun inside => inside.trans (List.prefix_append _ _)⟩
  rcases List.prefix_or_prefix_of_prefix inside (List.prefix_append key (':' :: rest)) with short | ⟨more, eq⟩
  · exact short
  · rw [← eq, List.prefix_append_right_inj] at inside
    obtain rfl | ⟨tail, rfl, _⟩ := List.prefix_cons_iff.mp inside
    · rw [← eq, List.append_nil]
    · exact absurd (eq ▸ List.mem_append_right key List.mem_cons_self) plain

/-- The value, as far as the buffer holds it. -/
theorem colonValue_line (l : CpuinfoLine) {k : Nat} (some_ : 0 < k) :
    colonValue (l.key ++ ':' :: (l.gap ++ (l.value ++ ['\n']).take k)) = some (l.value.take k) := by
  have newline : '\n' ∉ l.value := fun member => (l.text '\n' (by simp [member])).1 rfl
  have solid : ∀ c ∈ ((l.value ++ ['\n']).take k).head?, isblank c = false := by
    intro c first
    cases value : l.value with
    | nil =>
      obtain ⟨k, rfl⟩ := Nat.exists_eq_succ_of_ne_zero some_.ne'
      rw [value] at first
      cases first
      decide
    | cons x rest =>
      obtain ⟨k, rfl⟩ := Nat.exists_eq_succ_of_ne_zero some_.ne'
      rw [value] at first
      cases first
      exact l.solid _ (by rw [value]; rfl)
  have skipped : (l.gap ++ (l.value ++ ['\n']).take k).dropWhile isblank = (l.value ++ ['\n']).take k := by
    rw [List.dropWhile_append_of_pos l.blank]
    cases there : (l.value ++ ['\n']).take k with
    | nil => rfl
    | cons c rest => exact List.dropWhile_cons_of_neg (by rw [solid c (by rw [there]; rfl)]; decide)
  rw [colonValue, strchr_append l.word, Option.map_some, skipped]
  rcases Nat.lt_or_ge l.value.length k with whole | cut
  · rw [List.take_of_length_le (by simp; omega), List.take_of_length_le whole.le]
    simp
  · rw [List.take_append_of_le_length cut, if_neg]
    intro last
    exact newline (List.mem_of_mem_take (List.mem_of_getLast? last))

theorem strncat_take (n : Nat) (s more : List Char) : strncat (n + 1) (s.take n) more = (s ++ more).take n := by
  have room : n + 1 - (s.take n).length - 1 = n - s.length := by
    rw [List.length_take]
    omega
  rw [strncat, room, List.take_append]

theorem strncat_length {size : Nat} {s : List Char} (fits : s.length < size) (more : List Char) :
    (strncat size s more).length < size := by
  rw [strncat, List.length_append, List.length_take]
  omega

theorem addPart_length {model : List Char} (fits : model.length < cpuModelSize) (c : List Char) :
    (addPart model c).length < cpuModelSize := by
  refine strncat_length ?_ c
  split_ifs
  · exact strncat_length fits _
  · exact fits

/-- No line stores outside the array. -/
theorem modelLoop_length (lines : List (List Char)) {model : List Char} (fits : model.length < cpuModelSize) :
    (modelLoop lines model).length < cpuModelSize := by
  have size : cpuModelSize = 256 := rfl
  induction lines generalizing model with
  | nil => exact fits
  | cons cline rest ih =>
    unfold modelLoop
    split_ifs with named part
    · split
      · rw [List.length_take]
        omega
      · exact fits
    · split
      · exact ih (addPart_length fits _)
      · exact ih fits
    · exact ih fits

/- What the lines of an ARM machine are put together to. -/

def partValue (cline : List Char) : Option (List Char) := if partWord cline then colonValue cline else none

def spacedOut (s value : List Char) : List Char := if s ≠ [] then s ++ ' ' :: value else value

theorem addPart_take (s c : List Char) : addPart (s.take 255) c = (spacedOut s c).take 255 := by
  have size : cpuModelSize = 255 + 1 := rfl
  have empty : s.take 255 = [] ↔ s = [] := by simp
  rw [addPart, size, spacedOut]
  by_cases none : s = []
  · rw [if_neg (not_not.mpr (empty.mpr none)), if_neg (not_not.mpr none), strncat_take, none, List.nil_append]
  · rw [if_pos (mt empty.mp none), if_pos none, strncat_take, strncat_take, List.append_assoc]
    rfl

/-- The array holds the first 255 bytes of what the loop would put together without it. -/
theorem modelLoop_parts {lines : List (List Char)} (unnamed : ∀ cline ∈ lines, beginsWith "model name" cline = false)
    (s : List Char) : modelLoop lines (s.take 255) = ((lines.filterMap partValue).foldl spacedOut s).take 255 := by
  induction lines generalizing s with
  | nil => rfl
  | cons cline rest ih =>
    obtain ⟨own, unnamed⟩ := List.forall_mem_cons.mp unnamed
    rw [modelLoop, if_neg (by rw [own]; decide)]
    by_cases part : partWord cline = true
    · rw [if_pos part]
      cases value : colonValue cline with
      | none =>
        rw [List.filterMap_cons_none (by rw [partValue, if_pos part, value])]
        exact ih unnamed s
      | some c =>
        rw [List.filterMap_cons_some (by rw [partValue, if_pos part, value]), List.foldl_cons]
        simp only [addPart_take]
        exact ih unnamed (spacedOut s c)
    · rw [if_neg part, List.filterMap_cons_none (by rw [partValue, if_neg part])]
      exact ih unnamed s

theorem spacedOut_all {values : List (List Char)} (some_ : ∀ v ∈ values, v ≠ []) :
    values.foldl spacedOut [] = [' '].intercalate values := by
  have behind (s : List Char) (filled : s ≠ []) (values : List (List Char)) :
      values.foldl spacedOut s = s ++ values.flatMap (fun v => ' ' :: v) := by
    induction values generalizing s with
    | nil => simp
    | cons v values ih =>
      have filled' : s ++ ' ' :: v ≠ [] := by simp
      rw [List.foldl_cons, spacedOut, if_pos filled, ih _ filled', List.flatMap_cons, List.append_assoc]
  have spaces (v : List Char) (values : List (List Char)) :
      [' '].intercalate (v :: values) = v ++ values.flatMap (fun v => ' ' :: v) := by
    induction values generalizing v with
    | nil => simp [List.intercalate]
    | cons w values ih =>
      have later := ih w
      simp only [List.intercalate, List.intersperse, List.flatten_cons, List.flatMap_cons, List.cons_append,
        List.nil_append] at later ⊢
      rw [later]
  cases values with
  | nil => rfl
  | cons v values =>
    rw [List.foldl_cons, spaces, ← behind v (some_ v List.mem_cons_self)]
    rfl

/- The lines as the loops see them. -/

theorem cString_line (l : CpuinfoLine) : cString (l.line ++ ['\n']) = l.line ++ ['\n'] := by
  refine cString_eq (fun c member => ?_)
  rcases List.mem_append.mp member with inside | newline
  · exact (line_text l c inside).2
  · rw [List.mem_singleton.mp newline]
    decide

theorem cpuinfoLine_read (l : Option CpuinfoLine) : cString (cpuinfoLine l ++ ['\n']) = cpuinfoLine l ++ ['\n'] := by
  cases l with
  | none => exact cString_eq (by simp [cpuinfoLine])
  | some l => exact cString_line l

theorem cpuinfoLine_single (l : Option CpuinfoLine) : '\n' ∉ cpuinfoLine l := by
  cases l with
  | none => nofun
  | some l => exact fun member => (line_text l '\n' member).1 rfl

theorem line_split (l : CpuinfoLine) : l.line ++ ['\n'] = l.key ++ ':' :: (l.gap ++ (l.value ++ ['\n'])) := by
  simp [CpuinfoLine.line]

/-- Whether the key of a line begins so. -/
def keyed (word : String) (l : Option CpuinfoLine) : Bool := l.any (fun l => beginsWith word l.key)

theorem keyed_line {word : String} (plain : ':' ∉ word.toList) (blank : beginsWith word ['\n'] = false)
    (l : Option CpuinfoLine) : beginsWith word (cpuinfoLine l ++ ['\n']) = keyed word l := by
  cases l with
  | none => exact blank
  | some l =>
    rw [cpuinfoLine, line_split, beginsWith_key plain]
    rfl

/-- The lines of a file that begins with short ones. -/
theorem cpuinfoLines_front {host : Host} {front : List (Option CpuinfoLine)} {rest : List Char}
    (file : host.file cpuinfoPath = some (ended (front.map cpuinfoLine) ++ rest))
    (short : ∀ l ∈ front, (cpuinfoLine l).length + 1 < clineSize) : cpuinfoLines host =
      front.map (fun l => cpuinfoLine l ++ ['\n']) ++ (fgetsAll clineSize rest).map cString := by
  have lines : ∀ line ∈ front.map cpuinfoLine, '\n' ∉ line ∧ line.length + 1 < clineSize :=
    List.forall_mem_map.mpr (fun l member => ⟨cpuinfoLine_single l, short l member⟩)
  rw [cpuinfoLines, file]
  simp only [fgetsAll_lines lines, List.map_append, List.map_map, Function.comp_def, cpuinfoLine_read]

/-- The first piece of a line of any length. -/
theorem fgetsAll_first (l : CpuinfoLine) (rest : List Char) :
    ∃ later, (fgetsAll clineSize (l.line ++ '\n' :: rest)).map cString =
      (l.line ++ ['\n']).take (clineSize - 1) :: later := by
  have single : '\n' ∉ l.line := cpuinfoLine_single (some l)
  have closed : Closed (l.line ++ ['\n']) := Or.inr ⟨_, rfl⟩
  have split : l.line ++ '\n' :: rest = l.line ++ ['\n'] ++ rest := by simp
  have goes : ¬ (l.line ++ ['\n'] ++ rest = [] ∨ clineSize < 2) := by simp [clineSize]
  have text : ∀ c ∈ (l.line ++ ['\n']).take (clineSize - 1), c ≠ Char.ofNat 0 := by
    intro c member
    rcases List.mem_append.mp (List.mem_of_mem_take member) with inside | newline
    · exact (line_text l c inside).2
    · rw [List.mem_singleton.mp newline]
      decide
  rw [split, fgetsAll, if_neg goes, (fgets_closed closed (by simp) _ rest).1, fgets_take single, List.map_cons,
    cString_eq text]
  exact ⟨_, rfl⟩

theorem line_taken {l : CpuinfoLine} {size : Nat} (reaches : l.Reaches size) : ∃ k ≥ size,
    (l.line ++ ['\n']).take (clineSize - 1) = l.key ++ ':' :: (l.gap ++ (l.value ++ ['\n']).take k) := by
  unfold CpuinfoLine.Reaches at reaches
  have front : (l.key ++ ':' :: l.gap).length = l.key.length + 1 + l.gap.length := by simp; omega
  have split : l.line ++ ['\n'] = (l.key ++ ':' :: l.gap) ++ (l.value ++ ['\n']) := by simp [CpuinfoLine.line]
  refine ⟨clineSize - 1 - (l.key.length + 1 + l.gap.length), by omega, ?_⟩
  rw [split, List.take_append, front, List.take_of_length_le (by omega)]
  simp

/-- The first line that names the model decides, whatever was put together before it. -/
theorem modelLoop_named {front : List (List Char)} (unnamed : ∀ cline ∈ front, beginsWith "model name" cline = false)
    {cline c : List Char} (named : beginsWith "model name" cline = true) (own : colonValue cline = some c)
    (later : List (List Char)) (model : List Char) :
    modelLoop (front ++ cline :: later) model = c.take (cpuModelSize - 1) := by
  induction front generalizing model with
  | nil => rw [List.nil_append, modelLoop, if_pos named, own]
  | cons first front ih =>
    obtain ⟨other, unnamed⟩ := List.forall_mem_cons.mp unnamed
    rw [List.cons_append, modelLoop, if_neg (by rw [other]; decide)]
    split_ifs
    · split
      · exact ih unnamed _
      · exact ih unnamed model
    · exact ih unnamed model

/-- The model of a file with a line that names it. -/
theorem cpuModel_named {host : Host} {front : List (Option CpuinfoLine)} {l : CpuinfoLine} {rest : List Char}
    (file : host.file cpuinfoPath = some (ended (front.map cpuinfoLine) ++ (l.line ++ '\n' :: rest)))
    (short : ∀ f ∈ front, (cpuinfoLine f).length + 1 < clineSize)
    (plain : ∀ f ∈ front, keyed "model name" f = false) (named : beginsWith "model name" l.key = true)
    (reaches : l.Reaches 255) : cpuModel host = l.value.take 255 := by
  obtain ⟨later, first⟩ := fgetsAll_first l rest
  obtain ⟨k, far, taken⟩ := line_taken reaches
  have size : cpuModelSize - 1 = 255 := rfl
  have unnamed : ∀ cline ∈ front.map (fun f => cpuinfoLine f ++ ['\n']), beginsWith "model name" cline = false := by
    rw [List.forall_mem_map]
    intro f member
    rw [keyed_line (by decide) (by decide)]
    exact plain f member
  have hit : beginsWith "model name" (l.key ++ ':' :: (l.gap ++ (l.value ++ ['\n']).take k)) = true := by
    rw [beginsWith_key (by decide), named]
  rw [cpuModel, cpuinfoLines_front file short, first, taken,
    modelLoop_named unnamed hit (colonValue_line l (by omega)), size, List.take_take, Nat.min_eq_left far]

/-- The parts in a file, in the order of its lines. -/
def parts (lines : List (Option CpuinfoLine)) : List (List Char) :=
  lines.filterMap (fun l =>
    l.bind (fun l => if beginsWith "CPU implementer" l.key || beginsWith "CPU part" l.key then some l.value else none))

theorem cpuModel_parts {host : Host} {lines : List (Option CpuinfoLine)}
    (file : host.file cpuinfoPath = some (ended (lines.map cpuinfoLine)))
    (short : ∀ l ∈ lines, (cpuinfoLine l).length + 1 < clineSize)
    (unnamed : ∀ l ∈ lines, keyed "model name" l = false) (some_ : ∀ v ∈ parts lines, v ≠ []) :
    cpuModel host = ([' '].intercalate (parts lines)).take 255 := by
  have read := @cpuinfoLines_front host lines [] (by rw [List.append_nil]; exact file) short
  have nothing : fgetsAll clineSize [] = [] := by rw [fgetsAll, if_pos (Or.inl rfl)]
  rw [nothing, List.map_nil, List.append_nil] at read
  have plain : ∀ cline ∈ cpuinfoLines host, beginsWith "model name" cline = false := by
    rw [read, List.forall_mem_map]
    intro l member
    rw [keyed_line (by decide) (by decide)]
    exact unnamed l member
  have value (l : Option CpuinfoLine) : partValue (cpuinfoLine l ++ ['\n']) =
      l.bind (fun l =>
        if beginsWith "CPU implementer" l.key || beginsWith "CPU part" l.key then some l.value else none) := by
    rw [partValue, partWord, keyed_line (by decide) (by decide), keyed_line (by decide) (by decide)]
    cases l with
    | none => rfl
    | some l =>
      have whole : (l.value ++ ['\n']).take (l.value.length + 1) = l.value ++ ['\n'] :=
        List.take_of_length_le (by simp)
      have own := colonValue_line l (Nat.succ_pos l.value.length)
      rw [whole, List.take_of_length_le (Nat.le_succ _)] at own
      rw [cpuinfoLine, line_split, own]
      rfl
  have found : (cpuinfoLines host).filterMap partValue = parts lines := by
    rw [read, List.filterMap_map]
    exact List.filterMap_congr (fun l _ => value l)
  have loop := modelLoop_parts plain []
  rw [found, spacedOut_all some_] at loop
  exact loop

/-- Whether a line is one of the instruction set. -/
def isaKeyed (l : Option CpuinfoLine) : Bool := keyed "flags" l || keyed "Features" l || keyed "isa" l

theorem cpuIsa_read {host : Host} {front : List (Option CpuinfoLine)} {l : CpuinfoLine} {rest : List Char}
    (file : host.file cpuinfoPath = some (ended (front.map cpuinfoLine) ++ (l.line ++ '\n' :: rest)))
    (short : ∀ f ∈ front, (cpuinfoLine f).length + 1 < clineSize) (plain : ∀ f ∈ front, isaKeyed f = false)
    (named : isaKeyed (some l) = true) (reaches : l.Reaches 63) : cpuIsa host = l.value.take 63 := by
  obtain ⟨later, first⟩ := fgetsAll_first l rest
  obtain ⟨k, far, taken⟩ := line_taken reaches
  have hit : isaWord (l.key ++ ':' :: (l.gap ++ (l.value ++ ['\n']).take k)) = true := by
    rw [isaWord, beginsWith_key (by decide), beginsWith_key (by decide), beginsWith_key (by decide)]
    exact named
  have misses : (front.map (fun l => cpuinfoLine l ++ ['\n'])).find? isaWord = none := by
    rw [List.find?_eq_none, List.forall_mem_map]
    intro f member
    rw [isaWord, keyed_line (by decide) (by decide), keyed_line (by decide) (by decide),
      keyed_line (by decide) (by decide)]
    exact Bool.eq_false_iff.mp (plain f member)
  have size : cpuIsaSize - 1 = 63 := rfl
  rw [cpuIsa, cpuinfoLines_front file short, first, taken, List.find?_append, misses, Option.none_or,
    List.find?_cons_of_pos hit]
  simp only [colonValue_line l (show 0 < k by omega), Option.getD_some, size, List.take_take, Nat.min_eq_left far]

theorem cpuIsa_length (host : Host) : (cpuIsa host).length < cpuIsaSize := by
  have size : cpuIsaSize = 64 := rfl
  unfold cpuIsa
  split
  · exact Nat.zero_lt_succ 63
  · rw [List.length_take]
    omega

/-- Whatever the file holds, nothing is stored outside the two arrays. A file with a line for the model gives its value,
one of an ARM machine the parts of all processors with blanks between them, and the first line of the instruction set
its value, each as far as the array reaches; how long the line is and what follows it does not matter. -/
theorem cpuinfo_read (host : Host) :
    (cpuModel host).length < cpuModelSize ∧ (cpuIsa host).length < cpuIsaSize ∧
    (∀ (front : List (Option CpuinfoLine)) (l : CpuinfoLine) (rest : List Char),
      host.file cpuinfoPath = some (ended (front.map cpuinfoLine) ++ (l.line ++ '\n' :: rest)) →
      (∀ f ∈ front, (cpuinfoLine f).length + 1 < clineSize) →
      ((∀ f ∈ front, keyed "model name" f = false) →
        beginsWith "model name" l.key = true → l.Reaches 255 → cpuModel host = l.value.take 255) ∧
      ((∀ f ∈ front, isaKeyed f = false) → isaKeyed (some l) = true → l.Reaches 63 →
        cpuIsa host = l.value.take 63)) ∧
    ∀ lines : List (Option CpuinfoLine), host.file cpuinfoPath = some (ended (lines.map cpuinfoLine)) →
      (∀ l ∈ lines, (cpuinfoLine l).length + 1 < clineSize) → (∀ l ∈ lines, keyed "model name" l = false) →
      (∀ v ∈ parts lines, v ≠ []) → cpuModel host = ([' '].intercalate (parts lines)).take 255 := by
  refine ⟨modelLoop_length _ (by decide), cpuIsa_length host, fun front l rest file short => ⟨?_, ?_⟩, ?_⟩
  · exact fun plain named reaches => cpuModel_named file short plain named reaches
  · exact fun plain named reaches => cpuIsa_read file short plain named reaches
  · exact fun lines file short unnamed some_ => cpuModel_parts file short unnamed some_

example : cpuModel (.pair (fun _ => some "CPU implementer\t: 0x41\nCPU part\t: 0xd0c\n\nCPU part\t: 0xd0c\n".toList)) =
    "0x41 0xd0c 0xd0c".toList := by decide +kernel

end ServMark
