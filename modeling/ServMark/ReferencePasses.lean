import ServMark.Reference

/-! The two loops of scoring_load_reference, each with its own tests: the first counts entries, and
the second fills the arrays that are allocated for as many. -/
namespace ServMark
open CText

section Passes
variable {β : Type} (atof : List Char → β)

/-- The first pass adds one for this line. -/
def countsReference (line : List Char) : Bool :=
  let p := (cString line).dropWhile isblank
  if p.head? = some '#' ∨ p.head? = some '\n' ∨ p = [] then false else (strchr '=' p).isSome

/-- The int n of the first pass. -/
def referenceCount (reads : List (List Char)) : Int :=
  reads.foldl (fun n line => if countsReference line then (n + 1).bmod (2 ^ 32) else n) 0

/-- The arrays *names and *baselines; a name is NULL until it is stored. -/
structure ReferenceCells (β : Type) where
  names : List (Option (List Char))
  baselines : List β

/-- The loop of the second pass. -/
def fillReferences (n : Int) : List (List Char) → Nat → ReferenceCells β → ReferenceCells β
  | [], _, cells => cells
  | line :: reads, idx, cells =>
    if (idx : Int) < n then
      let p := (cString line).dropWhile isblank
      if p.head? = some '#' ∨ p.head? = some '\n' ∨ p = [] then fillReferences n reads idx cells
      else
        match strchr '=' p with
        | none => fillReferences n reads idx cells
        | some (name, value) =>
          fillReferences n reads (idx + 1)
            ⟨cells.names.set idx (some (trimName name)), cells.baselines.set idx (atof value)⟩
    else cells

/-- The variables that the caller passes the addresses of: a pointer is NULL or points to cells. -/
structure ReferenceOut (β : Type) where
  names : Option (List (Option (List Char)))
  baselines : Option (List β)
  count : Int

/-- calloc of n cells of eight bytes: where the number of bytes, with n as a size_t, does not fit a
size_t, there is no memory. -/
def callocFits (n : Int) : Bool := decide (n % 2 ^ 64 * 8 < 2 ^ 64)

variable [Zero β] in
/-- The return value and what the caller finds, allocations succeeding where they can. -/
def loadReference (text : Option (List Char)) (out : ReferenceOut β) : Int × ReferenceOut β :=
  match text with
  | none => (-1, out)
  | some text =>
    let reads := fgetsAll referenceLine text
    let n := referenceCount reads
    if n = 0 then (-1, out)
    else if callocFits n = false then (-1, { out with names := none, baselines := none })
    else
      let cells := fillReferences atof n reads 0 ⟨List.replicate n.toNat none, List.replicate n.toNat 0⟩
      (0, ⟨some cells.names, some cells.baselines, n⟩)

/- The two sets of tests. -/

/-- The first pass counts the lines that the second stores. -/
theorem countsReference_eq (line : List Char) : countsReference line = (referenceEntry atof line).isSome := by
  unfold countsReference referenceEntry
  dsimp only
  split
  · rfl
  · rw [Option.isSome_map]

theorem fillReferences_cons (n : Int) (line : List Char) (reads : List (List Char)) (idx : Nat)
    (cells : ReferenceCells β) :
    fillReferences atof n (line :: reads) idx cells =
      if (idx : Int) < n then
        match referenceEntry atof line with
        | none => fillReferences atof n reads idx cells
        | some entry => fillReferences atof n reads (idx + 1)
            ⟨cells.names.set idx (some entry.1), cells.baselines.set idx entry.2⟩
      else cells := by
  rw [fillReferences]
  split
  · unfold referenceEntry
    dsimp only
    split
    · rfl
    · cases strchr '=' ((cString line).dropWhile isblank) <;> rfl
  · rfl

/-- The trimmed name of a line that is no blank one ends in no blank. -/
theorem trimName_last {name : List Char} (first : ∀ c ∈ name.head?, isblank c = false ∧ c ≠ '\n') :
    ∀ c ∈ (trimName name).getLast?, isblank c = false ∧ c ≠ '\n' := by
  cases name with
  | nil => simp [trimName]
  | cons d rest =>
    have own := first d rfl
    have solid : (d :: rest).dropWhile isblank = d :: rest := List.dropWhile_cons_of_neg (by simp [own.1])
    intro c last
    simp only [trimName, solid] at last
    rcases eq_or_ne (rest.rdropWhile (fun c => isblank c || c == '\n')) [] with none | some_
    · rw [none] at last
      exact Option.some.inj last ▸ own
    · have stays := List.rdropWhile_last_not _ _ some_
      rw [List.getLast?_cons_of_ne_nil some_, List.getLast?_eq_some_getLast some_] at last
      rw [Option.some.inj last] at stays
      simpa using stays

/-- What stands in an entry: the text in front of the first sign, trimmed, and the number behind it. -/
theorem referenceEntry_parts {line : List Char} {entry : List Char × β} (read : referenceEntry atof line = some entry) :
    ∃ name value, (cString line).dropWhile isblank = name ++ '=' :: value ∧ '=' ∉ name ∧
      entry = (trimName name, atof value) ∧ ∀ c ∈ (trimName name).getLast?, isblank c = false ∧ c ≠ '\n' := by
  unfold referenceEntry at read
  dsimp only at read
  split at read
  · cases read
  · rename_i plain
    obtain ⟨⟨name, value⟩, found, rfl⟩ := Option.map_eq_some_iff.mp read
    obtain ⟨parts, absent⟩ := strchr_split found
    refine ⟨name, value, parts, absent, rfl, trimName_last (fun c first => ?_)⟩
    have head : ((cString line).dropWhile isblank).head? = some c := by
      rw [parts, List.head?_append, Option.mem_def.mp first]
      rfl
    constructor
    · simpa [head] using List.head?_dropWhile_not isblank (cString line)
    · rintro rfl
      exact plain (Or.inr (Or.inl head))

/- The arrays. -/

variable [Zero β]

/-- The first cells hold these entries, and so many are as calloc left them. -/
def holding (entries : List (List Char × β)) (left : Nat) : ReferenceCells β :=
  ⟨entries.map (fun entry => some entry.1) ++ List.replicate left none,
    entries.map Prod.snd ++ List.replicate left 0⟩

theorem holding_store (entries : List (List Char × β)) (left : Nat) (entry : List Char × β) :
    (⟨(holding entries (left + 1)).names.set entries.length (some entry.1),
      (holding entries (left + 1)).baselines.set entries.length entry.2⟩ : ReferenceCells β) =
        holding (entries ++ [entry]) left := by
  simp [holding, List.replicate_succ]

/-- The second pass stores the entries of the lines until all cells are filled. -/
theorem fillReferences_holding (reads : List (List Char)) (entries : List (List Char × β)) (left : Nat) :
    fillReferences atof (entries.length + left : Nat) reads entries.length (holding entries left) =
      holding (entries ++ (reads.filterMap (referenceEntry atof)).take left)
        (left - (reads.filterMap (referenceEntry atof)).length) := by
  induction reads generalizing entries left with
  | nil => simp [fillReferences]
  | cons line reads ih =>
    rw [fillReferences_cons]
    cases left with
    | zero => simp
    | succ left =>
      rw [if_pos (by omega)]
      cases read : referenceEntry atof line with
      | none => simpa [List.filterMap_cons_none read] using ih entries (left + 1)
      | some entry =>
        have later := ih (entries ++ [entry]) left
        have total : (entries ++ [entry]).length + left = entries.length + (left + 1) := by simp; omega
        rw [total, List.length_append, List.length_singleton, List.append_assoc] at later
        rw [List.filterMap_cons_some read, List.take_succ_cons, List.length_cons, Nat.add_sub_add_right]
        dsimp only
        rw [holding_store]
        exact later

omit [Zero β] in
/-- The first pass counts the entries of the lines, as far as an int does. -/
theorem referenceCount_eq (reads : List (List Char)) :
    referenceCount reads = ((reads.filterMap (referenceEntry atof)).length : Int).bmod (2 ^ 32) := by
  have general : ∀ (reads : List (List Char)) (k : Nat),
      reads.foldl (fun n line => if countsReference line then (n + 1).bmod (2 ^ 32) else n) ((k : Int).bmod (2 ^ 32)) =
        ((k + (reads.filterMap (referenceEntry atof)).length : Nat) : Int).bmod (2 ^ 32) := by
    intro reads
    induction reads with
    | nil =>
      intro k
      rw [List.foldl_nil, List.filterMap_nil, List.length_nil, Nat.add_zero]
    | cons line reads ih =>
      intro k
      rw [List.foldl_cons, countsReference_eq]
      cases read : referenceEntry atof line with
      | none => simpa [List.filterMap_cons_none read] using ih k
      | some entry =>
        have later := ih (k + 1)
        rw [Nat.add_right_comm, Nat.add_assoc] at later
        rw [List.filterMap_cons_some read, List.length_cons, Option.isSome_some, if_pos rfl, Int.bmod_add_bmod]
        exact later
  have start := general reads 0
  rwa [Nat.zero_add, Nat.cast_zero, Int.zero_bmod] at start

/-- The entries of a file, one after the other. -/
def fileEntries (text : List Char) : List (List Char × β) :=
  (fgetsAll referenceLine text).filterMap (referenceEntry atof)

/-- A name without trailing blanks, and the value behind the first sign of its line. -/
def ReadFrom (text : List Char) (entry : List Char × β) : Prop :=
  ∃ line ∈ fgetsAll referenceLine text, ∃ name value, (cString line).dropWhile isblank = name ++ '=' :: value ∧
    '=' ∉ name ∧ entry = (trimName name, atof value) ∧ ∀ c ∈ entry.1.getLast?, isblank c = false ∧ c ≠ '\n'

omit [Zero β] in
theorem fileEntries_read {text : List Char} {entry : List Char × β} (among : entry ∈ fileEntries atof text) :
    ReadFrom atof text entry := by
  obtain ⟨line, member, read⟩ := List.mem_filterMap.mp among
  obtain ⟨name, value, parts, absent, rfl, ends⟩ := referenceEntry_parts atof read
  exact ⟨line, member, name, value, parts, absent, rfl, ends⟩

/-- A number that an int counts is positive, and there are as many, or calloc fails. -/
theorem count_cases (length : Nat) : (length : Int).bmod (2 ^ 32) = 0 ∨
    callocFits ((length : Int).bmod (2 ^ 32)) = false ∨
    ∃ n : Nat, 0 < n ∧ n ≤ length ∧ (length ≤ intMax → n = length) ∧ (length : Int).bmod (2 ^ 32) = n ∧
      callocFits n = true := by
  have low := Int.le_bmod (x := length) (m := 2 ^ 32) (by decide)
  have high := Int.bmod_lt (x := length) (m := 2 ^ 32) (by decide)
  have parts := Int.bdiv_add_bmod (length : Int) (2 ^ 32)
  have largest : intMax = 2147483647 := rfl
  generalize (length : Int).bmod (2 ^ 32) = n at low high parts ⊢
  rcases lt_trichotomy n 0 with negative | zero | positive
  · refine Or.inr (Or.inl (decide_eq_false ?_))
    omega
  · exact Or.inl zero
  · refine Or.inr (Or.inr ⟨n.toNat, by omega, by omega, fun small => ?_, by omega, decide_eq_true ?_⟩)
    · omega
    · omega

/-- A count that memory can be had for: each pass meets this many entries. -/
theorem loadReference_filled {text : List Char} {n : Nat} (positive : 0 < n)
    (enough : n ≤ (fileEntries atof text).length)
    (counted : ((fileEntries atof text).length : Int).bmod (2 ^ 32) = n) (fits : callocFits n = true)
    (out : ReferenceOut β) :
    loadReference atof (some text) out = (0, ⟨some (((fileEntries atof text).take n).map (fun entry => some entry.1)),
      some (((fileEntries atof text).take n).map Prod.snd), n⟩) := by
  have first : referenceCount (fgetsAll referenceLine text) = n := (referenceCount_eq atof _).trans counted
  have filled := fillReferences_holding atof (fgetsAll referenceLine text) [] n
  have cells : (holding [] n : ReferenceCells β) = ⟨List.replicate n none, List.replicate n 0⟩ := by simp [holding]
  rw [List.length_nil, Nat.zero_add, cells, List.nil_append, ← fileEntries, Nat.sub_eq_zero_of_le enough] at filled
  unfold loadReference
  dsimp only
  rw [first, if_neg (by omega), fits, if_neg (by decide), Int.toNat_natCast, filled]
  simp only [holding, List.replicate_zero, List.append_nil]

/-- The three ways the function returns. -/
theorem loadReference_cases (text : List Char) (out : ReferenceOut β) : loadReference atof (some text) out = (-1, out) ∨
    loadReference atof (some text) out = (-1, { out with names := none, baselines := none }) ∨
    ∃ n : Nat, 0 < n ∧ n ≤ (fileEntries atof text).length ∧
      ((fileEntries atof text).length ≤ intMax → n = (fileEntries atof text).length) ∧
      loadReference atof (some text) out = (0, ⟨some (((fileEntries atof text).take n).map (fun entry => some entry.1)),
        some (((fileEntries atof text).take n).map Prod.snd), n⟩) := by
  have counted : referenceCount (fgetsAll referenceLine text) = ((fileEntries atof text).length : Int).bmod (2 ^ 32) :=
    referenceCount_eq atof _
  rcases count_cases (fileEntries atof text).length with zero | fails | ⟨n, positive, enough, whole, eq, fits⟩
  · refine Or.inl ?_
    unfold loadReference
    dsimp only
    exact if_pos (counted.trans zero)
  · unfold loadReference
    dsimp only
    rw [counted, fails]
    split
    · exact Or.inl rfl
    · exact Or.inr (Or.inl rfl)
  · exact Or.inr (Or.inr ⟨n, positive, enough, whole, loadReference_filled atof positive enough eq fits out⟩)

/-- With no more entries than an int counts this is what one pass over them computes. -/
theorem loadReference_refines {text : List Char} (small : (fileEntries atof text).length ≤ intMax)
    (out : ReferenceOut β) {ref : Reference β} (loaded : scoringLoadReference atof true (some text) = some ref) :
    loadReference atof (some text) out = (0, ⟨some (ref.entries.map (fun entry => some entry.1)),
      some (ref.entries.map Prod.snd), ref.count⟩) := by
  have largest : intMax = 2147483647 := rfl
  rw [scoringLoadReference_eq atof, ← fileEntries] at loaded
  dsimp only at loaded
  split at loaded
  · cases loaded
  · rename_i some_
    cases loaded
    have counted : ((fileEntries atof text).length : Int).bmod (2 ^ 32) = (fileEntries atof text).length :=
      Int.bmod_eq_of_le (by omega) (by omega)
    have fits : callocFits (fileEntries atof text).length = true := decide_eq_true (by omega)
    have filled := loadReference_filled atof (List.length_pos_of_ne_nil some_) le_rfl counted fits out
    rwa [List.take_length] at filled

/-- With a return value of 0 the arrays hold the entries of the file in their order, in as many cells
as *count says; with -1 there are no arrays but those of the caller. A file of some entries, as many as an
int counts, is loaded whole. -/
theorem reference_passes_agree (text : List Char) (out : ReferenceOut β) :
    ((loadReference atof (some text) out).1 = 0 → ∃ entries, entries ≠ [] ∧ entries <+: fileEntries atof text ∧
      ((fileEntries atof text).length ≤ intMax → entries = fileEntries atof text) ∧
      (∀ entry ∈ entries, ReadFrom atof text entry) ∧ (loadReference atof (some text) out).2 =
        ⟨some (entries.map (fun entry => some entry.1)), some (entries.map Prod.snd), entries.length⟩) ∧
    ((loadReference atof (some text) out).1 = -1 →
      ((loadReference atof (some text) out).2.names = none ∧ (loadReference atof (some text) out).2.baselines = none) ∨
        (loadReference atof (some text) out).2 = out) ∧
    (fileEntries atof text ≠ [] → (fileEntries atof text).length ≤ intMax → loadReference atof (some text) out =
      (0, ⟨some ((fileEntries atof text).map (fun entry => some entry.1)), some ((fileEntries atof text).map Prod.snd),
        (fileEntries atof text).length⟩)) := by
  refine ⟨fun success => ?_, fun failure => ?_, fun some_ small => ?_⟩
  · rcases loadReference_cases atof text out with unread | freed | ⟨n, positive, enough, whole, result⟩
    · rw [unread] at success
      exact absurd success (by norm_num)
    · rw [freed] at success
      exact absurd success (by norm_num)
    · have length : ((fileEntries atof text).take n).length = n := by rw [List.length_take, min_eq_left enough]
      rw [result]
      refine ⟨(fileEntries atof text).take n, ?_, List.take_prefix _ _, fun small => ?_, ?_, ?_⟩
      · exact List.ne_nil_of_length_pos (by omega)
      · rw [whole small, List.take_length]
      · exact fun entry member => fileEntries_read atof (List.mem_of_mem_take member)
      · rw [length]
  · rcases loadReference_cases atof text out with unread | freed | ⟨n, _, _, _, result⟩
    · rw [unread]
      exact Or.inr rfl
    · rw [freed]
      exact Or.inl ⟨rfl, rfl⟩
    · rw [result] at failure
      exact absurd failure (by norm_num)
  · have loaded := scoringLoadReference_eq atof text
    rw [← fileEntries, if_neg some_] at loaded
    exact loadReference_refines atof small out loaded

end Passes

/-- A comment, a hexadecimal number, a line without sign and an infinity. -/
def mixedLines : List (List Char) :=
  ["# baselines".toList, " int-sort\t= 0x10".toList, "separator".toList, "scan=inf # best".toList]

def emptyOut : ReferenceOut Double := ⟨none, none, 0⟩

theorem mixed_passes_agree : loadReference atof (some (ended mixedLines)) emptyOut =
    (0, ⟨some [some "int-sort".toList, some "scan".toList], some [.finite 16, .infinite false], 2⟩) := by
  have short : ∀ line ∈ mixedLines, '\n' ∉ line ∧ line.length + 1 < referenceLine := by decide
  have reads := fgetsAll_lines short []
  have last : fgetsAll referenceLine [] = [] := by rw [fgetsAll, if_pos (Or.inl rfl)]
  rw [last, List.append_nil, List.append_nil] at reads
  have entries : fileEntries atof (ended mixedLines) =
      [("int-sort".toList, .finite 16), ("scan".toList, .infinite false)] := by
    rw [fileEntries, reads]
    decide +kernel
  have loaded := (reference_passes_agree atof (ended mixedLines) emptyOut).2.2
  rw [entries] at loaded
  exact loaded (by decide) (by decide)

end ServMark
