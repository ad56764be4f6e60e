import ServMark.Types
import ServMark.Library.CText
import ServMark.Library.Stores
import Mathlib.Data.Int.Range

/-! harness_parse_numa_bind: the NUMA node of each CPU, from a number of nodes, from a list
of entries or from a file of such lists. Allocations succeed. -/
namespace ServMark
open CText

/-- sizeof(line). -/
def topoLineSize : Nat := 4096

/- The result of a call: what it returns, and its assignments cpu_to_numa[c] = nid in their
order. Each of them adds one to the count. -/
structure NumaBind where
  bound : Nat
  stores : List (Int × Int)

def NumaBind.unbound : NumaBind := ⟨0, []⟩

def NumaBind.store (bind : NumaBind) (cpu node : Int) : NumaBind := ⟨bind.bound + 1, bind.stores ++ [(cpu, node)]⟩

/-- The array after the call, all cells of which are -1 before the first assignment. -/
def NumaBind.node (bind : NumaBind) : Int → Int := Stores.apply bind.stores (fun _ => -1)

/-- One token "cpu:node" or "first-last:node"; a single CPU has no last one. -/
structure NumaEntry where
  first : Int
  last : Option Int
  node : Int

def numaEntry (tok : List Char) : Option NumaEntry :=
  match strchr ':' (tok.dropWhile isblank) with
  | none => none
  | some (cpus, node) =>
    match scanRange cpus with
    | some (start, last) => some ⟨start, some last, atoi node⟩
    | none => (scanInt cpus).map (fun start => ⟨start.1, none, atoi node⟩)

/- The cells an entry is stored to. Only the branch of a single CPU checks the lower bound. -/
def NumaEntry.cells (ncpu maxCpu : Nat) (e : NumaEntry) : List Int :=
  match e.last with
  | some last => Int.range e.first (min (last + 1) (min ncpu maxCpu))
  | none => if 0 ≤ e.first ∧ e.first < ncpu ∧ e.first < maxCpu then [e.first] else []

def bindEntry (ncpu maxCpu : Nat) (bind : NumaBind) (e : NumaEntry) : NumaBind :=
  (e.cells ncpu maxCpu).foldl (fun bind cpu => bind.store cpu e.node) bind

/-- The loop over the tokens, of which the source has two copies. -/
def bindTokens (ncpu maxCpu : Nat) (buf : List Char) : NumaBind :=
  (tokens ',' buf).foldl (fun bind tok =>
    match numaEntry tok with
    | none => bind
    | some e => bindEntry ncpu maxCpu bind e) .unbound

/-- A specification that is one number between 1 and 16. -/
def shorthand (spec : List Char) : Option Int :=
  if strtolEnd spec = [] ∧ 0 < strtol spec ∧ strtol spec ≤ 16 then some (strtol spec) else none

def interleave (ncpu maxCpu : Nat) (nodes : Int) : NumaBind :=
  (Int.range 0 (min ncpu maxCpu)).foldl (fun bind cpu => bind.store cpu (cpu % nodes)) .unbound

/-- A line of a file joined to what came before it, unless it is skipped. -/
def topoLine (combined : Option (List Char)) (line : List Char) : Option (List Char) :=
  let p := (cString line).dropWhile isblank
  if p.head? = some '#' ∨ p.head? = some '\n' ∨ p = [] then combined
  else
    let p := p.rdropWhile (fun c => c == '\n' || c == '\r')
    let before := combined.getD []
    some (if before.length > 0 then before ++ ',' :: p else p)

/-- The lines of a file in one text, none where it cannot be opened or has no such line. -/
def topoText (host : Host) (path : String) : Option (List Char) :=
  (host.file path).bind (fun text => (fgetsAll topoLineSize text).foldl topoLine none)

def harnessParseNumaBind (host : Host) (spec : List Char) (maxCpu : Nat) : NumaBind :=
  if spec = [] then .unbound
  else
    match shorthand spec with
    | some nodes => interleave host.ncpu maxCpu nodes
    | none =>
      if spec.head? = some '@' then
        match topoText host (String.ofList spec.tail) with
        | none => .unbound
        | some buf => bindTokens host.ncpu maxCpu buf
      else bindTokens host.ncpu maxCpu spec

/- The entries of a specification, which a number of nodes does not have. -/

def entriesOf (buf : List Char) : List NumaEntry := (tokens ',' buf).filterMap numaEntry

def numaEntries (host : Host) (spec : List Char) : List NumaEntry :=
  if (shorthand spec).isSome then []
  else if spec.head? = some '@' then ((topoText host (String.ofList spec.tail)).map entriesOf).getD []
  else entriesOf spec

theorem foldl_store {β : Type} (items : List β) (cpu node : β → Int) (bind : NumaBind) :
    items.foldl (fun bind item => bind.store (cpu item) (node item)) bind =
      ⟨bind.bound + items.length, bind.stores ++ items.map (fun item => (cpu item, node item))⟩ := by
  induction items generalizing bind with
  | nil => simp
  | cons item items ih =>
    simp only [List.foldl_cons, ih]
    simp [NumaBind.store]
    omega

def NumaEntry.stores (ncpu maxCpu : Nat) (e : NumaEntry) : List (Int × Int) :=
  (e.cells ncpu maxCpu).map (fun cpu => (cpu, e.node))

theorem bindEntry_eq (ncpu maxCpu : Nat) (bind : NumaBind) (e : NumaEntry) : bindEntry ncpu maxCpu bind e =
    ⟨bind.bound + (e.stores ncpu maxCpu).length, bind.stores ++ e.stores ncpu maxCpu⟩ := by
  simp only [bindEntry, foldl_store, NumaEntry.stores, List.length_map]

def bindEntries (ncpu maxCpu : Nat) (entries : List NumaEntry) : NumaBind :=
  ⟨(entries.flatMap (NumaEntry.stores ncpu maxCpu)).length, entries.flatMap (NumaEntry.stores ncpu maxCpu)⟩

theorem bindTokens_eq (ncpu maxCpu : Nat) (buf : List Char) :
    bindTokens ncpu maxCpu buf = bindEntries ncpu maxCpu (entriesOf buf) := by
  unfold bindTokens entriesOf
  induction tokens ',' buf using List.reverseRecOn with
  | nil => rfl
  | append_singleton toks tok ih =>
    simp only [List.foldl_append, ih, List.filterMap_append]
    cases entry : numaEntry tok with
    | none => simp [entry]
    | some e => simp [entry, bindEntry_eq, bindEntries]

theorem bind_shorthand (host : Host) {spec : List Char} {nodes : Int} (short : shorthand spec = some nodes)
    (maxCpu : Nat) : harnessParseNumaBind host spec maxCpu = interleave host.ncpu maxCpu nodes := by
  have some_ : spec ≠ [] := by
    rintro rfl
    cases short
  simp only [harnessParseNumaBind, if_neg some_, short]

/-- Every other specification assigns what its entries say, one after the other. -/
theorem bind_entries (host : Host) {spec : List Char} (list : shorthand spec = none) (maxCpu : Nat) :
    harnessParseNumaBind host spec maxCpu = bindEntries host.ncpu maxCpu (numaEntries host spec) := by
  unfold harnessParseNumaBind numaEntries
  simp only [list, Option.isSome_none, Bool.false_eq_true, if_false, bindTokens_eq]
  split
  · rename_i empty
    simp only [empty]
    rfl
  · split
    · cases topoText host (String.ofList spec.tail) <;> rfl
    · rfl

theorem interleave_stores (ncpu maxCpu : Nat) (nodes : Int) : (interleave ncpu maxCpu nodes).stores =
    (Int.range 0 (min ncpu maxCpu)).map (fun cpu => (cpu, cpu % nodes)) := by
  simp only [interleave, foldl_store, NumaBind.unbound, List.nil_append]

/- Where the assignments go. -/

def Inside (host : Host) (maxCpu : Nat) (cpu : Int) : Prop := 0 ≤ cpu ∧ cpu < min (host.ncpu : Int) maxCpu

theorem interleave_inside (host : Host) (maxCpu : Nat) (nodes : Int) :
    ∀ st ∈ (interleave host.ncpu maxCpu nodes).stores, Inside host maxCpu st.1 := by
  intro st member
  simp only [interleave_stores] at member
  obtain ⟨cpu, within, rfl⟩ := List.mem_map.mp member
  exact Int.mem_range_iff.mp within

/-- An entry stays inside the array exactly if it is no range from below zero upwards. -/
theorem entry_inside_iff (host : Host) {maxCpu : Nat} (some_ : 0 < maxCpu) (e : NumaEntry) :
    (∀ st ∈ e.stores host.ncpu maxCpu, Inside host maxCpu st.1) ↔
      ∀ last, e.last = some last → e.first ≤ last → 0 ≤ e.first := by
  have online := host.online
  have cells : (∀ st ∈ e.stores host.ncpu maxCpu, Inside host maxCpu st.1) ↔
      ∀ cpu ∈ e.cells host.ncpu maxCpu, Inside host maxCpu cpu := by
    simp [NumaEntry.stores]
  simp only [cells, NumaEntry.cells]
  cases e.last with
  | some last =>
    simp only [Int.mem_range_iff, Option.some.injEq, forall_eq', Inside]
    constructor
    · intro inside ordered
      by_contra negative
      exact negative (inside e.first ⟨le_refl _, by omega⟩).1
    · intro lower cpu within
      have positive := lower (by omega)
      omega
  | none =>
    simp only [reduceCtorEq, false_implies, implies_true, iff_true]
    split
    · rename_i inside
      intro cpu member
      simp only [List.mem_singleton.mp member]
      exact ⟨inside.1, lt_min inside.2.1 inside.2.2⟩
    · intro cpu member
      cases member

/-- Every assignment stays inside the array exactly if no entry is a range from below zero
upwards. -/
theorem stores_inside_iff (host : Host) (spec : List Char) {maxCpu : Nat} (some_ : 0 < maxCpu) :
    (∀ st ∈ (harnessParseNumaBind host spec maxCpu).stores, Inside host maxCpu st.1) ↔
      ∀ e ∈ numaEntries host spec, ∀ last, e.last = some last → e.first ≤ last → 0 ≤ e.first := by
  cases list : shorthand spec with
  | some nodes =>
    simp only [bind_shorthand host list]
    have none : numaEntries host spec = [] := by simp [numaEntries, list]
    simp only [none, List.not_mem_nil, false_implies, implies_true, iff_true]
    exact interleave_inside host maxCpu nodes
  | none =>
    simp only [bind_entries host list]
    simp only [bindEntries, List.forall_mem_flatMap, entry_inside_iff host some_]

def numaHost : Host := .pair (fun _ => some "# sockets\n0:0\r\n\n 1:1\n".toList)

theorem two_nodes_inside_iff :
    (∀ st ∈ (harnessParseNumaBind numaHost "0:0,1:1".toList 2).stores, Inside numaHost 2 st.1) ↔
      ∀ e ∈ numaEntries numaHost "0:0,1:1".toList, ∀ last, e.last = some last → e.first ≤ last → 0 ≤ e.first :=
  stores_inside_iff numaHost "0:0,1:1".toList (by decide)

/- "-1-0:0" assigns to the cell in front of the array. -/
theorem negative_range_outside :
    ¬ ∀ st ∈ (harnessParseNumaBind numaHost "-1-0:0".toList 2).stores, Inside numaHost 2 st.1 := by
  have stores : (harnessParseNumaBind numaHost "-1-0:0".toList 2).stores = [(-1, 0), (0, 0)] := by decide +kernel
  simp only [stores]
  intro inside
  exact absurd (inside (-1, 0) List.mem_cons_self).1 (by decide)

/- Topology files: the lines of a file are read, cleaned and joined with commas. -/

/-- "cpu:node" or "first-last:node" with any blanks before it. -/
structure TopoEntry where
  lead : List Char
  blanks : lead.all isblank = true
  first : Numeral
  last : Option Numeral
  node : Numeral

def TopoEntry.tail (e : TopoEntry) : List Char :=
  (match e.last with
    | none => []
    | some n => '-' :: n.chars) ++ ':' :: e.node.chars

def TopoEntry.text (e : TopoEntry) : List Char := e.lead ++ (e.first.chars ++ e.tail)

inductive TopoLine where
  | blank (lead : List Char) (blanks : lead.all isblank = true)
  | comment (lead text : List Char) (blanks : lead.all isblank = true) (single : '\n' ∉ text)
  | data (front : List TopoEntry) (last : TopoEntry)

def TopoLine.text : TopoLine → List Char
  | blank lead _ => lead
  | comment lead text _ _ => lead ++ '#' :: text
  | data front last => listed ',' (front.map TopoEntry.text) last.text

def TopoLine.spec : TopoLine → Option (List Char)
  | data front last => some (TopoLine.data front last).text
  | _ => none

def lineEnding (crlf : Bool) : List Char := if crlf then ['\r', '\n'] else ['\n']

/-- Lines that end in LF or in CR LF, and perhaps a last line that just ends. -/
structure TopoFile where
  lines : List (TopoLine × Bool)
  last : Option TopoLine
  short : ∀ line ∈ lines.map Prod.fst ++ last.toList, line.text.length < 4095

def TopoFile.text (file : TopoFile) : List Char :=
  file.lines.flatMap (fun line => line.1.text ++ lineEnding line.2) ++ (file.last.map TopoLine.text).getD []

/-- The same entries inline: the lines of data joined with commas. -/
def TopoFile.inline (file : TopoFile) : List Char :=
  [','].intercalate ((file.lines.map Prod.fst ++ file.last.toList).filterMap TopoLine.spec)

theorem entriesOf_append (s rest : List Char) : entriesOf (s ++ ',' :: rest) = entriesOf s ++ entriesOf rest := by
  simp only [entriesOf, tokens_append, List.filterMap_append]

/-- Blanks in front of the first token are skipped with those in front of every other. -/
theorem entriesOf_blank (s : List Char) : entriesOf (s.dropWhile isblank) = entriesOf s := by
  induction s with
  | nil => rfl
  | cons c s ih =>
    simp only [List.dropWhile_cons]
    split
    · rename_i blank
      have other : (c == ',') = false := by
        simp only [beq_eq_false_iff_ne]
        rintro rfl
        exact absurd blank (by decide)
      obtain ⟨tok, rest, pieces⟩ := List.exists_cons_of_ne_nil (List.splitOn_ne_nil ',' s)
      have skipped : numaEntry (c :: tok) = numaEntry tok := by
        simp only [numaEntry, List.dropWhile_cons, blank, if_true]
      have none : numaEntry [] = none := rfl
      rw [ih, entriesOf, entriesOf, tokens, tokens, List.splitOn_cons_eq_if_modifyHead, pieces]
      cases tok with
      | nil => simp [other, skipped, none]
      | cons d tok => simp [other, List.filterMap_cons, skipped]
    · rfl

theorem entriesOf_joined (lines : List (List Char)) :
    entriesOf ([','].intercalate lines) = lines.flatMap entriesOf := by
  induction lines with
  | nil => rfl
  | cons line lines ih =>
    cases lines with
    | nil => simp [List.intercalate]
    | cons next lines =>
      simp only [List.intercalate_cons_cons, List.append_assoc, List.singleton_append, entriesOf_append, ih]
      exact List.flatMap_cons.symm

def soFar (combined : Option (List Char)) : List NumaEntry := entriesOf (combined.getD [])

theorem topoLine_entries (combined : Option (List Char)) (line : List Char) :
    soFar (topoLine combined line) = soFar combined ++ soFar (topoLine none line) := by
  have nothing : entriesOf [] = [] := rfl
  unfold topoLine
  dsimp only
  split
  · simp [soFar, nothing]
  · simp only [soFar, Option.getD_some, Option.getD_none, List.length_nil, gt_iff_lt, lt_irrefl, if_false]
    split
    · exact entriesOf_append _ _
    · rename_i empty
      have empty : combined.getD [] = [] := List.eq_nil_of_length_eq_zero (by omega)
      simp only [empty, nothing, List.nil_append]

theorem topoLines_entries (reads : List (List Char)) (combined : Option (List Char)) :
    soFar (reads.foldl topoLine combined) =
      soFar combined ++ reads.flatMap (fun line => soFar (topoLine none line)) := by
  induction reads generalizing combined with
  | nil => simp
  | cons line reads ih => rw [List.foldl_cons, ih, topoLine_entries, List.flatMap_cons, List.append_assoc]

/- What a line of the file contains. -/

/-- A digit is none of the bytes that the loop over the lines looks for. -/
theorem digit_solid {c : Char} (digit : c.isDigit = true) :
    isblank c = false ∧ c ≠ '#' ∧ c ≠ '\n' ∧ c ≠ '\r' := by
  have other : ∀ x : Char, x.isDigit = false → c ≠ x := by
    rintro x solid rfl
    simp only [digit] at solid
    cases solid
  refine ⟨?_, other '#' (by decide), other '\n' (by decide), other '\r' (by decide)⟩
  simp [isblank, other ' ' (by decide), other '\t' (by decide)]

theorem TopoEntry.chars (e : TopoEntry) : ∀ c ∈ e.text, isblank c = true ∨ c.isDigit = true ∨ c = '-' ∨ c = ':' := by
  have digits : ∀ n : Numeral, ∀ c ∈ n.chars, c.isDigit = true := fun n => List.all_eq_true.mp n.digits
  have blanks : ∀ c ∈ e.lead, isblank c = true := List.all_eq_true.mp e.blanks
  intro c member
  simp only [TopoEntry.text, TopoEntry.tail, List.mem_append, List.mem_cons] at member
  rcases member with lead | first | range | rfl | node
  · exact Or.inl (blanks c lead)
  · exact Or.inr (Or.inl (digits _ c first))
  · cases last : e.last with
    | none => simp [last] at range
    | some n =>
      simp only [last] at range
      rcases List.mem_cons.mp range with rfl | digit
      · exact Or.inr (Or.inr (Or.inl rfl))
      · exact Or.inr (Or.inl (digits n c digit))
  · exact Or.inr (Or.inr (Or.inr rfl))
  · exact Or.inr (Or.inl (digits _ c node))

theorem TopoEntry.head (e : TopoEntry) :
    ∃ digit behind, digit.isDigit = true ∧ e.text.dropWhile isblank = digit :: behind := by
  obtain ⟨digit, chars, some_⟩ := List.exists_cons_of_ne_nil e.first.some_
  have isDigit : digit.isDigit = true := List.all_eq_true.mp e.first.digits digit (by simp [some_])
  refine ⟨digit, chars ++ e.tail, isDigit, ?_⟩
  simp only [TopoEntry.text, List.dropWhile_append_of_pos (List.all_eq_true.mp e.blanks), some_]
  simp only [List.cons_append, List.dropWhile_cons, (digit_solid isDigit).1, Bool.false_eq_true, if_false]

theorem TopoEntry.final (e : TopoEntry) : ∃ front digit, digit.isDigit = true ∧ e.text = front ++ [digit] := by
  have some_ : e.text ≠ [] := by simp [TopoEntry.text, TopoEntry.tail]
  have digit : e.text.getLast some_ ∈ e.node.chars := by
    simp [TopoEntry.text, TopoEntry.tail, List.getLast_append_of_ne_nil, e.node.some_, List.getLast_cons]
  exact ⟨e.text.dropLast, e.text.getLast some_, List.all_eq_true.mp e.node.digits _ digit,
    (List.dropLast_append_getLast some_).symm⟩

section Data
variable (front : List TopoEntry) (last : TopoEntry)

theorem data_chars : ∀ c ∈ (TopoLine.data front last).text,
    isblank c = true ∨ c.isDigit = true ∨ c = '-' ∨ c = ':' ∨ c = ',' := by
  have entry : ∀ e : TopoEntry, ∀ c ∈ e.text, isblank c = true ∨ c.isDigit = true ∨ c = '-' ∨ c = ':' ∨ c = ',' :=
    fun e c member => (e.chars c member).imp_right (fun h => h.imp_right (fun h => h.imp_right Or.inl))
  intro c member
  simp only [TopoLine.text, listed, List.mem_append, List.mem_flatMap, List.mem_map] at member
  rcases member with ⟨_, ⟨e, within, rfl⟩, text | comma⟩ | text
  · exact entry e c text
  · exact Or.inr (Or.inr (Or.inr (Or.inr (List.mem_singleton.mp comma))))
  · exact entry last c text

theorem data_head : ∃ digit behind, digit.isDigit = true ∧
    (TopoLine.data front last).text.dropWhile isblank = digit :: behind := by
  cases front with
  | nil => simpa [TopoLine.text, listed] using last.head
  | cons e front =>
    obtain ⟨digit, behind, isDigit, dropped⟩ := e.head
    refine ⟨digit, behind ++ ',' :: listed ',' (front.map TopoEntry.text) last.text, isDigit, ?_⟩
    simp only [TopoLine.text, List.map_cons, listed_cons, List.dropWhile_append, dropped]
    rfl

theorem data_final : ∃ start digit, digit.isDigit = true ∧ (TopoLine.data front last).text = start ++ [digit] := by
  obtain ⟨start, digit, isDigit, text⟩ := last.final
  refine ⟨(front.map TopoEntry.text).flatMap (fun item => item ++ [',']) ++ start, digit, isDigit, ?_⟩
  simp only [TopoLine.text, listed, text, List.append_assoc]

end Data

theorem TopoLine.single (line : TopoLine) : '\n' ∉ line.text := by
  cases line with
  | blank lead blanks =>
    intro member
    exact absurd (List.all_eq_true.mp blanks _ member) (by decide)
  | comment lead text blanks single =>
    intro member
    rcases List.mem_append.mp member with member | member
    · exact absurd (List.all_eq_true.mp blanks _ member) (by decide)
    · exact single ((List.mem_cons.mp member).resolve_left (by decide))
  | data front last => exact fun member => absurd (data_chars front last _ member) (by decide)

def TopoLine.entries (line : TopoLine) : List NumaEntry := (line.spec.map entriesOf).getD []

/- Whatever part of its ending is read with a line, it adds the entries of its text. -/
section Ending
variable {trail : List Char} (trailing : ∀ c ∈ trail, c = '\n' ∨ c = '\r')
include trailing

theorem trailing_text : ∀ c ∈ trail, c ≠ Char.ofNat 0 := by
  intro c member
  rcases trailing c member with rfl | rfl <;> decide

theorem trailing_stays : trail.dropWhile isblank = trail := by
  cases trail with
  | nil => rfl
  | cons c trail =>
    have solid : isblank c = false := by
      rcases trailing c List.mem_cons_self with rfl | rfl <;> decide
    simp only [List.dropWhile_cons, solid]
    rfl

theorem trailing_goes : trail.rdropWhile (fun c => c == '\n' || c == '\r') = [] :=
  List.rdropWhile_eq_nil_iff.mpr (fun c member => by simpa using trailing c member)

theorem blank_entries {lead : List Char} (blanks : lead.all isblank = true) :
    soFar (topoLine none (lead ++ trail)) = [] := by
  have blank := List.all_eq_true.mp blanks
  have whole : cString (lead ++ trail) = lead ++ trail := by
    refine cString_eq (fun c member => ?_)
    rcases List.mem_append.mp member with member | member
    · rintro rfl
      exact absurd (blank _ member) (by decide)
    · exact trailing_text trailing c member
  rw [topoLine, whole, List.dropWhile_append_of_pos blank, trailing_stays trailing]
  dsimp only
  simp only [trailing_goes trailing]
  split <;> rfl

omit trailing in
theorem comment_entries {lead : List Char} (blanks : lead.all isblank = true) (text : List Char) :
    soFar (topoLine none (lead ++ '#' :: text)) = [] := by
  have blank := List.all_eq_true.mp blanks
  have kept : cString (lead ++ '#' :: text) = lead ++ '#' :: cString text := by
    have solid : ∀ c ∈ lead, c ≠ Char.ofNat 0 := by
      rintro c member rfl
      exact absurd (blank _ member) (by decide)
    rw [cString, List.takeWhile_append_of_pos (by simpa using solid)]
    rfl
  have hash : isblank '#' = false := by decide
  simp only [topoLine, kept, List.dropWhile_append_of_pos blank]
  simp only [List.dropWhile_cons, hash, Bool.false_eq_true, if_false, List.head?_cons, true_or, if_true]
  rfl

/-- Behind the blanks a line of data starts and ends with a digit, so nothing else is cut. -/
theorem data_entries (front : List TopoEntry) (last : TopoEntry) :
    soFar (topoLine none ((TopoLine.data front last).text ++ trail)) = entriesOf (TopoLine.data front last).text := by
  obtain ⟨digit, behind, isDigit, head⟩ := data_head front last
  obtain ⟨start, final, isFinal, ends⟩ := data_final front last
  have whole : cString ((TopoLine.data front last).text ++ trail) = (TopoLine.data front last).text ++ trail := by
    refine cString_eq (fun c member => ?_)
    rcases List.mem_append.mp member with member | member
    · rintro rfl
      exact absurd (data_chars front last _ member) (by decide)
    · exact trailing_text trailing c member
  obtain ⟨solid, _, noLf, noCr⟩ := digit_solid isFinal
  have stop : (final == '\n' || final == '\r') = false := by simp [noLf, noCr]
  have cleaned : ((TopoLine.data front last).text ++ trail).dropWhile isblank = digit :: behind ++ trail ∧
      (digit :: behind ++ trail).rdropWhile (fun c => c == '\n' || c == '\r') = digit :: behind := by
    rw [← head, ends, dropWhile_split solid, List.append_assoc, List.singleton_append, dropWhile_split solid,
      List.append_assoc, List.singleton_append, rdropWhile_split stop, trailing_goes trailing]
    exact ⟨rfl, rfl⟩
  have goes : ¬ ((digit :: behind ++ trail).head? = some '#' ∨ (digit :: behind ++ trail).head? = some '\n' ∨
      digit :: behind ++ trail = []) := by
    simp [(digit_solid isDigit).2.1, (digit_solid isDigit).2.2.1]
  rw [topoLine, whole, cleaned.1]
  dsimp only
  rw [if_neg goes, cleaned.2, ← head]
  exact entriesOf_blank _

end Ending

theorem topo_line_entries (line : TopoLine) (trail : List Char) (trailing : ∀ c ∈ trail, c = '\n' ∨ c = '\r') :
    soFar (topoLine none (line.text ++ trail)) = line.entries := by
  cases line with
  | blank lead blanks => exact blank_entries trailing blanks
  | comment lead text blanks single =>
    simp only [TopoLine.text, List.append_assoc, List.cons_append]
    exact comment_entries blanks (text ++ trail)
  | data front last => exact data_entries trailing front last

theorem line_reads (line : TopoLine) (short : line.text.length < 4095) (crlf : Bool) :
    (fgetsAll topoLineSize (line.text ++ lineEnding crlf)).flatMap (fun read => soFar (topoLine none read)) =
      line.entries := by
  have size : topoLineSize = 4096 := rfl
  have rest : soFar (topoLine none ['\n']) = [] := rfl
  cases crlf with
  | false =>
    rw [lineEnding, if_neg (by decide), fgetsAll_line line.single (by omega), List.flatMap_singleton]
    exact topo_line_entries line _ (by simp)
  | true =>
    have single : '\n' ∉ line.text ++ ['\r'] := by
      simp only [List.mem_append]
      rintro (member | member)
      · exact line.single member
      · exact absurd member (by decide)
    have length : (line.text ++ ['\r']).length = line.text.length + 1 := by simp
    have ending : line.text ++ lineEnding true = line.text ++ ['\r'] ++ ['\n'] := by simp [lineEnding]
    simp only [ending]
    rcases Nat.lt_or_ge (line.text.length + 2) 4096 with fits | full
    · rw [fgetsAll_line single (by omega), List.flatMap_singleton, List.append_assoc]
      exact topo_line_entries line _ (by simp)
    · rw [fgetsAll_full single (by simp) (by omega), List.flatMap_cons, List.flatMap_singleton, rest, List.append_nil]
      exact topo_line_entries line _ (by simp)

theorem last_reads (line : TopoLine) (short : line.text.length < 4095) :
    (fgetsAll topoLineSize line.text).flatMap (fun read => soFar (topoLine none read)) = line.entries := by
  have size : topoLineSize = 4096 := rfl
  have entries := topo_line_entries line [] (by simp)
  simp only [List.append_nil] at entries
  rcases eq_or_ne line.text [] with empty | some_
  · rw [← entries, empty, fgetsAll, if_pos (Or.inl rfl)]
    rfl
  · rw [fgetsAll_last line.single some_ (by omega), List.flatMap_singleton, entries]

theorem file_entriesOf (file : TopoFile) : soFar ((fgetsAll topoLineSize file.text).foldl topoLine none) =
    (file.lines.map Prod.fst ++ file.last.toList).flatMap TopoLine.entries := by
  have start : soFar none = [] := rfl
  obtain ⟨lines, last, short⟩ := file
  simp only [topoLines_entries, start, List.nil_append]
  simp only [TopoFile.text]
  induction lines with
  | nil =>
    cases last with
    | none => simp [fgetsAll]
    | some line => simpa using last_reads line (short line (by simp))
  | cons line lines ih =>
    have closed : Closed (line.1.text ++ lineEnding line.2) := by
      cases line.2
      · exact Or.inr ⟨line.1.text, rfl⟩
      · exact Or.inr ⟨line.1.text ++ ['\r'], by simp [lineEnding]⟩
    have tail := ih (fun other member => short other (List.mem_cons_of_mem _ member))
    rw [List.flatMap_cons, List.append_assoc, fgetsAll_append closed, List.flatMap_append, tail,
      line_reads line.1 (short line.1 (by simp)), List.map_cons, List.cons_append, List.flatMap_cons]

theorem inline_entriesOf (file : TopoFile) :
    entriesOf file.inline = (file.lines.map Prod.fst ++ file.last.toList).flatMap TopoLine.entries := by
  simp only [TopoFile.inline, entriesOf_joined]
  induction file.lines.map Prod.fst ++ file.last.toList with
  | nil => rfl
  | cons line lines ih =>
    simp only [List.flatMap_cons, ← ih, TopoLine.entries]
    cases spec : line.spec <;> simp [spec]

theorem shorthand_colon {spec : List Char} (colon : ':' ∈ spec) : shorthand spec = none := by
  have stays : ':' ∈ strtolEnd spec := mem_strtolEnd (by decide) (by decide) (by decide) (by decide) colon
  rw [shorthand, if_neg (fun short => List.ne_nil_of_mem stays short.1)]

/-- The joined lines are neither a number of nodes nor the name of a file. -/
theorem inline_plain (file : TopoFile) : shorthand file.inline = none ∧ file.inline.head? ≠ some '@' := by
  have data : ∀ text ∈ (file.lines.map Prod.fst ++ file.last.toList).filterMap TopoLine.spec,
      ∃ front last, text = (TopoLine.data front last).text := by
    intro text member
    obtain ⟨line, _, spec⟩ := List.mem_filterMap.mp member
    cases line with
    | blank lead blanks => cases spec
    | comment lead text blanks single => cases spec
    | data front last => exact ⟨front, last, (Option.some.inj spec).symm⟩
  constructor
  · simp only [TopoFile.inline]
    cases lines : (file.lines.map Prod.fst ++ file.last.toList).filterMap TopoLine.spec with
    | nil => rfl
    | cons text rest =>
      obtain ⟨front, last, rfl⟩ := data text (by rw [lines]; exact List.mem_cons_self)
      have colon : ':' ∈ (TopoLine.data front last).text := by
        simp [TopoLine.text, listed, TopoEntry.text, TopoEntry.tail]
      apply shorthand_colon
      cases rest with
      | nil => simpa [List.intercalate] using colon
      | cons next rest =>
        simp only [List.intercalate_cons_cons]
        exact List.mem_append_left _ (List.mem_append_left _ colon)
  · intro at_
    rcases intercalate_mem (List.mem_of_head? at_) with comma | ⟨text, within, member⟩
    · exact absurd comma (by decide)
    · obtain ⟨front, last, rfl⟩ := data text within
      exact absurd (data_chars front last _ member) (by decide)

theorem file_inline_same (host : Host) (path : List Char) (file : TopoFile)
    (opens : host.file (String.ofList path) = some file.text) (maxCpu : Nat) :
    harnessParseNumaBind host ('@' :: path) maxCpu = harnessParseNumaBind host file.inline maxCpu := by
  have named : shorthand ('@' :: path) = none := rfl
  obtain ⟨plain, inline⟩ := inline_plain file
  have combined : numaEntries host ('@' :: path) = entriesOf file.inline := by
    have text : topoText host (String.ofList path) = (fgetsAll topoLineSize file.text).foldl topoLine none := by
      simp only [topoText, opens, Option.bind_some]
    rw [inline_entriesOf, ← file_entriesOf, ← text, numaEntries, named, if_neg (by decide), List.head?_cons, if_pos rfl,
      List.tail_cons]
    cases topoText host (String.ofList path) <;> rfl
  have direct : numaEntries host file.inline = entriesOf file.inline := by
    rw [numaEntries, plain, if_neg (by decide), if_neg inline]
  simp only [bind_entries host named, bind_entries host plain, combined, direct]

/- The file of numaHost: a comment, an entry, a blank line and an entry behind a blank. -/
def socketsFile : TopoFile where
  lines := [(.comment [] " sockets".toList rfl (by decide), false),
    (.data [] ⟨[], rfl, .zero, none, .zero⟩, true), (.blank [] rfl, false),
    (.data [] ⟨[' '], rfl, .one, none, .one⟩, false)]
  last := none
  short := by simp [TopoLine.text, listed, TopoEntry.text, TopoEntry.tail, Numeral.zero, Numeral.one]

theorem sockets_inline_same : harnessParseNumaBind numaHost ('@' :: "topo.cfg".toList) 2 =
    harnessParseNumaBind numaHost socketsFile.inline 2 :=
  file_inline_same numaHost "topo.cfg".toList socketsFile rfl 2

example : socketsFile.inline = "0:0, 1:1".toList ∧
    (harnessParseNumaBind numaHost "0:0, 1:1".toList 2).stores = [(0, 0), (1, 1)] := by decide +kernel

end ServMark
