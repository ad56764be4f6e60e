import ServMark.SystemNodes
import ServMark.NumaTopology
import ServMark.Library.Related

/-! The rows of distances that system_probe reads, and what an override of the topology makes of them.
Allocations succeed. -/
namespace ServMark
open CText Printf

def distancePath (node : Nat) : String := s!"/sys/devices/system/node/node{node}/distance"

/-- sizeof(dline). -/
def dlineSize : Nat := 256

/-- The tokens of strtok for the separators " \t\n". -/
def distanceTokens (dline : List Char) : List (List Char) :=
  (dline.splitOnP (fun c => c == ' ' || c == '\t' || c == '\n')).filter (fun tok => !tok.isEmpty)

abbrev DistanceRow := Vector Int distanceCells

/-- The loop over the tokens from cell di on. -/
def distanceLoop : List (List Char) → Nat → DistanceRow → DistanceRow
  | [], _, row => row
  | tok :: rest, di, row =>
    if inside : di < distanceCells then distanceLoop rest (di + 1) (row.set di (atoi tok)) else row

/-- The row of a node among so many: without its file, 10 for itself and 20 for each other one. -/
def nodeDistance (host : Host) (maxNodes node : Nat) : Except Fault DistanceRow :=
  match host.file (distancePath node) with
  | none =>
    if maxNodes ≤ distanceCells then
      .ok (Vector.ofFn (fun dj => if dj.val < maxNodes then if dj.val = node then 10 else 20 else 0))
    else .error .overflow
  | some text =>
    let zeros := Vector.replicate distanceCells 0
    if text = [] then .ok zeros
    else .ok (distanceLoop (distanceTokens (cString (fgets (dlineSize - 1) text).1)) 0 zeros)

def probeNode (host : Host) (maxNodes node : Nat) : Except Fault NumaNode :=
  match nodeDistance host maxNodes node with
  | .error fault => .error fault
  | .ok row => .ok ⟨node, nodeCpuCount host node, [], (nodeMemoryKb host node % 2 ^ 64).toNat, row⟩

/-- The number of nodes up to the first of 64 whose directory is not there. -/
def maxNodes (access : Nat → Bool) : Nat := ((List.range 64).takeWhile access).length

/-- The row of the fallback, in which one cell is set. -/
def soleRow : DistanceRow := Vector.ofFn (fun d => if d.val = 0 then 10 else 0)

/-- The array numa_nodes of a machine with so many threads and so much memory: without a directory it has one node. -/
def probeNuma (host : Host) (access : Nat → Bool) (threads ramKb : Nat) : Except Fault (List NumaNode) :=
  if maxNodes access = 0 then
    .ok [⟨0, threads, [], ramKb, soleRow⟩]
  else Related.collects (probeNode host (maxNodes access)) (List.range (maxNodes access)) []

/- The tokens of a row. -/

/-- A row as the kernel prints it, in front of its newline. -/
def rowText (row : List Nat) : List Char := [' '].intercalate (row.map printNat)

theorem digits_solid {item : List Char} (digits : ∀ c ∈ item, c.isDigit = true) :
    ∀ c ∈ item, (c == ' ' || c == '\t' || c == '\n') = false := by
  intro c member
  have digit := digits c member
  rw [Bool.or_eq_false_iff, Bool.or_eq_false_iff, beq_eq_false_iff_ne, beq_eq_false_iff_ne, beq_eq_false_iff_ne]
  refine ⟨⟨?_, ?_⟩, ?_⟩ <;> rintro rfl <;> exact absurd digit (by decide)

theorem distanceTokens_append {item : List Char} (some_ : item ≠ []) (digits : ∀ c ∈ item, c.isDigit = true)
    {sep : Char} (separates : (sep == ' ' || sep == '\t' || sep == '\n') = true) (rest : List Char) :
    distanceTokens (item ++ sep :: rest) = item :: distanceTokens rest := by
  rw [distanceTokens, List.splitOnP_append_cons_of_forall_mem (digits_solid digits) sep separates,
    List.filter_cons_of_pos (by simpa using some_), distanceTokens]

theorem distanceTokens_single {item : List Char} (some_ : item ≠ []) (digits : ∀ c ∈ item, c.isDigit = true) :
    distanceTokens item = [item] := by
  rw [distanceTokens, List.splitOnP_eq_singleton (digits_solid digits), List.filter_cons_of_pos (by simpa using some_),
    List.filter_nil]

theorem rowText_cons (n : Nat) {row : List Nat} (more : row ≠ []) :
    rowText (n :: row) = printNat n ++ ' ' :: rowText row := by
  rw [rowText, List.map_cons, List.intercalate_cons_of_ne_nil (by simpa using more), List.append_assoc]
  rfl

theorem rowText_single (n : Nat) : rowText [n] = printNat n := List.intercalate_singleton

/-- The newline of a row may be cut off. -/
theorem distanceTokens_row {row : List Nat} (some_ : row ≠ []) :
    distanceTokens (rowText row ++ ['\n']) = row.map printNat ∧ distanceTokens (rowText row) = row.map printNat := by
  induction row with
  | nil => exact absurd rfl some_
  | cons n row ih =>
    have digits : ∀ c ∈ printNat n, c.isDigit = true := fun c => printNat_digits c
    rcases eq_or_ne row [] with rfl | more
    · rw [rowText_single, distanceTokens_append (printNat_some n) digits (by decide),
        distanceTokens_single (printNat_some n) digits]
      exact ⟨rfl, rfl⟩
    · have blank : (' ' == ' ' || ' ' == '\t' || ' ' == '\n') = true := by decide
      have split := distanceTokens_append (printNat_some n) digits blank
      rw [rowText_cons n more, List.append_assoc, List.cons_append, split, split, (ih more).1, (ih more).2]
      exact ⟨rfl, rfl⟩

/-- A row of bytes has at most four characters for each. -/
theorem rowText_length {row : List Nat} (bytes : ∀ n ∈ row, n < 256) : (rowText row).length ≤ 4 * row.length - 1 := by
  induction row with
  | nil => exact Nat.zero_le _
  | cons n row ih =>
    obtain ⟨byte, bytes⟩ := List.forall_mem_cons.mp bytes
    have own : (printNat n).length ≤ 3 := (Nat.length_toDigits_le_iff (by decide) (by decide)).mpr (by omega)
    rcases eq_or_ne row [] with rfl | more
    · rw [rowText_single]
      exact own
    · have tail := ih bytes
      have positive := List.length_pos_of_ne_nil more
      rw [rowText_cons n more, List.length_append, List.length_cons, List.length_cons]
      omega

theorem rowText_bytes (row : List Nat) : ∀ c ∈ rowText row, c ≠ '\n' ∧ c ≠ Char.ofNat 0 := by
  intro c member
  obtain rfl | ⟨item, within, inside⟩ := intercalate_mem member
  · decide
  · obtain ⟨n, _, rfl⟩ := List.mem_map.mp within
    have digit := printNat_digits c inside
    constructor <;> rintro rfl <;> exact absurd digit (by decide)

theorem row_read {row : List Nat} (some_ : row ≠ []) (bytes : ∀ n ∈ row, n < 256) (few : row.length ≤ 64) :
    distanceTokens (cString (fgets (dlineSize - 1) (rowText row ++ ['\n'])).1) = row.map printNat := by
  have plain := rowText_bytes row
  have single : '\n' ∉ rowText row := fun member => (plain _ member).1 rfl
  have room : (rowText row).length ≤ dlineSize - 1 := by
    have length := rowText_length bytes
    have size : dlineSize - 1 = 255 := rfl
    omega
  obtain ⟨whole, cut⟩ := distanceTokens_row some_
  rw [fgets_take single]
  rcases Nat.lt_or_ge (rowText row).length (dlineSize - 1) with fits | full
  · rw [List.take_of_length_le (by rw [List.length_append]; exact fits), cString_eq, whole]
    intro c member
    obtain inside | ending := List.mem_append.mp member
    · exact (plain c inside).2
    · rw [List.mem_singleton.mp ending]
      decide
  · rw [← Nat.le_antisymm room full, List.take_left, cString_eq (fun c member => (plain c member).2), cut]

theorem atoi_printNat {n : Nat} (small : n < 2 ^ 31) : atoi (printNat n) = n := by
  let numeral : Numeral := ⟨printNat n, printNat_some n, List.all_eq_true.mpr printNat_digits⟩
  have value : decimal numeral.chars = n := decimal_printNat n
  have none (c : Char) : c ∈ ([] : List Char).head? → c.isDigit = false := nofun
  have taken := numeral.taken none
  have behind := numeral.behind []
  rw [List.append_nil] at taken behind
  have number : strtol (printNat n) = n := by
    rw [show printNat n = numeral.chars from rfl]
    simp only [strtol, behind, taken.1, value, one_mul]
    omega
  rw [atoi, number, Int.bmod_eq_of_le] <;> omega

/-- The loop fills the cells from di on, as far as there are tokens and cells. -/
theorem distanceLoop_cell (toks : List (List Char)) (di : Nat) (row : DistanceRow) {j : Nat}
    (cell : j < distanceCells) : (distanceLoop toks di row)[j]?.getD 0 =
      if di ≤ j then ((toks.map atoi)[j - di]?).getD (row[j]?.getD 0) else row[j]?.getD 0 := by
  induction toks generalizing di row with
  | nil => simp [distanceLoop]
  | cons tok toks ih =>
    unfold distanceLoop
    split
    · rename_i inside
      rw [ih, Vector.getElem?_set]
      rcases Nat.lt_trichotomy di j with less | same | more
      · have next : j - di = j - (di + 1) + 1 := by omega
        rw [if_pos (Nat.succ_le_of_lt less), if_pos less.le, if_neg less.ne, next, List.map_cons,
          List.getElem?_cons_succ]
      · rw [if_neg (by omega), if_pos same, if_pos same.le, same, Nat.sub_self, List.map_cons, List.getElem?_cons_zero]
        rfl
      · rw [if_neg (by omega), if_neg more.ne', if_neg (by omega)]
    · rw [if_neg (by omega)]

/- The rows of a machine. -/

/-- The files of the distances of so many nodes, none missing but some that cannot be opened. -/
structure DistanceFiles (host : Host) (nodes : Nat) (far : Nat → Nat → Nat) : Prop where
  file : ∀ node < nodes, host.file (distancePath node) = none ∨
    host.file (distancePath node) = some (rowText ((List.range nodes).map (far node)) ++ ['\n'])
  bytes : ∀ a b, far a b < 256

/-- The distance that system_probe stores in a cell. -/
def probedDistance (host : Host) (nodes : Nat) (far : Nat → Nat → Nat) (node j : Nat) : Nat :=
  if nodes ≤ j then 0
  else if (host.file (distancePath node)).isSome then far node j
  else if j = node then 10 else 20

section Rows
variable {host : Host} {nodes node : Nat} {far : Nat → Nat → Nat}

theorem nodeDistance_read (files : DistanceFiles host nodes far) (few : nodes ≤ 64) (among : node < nodes)
    (safe : nodes ≤ distanceCells ∨ (host.file (distancePath node)).isSome = true) :
    ∃ row, nodeDistance host nodes node = .ok row ∧
      ∀ j < distanceCells, row[j]?.getD 0 = probedDistance host nodes far node j := by
  obtain missing | there := files.file node among
  · have fits : nodes ≤ distanceCells := safe.resolve_right (by simp [missing])
    refine ⟨_, by rw [nodeDistance, missing]; exact if_pos fits, fun j cell => ?_⟩
    rw [Vector.getElem?_ofFn, dif_pos cell, Option.getD_some, probedDistance, missing]
    rcases Nat.lt_or_ge j nodes with inside | outside
    · rw [if_pos inside, if_neg (Nat.not_le.mpr inside), Option.isSome_none, if_neg Bool.false_ne_true]
      dsimp only
      split_ifs <;> rfl
    · rw [if_neg (Nat.not_lt.mpr outside), if_pos outside]
      rfl
  · have some_ : (List.range nodes).map (far node) ≠ [] := by simp; omega
    have bytes : ∀ n ∈ (List.range nodes).map (far node), n < 256 := by
      intro n member
      obtain ⟨b, _, rfl⟩ := List.mem_map.mp member
      exact files.bytes node b
    have read := row_read some_ bytes (by simpa using few)
    refine ⟨_, by rw [nodeDistance, there]; exact if_neg (by simp), fun j cell => ?_⟩
    have numbers : (((List.range nodes).map (far node)).map printNat).map atoi =
        (List.range nodes).map (fun b => (far node b : Int)) := by
      rw [List.map_map, List.map_map]
      exact List.map_congr_left (fun b _ => atoi_printNat ((files.bytes node b).trans (by decide)))
    rw [read, distanceLoop_cell _ _ _ cell, if_pos (Nat.zero_le j), Nat.sub_zero, numbers, probedDistance, there,
      List.getElem?_map, Vector.getElem?_replicate, if_pos cell]
    rcases Nat.lt_or_ge j nodes with inside | outside
    · rw [List.getElem?_range inside, if_neg (Nat.not_le.mpr inside), Option.isSome_some, if_pos rfl]
      rfl
    · rw [List.getElem?_eq_none (by simpa using outside), if_pos outside]
      rfl

theorem probeNode_iff {probed : NumaNode} : probeNode host nodes node = .ok probed ↔
    ∃ row, nodeDistance host nodes node = .ok row ∧
      probed = ⟨node, nodeCpuCount host node, [], (nodeMemoryKb host node % 2 ^ 64).toNat, row⟩ := by
  unfold probeNode
  cases nodeDistance host nodes node with
  | error fault => simp
  | ok row => simp [eq_comm]

/-- A node is stored inside its cells exactly if its row has a cell for each node or can be read. -/
theorem probeNode_ok_iff (files : DistanceFiles host nodes far) (few : nodes ≤ 64) (among : node < nodes) :
    (∃ probed, probeNode host nodes node = .ok probed) ↔
      nodes ≤ distanceCells ∨ (host.file (distancePath node)).isSome = true := by
  simp only [probeNode_iff]
  constructor
  · rintro ⟨_, row, read, rfl⟩
    by_contra unsafe_
    rw [not_or, Bool.not_eq_true, Option.isSome_eq_false_iff, Option.isNone_iff_eq_none] at unsafe_
    rw [nodeDistance, unsafe_.2] at read
    dsimp only at read
    rw [if_neg unsafe_.1] at read
    cases read
  · intro safe
    obtain ⟨row, read, _⟩ := nodeDistance_read files few among safe
    exact ⟨_, row, read, rfl⟩

theorem probeNode_distance (files : DistanceFiles host nodes far) (few : nodes ≤ 64) (among : node < nodes)
    {probed : NumaNode} (ok : probeNode host nodes node = .ok probed) :
    probed.id = node ∧ ∀ j < distanceCells, probed.distanceTo j = probedDistance host nodes far node j := by
  obtain ⟨row, read, same⟩ := nodeDistance_read files few among ((probeNode_ok_iff files few among).mp ⟨probed, ok⟩)
  obtain ⟨row', read', rfl⟩ := probeNode_iff.mp ok
  obtain rfl := Except.ok.inj (read.symm.trans read')
  exact ⟨rfl, same⟩

end Rows

theorem maxNodes_few (access : Nat → Bool) : maxNodes access ≤ 64 :=
  ((List.takeWhile_prefix access).length_le).trans_eq List.length_range

section Probe
variable {host : Host} {access : Nat → Bool} {threads ramKb : Nat} {far : Nat → Nat → Nat} {detected : List NumaNode}

theorem probeNuma_nodes (some_ : 0 < maxNodes access) : probeNuma host access threads ramKb = .ok detected ↔
    List.Forall₂ (fun node probed => probeNode host (maxNodes access) node = .ok probed)
      (List.range (maxNodes access)) detected := by
  rw [probeNuma, if_neg some_.ne', Related.collects_iff]
  simp only [List.nil_append, exists_eq_left']

theorem probed_rows (files : DistanceFiles host (maxNodes access) far) (some_ : 0 < maxNodes access)
    (ok : probeNuma host access threads ramKb = .ok detected) :
    List.Forall₂ (fun (node : Nat) probed => probed.id = (node : Int) ∧ ∀ j < distanceCells,
      probed.distanceTo j = (probedDistance host (maxNodes access) far node j : Int))
      (List.range (maxNodes access)) detected := by
  have related := (probeNuma_nodes some_).mp ok
  rw [List.forall₂_iff_get] at related ⊢
  refine ⟨related.1, fun i left right => ?_⟩
  have own := related.2 i left right
  have among : (List.range (maxNodes access)).get ⟨i, left⟩ < maxNodes access := List.mem_range.mp (List.get_mem _ _)
  exact probeNode_distance files (maxNodes_few access) among own

/-- What system_probe stores of the distances: nothing outside the rows exactly if each row that cannot be read has
a cell for every node, and else each distance the kernel gives, or those of the fallback. -/
theorem probed_distances (files : DistanceFiles host (maxNodes access) far) :
    ((∃ detected, probeNuma host access threads ramKb = .ok detected) ↔ maxNodes access ≤ distanceCells ∨
      ∀ node < maxNodes access, (host.file (distancePath node)).isSome = true) ∧
    ∀ detected, probeNuma host access threads ramKb = .ok detected → 0 < maxNodes access →
      List.Forall₂ (fun (node : Nat) probed => probed.id = (node : Int) ∧ ∀ j < distanceCells,
        probed.distanceTo j = (probedDistance host (maxNodes access) far node j : Int))
        (List.range (maxNodes access)) detected := by
  refine ⟨?_, fun detected ok some_ => probed_rows files some_ ok⟩
  rcases Nat.eq_zero_or_pos (maxNodes access) with none | some_
  · rw [probeNuma, if_pos none, none]
    exact iff_of_true ⟨_, rfl⟩ (Or.inl (Nat.zero_le _))
  · have each (node : Nat) (among : node < maxNodes access) := probeNode_ok_iff files (maxNodes_few access) among
    rw [probeNuma, if_neg some_.ne', Related.collects_ok_iff]
    simp only [List.mem_range]
    constructor
    · exact fun stored => or_iff_not_imp_left.mpr
        (fun many node among => ((each node among).mp (stored node among)).resolve_left many)
    · rintro (few | there) node among
      · exact (each node among).mpr (Or.inl few)
      · exact (each node among).mpr (Or.inr (there node among))

def twoHost : Host :=
  .quad (fun path => if path = distancePath 0 then some (rowText [10, 21] ++ ['\n']) else none)

def twoFar (a b : Nat) : Nat := if a = b then 10 else 21

def twoAccess (node : Nat) : Bool := decide (node < 2)

theorem twoHost_files : DistanceFiles twoHost (maxNodes twoAccess) twoFar := by
  have count : maxNodes twoAccess = 2 := by decide
  rw [count]
  refine ⟨fun node among => ?_, fun a b => ?_⟩
  · rcases Nat.eq_zero_or_pos node with rfl | positive
    · refine Or.inr ?_
      dsimp only [twoHost, Host.quad]
      rw [if_pos rfl]
      rfl
    · obtain rfl : node = 1 := by omega
      have other : distancePath 1 ≠ distancePath 0 := by decide +kernel
      refine Or.inl ?_
      dsimp only [twoHost, Host.quad]
      rw [if_neg other]
  · unfold twoFar
    split_ifs <;> decide

theorem two_probed_distances : ∃ detected, probeNuma twoHost twoAccess 4 8192 = .ok detected ∧
    List.Forall₂ (fun (node : Nat) probed => probed.id = (node : Int) ∧ ∀ j < distanceCells,
      probed.distanceTo j = (probedDistance twoHost (maxNodes twoAccess) twoFar node j : Int))
      (List.range (maxNodes twoAccess)) detected := by
  obtain ⟨stored, rows⟩ := @probed_distances twoHost twoAccess 4 8192 twoFar twoHost_files
  obtain ⟨detected, ok⟩ := stored.mpr (Or.inl (by decide))
  exact ⟨detected, ok, rows detected ok (by decide)⟩

end Probe

end ServMark
