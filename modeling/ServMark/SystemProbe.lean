import ServMark.Cores
import ServMark.Library.Loops

/-! The threads of a core as system_probe counts them, beside the core that
harness_get_physical_cores builds from the same list. -/
namespace ServMark
open CText

/-- A file's first number. -/
def systemReadProcInt (host : Host) (path : String) : Option Int :=
  (host.file path).bind scanLong

/-- A file's first line, as far as it fits. -/
def systemReadProcStr (host : Host) (path : String) (len : Nat) : Option (List Char) :=
  (host.file path).bind (fun text =>
    if text = [] then none
    else
      let buf := cString (fgets (len - 1) text).1
      some (if buf.getLast? = some '\n' then buf.dropLast else buf))

/-- sizeof(siblings). -/
def siblingsSize : Nat := 64

/-- The length of a range at the start of the list, else one more than the commas. -/
def siblingCount (siblings : List Char) : Int :=
  match scanRange siblings with
  | some (a, b) => b - a + 1
  | none => (siblings.countP (· == ',') : Int) + 1

structure SmtInfo where
  smtEnabled : Bool
  smtSiblingsPerCore : Int
  cpuThreadsLogical : Int

/-- The part of system_probe under "Check SMT", with the two values of sysconf. -/
def probeSmt (host : Host) (online conf : Int) : SmtInfo :=
  let info : SmtInfo := ⟨false, 1, online⟩
  match systemReadProcStr host (siblingsPath 0) siblingsSize with
  | none => info
  | some siblings =>
    let count := siblingCount siblings
    if count > 1 then ⟨true, count, if conf > 0 then conf.bmod (2 ^ 32) else intMul online count⟩ else info

/-- The CPUs that harness_get_physical_cores has put on a core after its first turn, which reads
the list of CPU 0. -/
def firstCore (host : Host) : List Int :=
  (Int.range 0 host.ncpu).filter (fun c => (scanCore host ⟨fun _ => 0, fun _ => false, 0⟩ 0).seen c)

def SiblingList.items (list : SiblingList) : List CpuItem := list.front ++ [list.last]

/-- The list of CPU 0: ids and ranges in ascending order, from 0 on, of CPUs that are online. -/
structure FirstList (host : Host) (list : SiblingList) : Prop where
  text : host.file (siblingsPath 0) = some list.text
  ascending : list.items.Pairwise (fun x y => x.top < y.first.value)
  starts : ∀ item ∈ list.items.head?, item.first.value = 0
  below : ∀ item ∈ list.items, item.top < host.ncpu
  short : list.line.length < 63

/-- The two parsers agree on the threads of the core of CPU 0. -/
def SmtAgrees (host : Host) (online conf : Int) : Prop :=
  (probeSmt host online conf).smtSiblingsPerCore = (firstCore host).length ∧
    ((probeSmt host online conf).smtEnabled = true ↔ 1 < (firstCore host).length)

/-- The list is one item, or all its items are single ids and the first is written as one. -/
def Uniform (list : SiblingList) : Prop :=
  list.front = [] ∨ (∀ item ∈ list.items.head?, item.last = none) ∧ ∀ item ∈ list.items, item.size = 1

/- The core of CPU 0. -/

theorem firstCore_eq (host : Host) : firstCore host =
    (Int.range 0 host.ncpu).filter (fun c => c ∈ coreMembers host 0) := by
  have labels := markCore_labels ⟨fun _ => 0, fun _ => false, 0⟩ (coreMembers host 0)
  simp only [CoreScan.labels, Labelling.Labels.mk.injEq] at labels
  simp only [firstCore, scanCore_eq, Bool.false_eq_true, if_false, labels.2.1, Bool.or_false]

/-- Ascending items name every CPU once. -/
theorem members_nodup {items : List CpuItem} (ascending : items.Pairwise (fun x y => x.top < y.first.value)) :
    (items.flatMap CpuItem.members).Nodup := by
  refine List.nodup_flatMap.mpr ⟨fun item _ => Loops.range_nodup _ _, ascending.imp (fun {x y} before => ?_)⟩
  intro c inX inY
  have upper := (mem_members.mp inX).2
  have lower := (mem_members.mp inY).1
  omega

section Lists
variable {host : Host} {list : SiblingList} (first : FirstList host list)
include first

theorem items_fit : ∀ item ∈ list.items, item.top < 2 ^ 31 :=
  fun item within => (first.below item within).trans host.fits

theorem firstCore_perm : (firstCore host).Perm (list.items.flatMap CpuItem.members) := by
  rw [firstCore_eq]
  refine Loops.kept_perm (Loops.range_nodup _ _) (members_nodup first.ascending) (fun c => ?_)
  have member := mem_coreMembers first.text (first.short.trans (by decide)) (items_fit first) c
  rw [Int.mem_range_iff, decide_eq_true_eq, member, List.mem_flatMap]
  constructor
  · rintro ⟨online, rfl | ⟨_, item, within, names⟩⟩
    · obtain ⟨item, items, eq⟩ := List.exists_cons_of_ne_nil
        (show list.items ≠ [] by simp [SiblingList.items])
      have zero := first.starts item (by simp [eq])
      exact ⟨item, by simp [eq], mem_members.mpr ⟨by omega, by omega⟩⟩
    · exact ⟨item, within, mem_members.mpr names⟩
  · rintro ⟨item, within, inside⟩
    have below := first.below item within
    have names := mem_members.mp inside
    have upper := names.2
    have lower := names.1
    exact ⟨by omega, Or.inr ⟨by omega, item, within, names⟩⟩

theorem firstCore_length : (firstCore host).length = (list.items.map CpuItem.size).sum := by
  rw [(firstCore_perm first).length_eq, List.length_flatMap]
  simp only [members_length]

end Lists

/- The count of system_probe. -/

theorem item_commas (item : CpuItem) : item.text.countP (· == ',') = 0 := by
  refine List.countP_eq_zero.mpr (fun c member => ?_)
  rcases item.chars c member with digit | rfl
  · simp only [beq_iff_eq]
    rintro rfl
    cases digit
  · decide

theorem line_commas (front : List CpuItem) (last : CpuItem) :
    (listed ',' (front.map CpuItem.text) last.text).countP (· == ',') = front.length := by
  induction front with
  | nil => exact item_commas last
  | cons item front ih =>
    rw [List.map_cons, listed_cons, List.countP_append, item_commas, List.countP_cons_of_pos (by decide), ih]
    simp

section Count
variable {list : SiblingList} (fits : ∀ item ∈ list.items, item.top < 2 ^ 31)
include fits

theorem siblingCount_eq {item : CpuItem} (head : list.items.head? = some item) : siblingCount list.line =
    if item.last = none then (list.items.length : Int) else item.size := by
  have line : ∃ behind, list.line = item.text ++ behind ∧ ∀ c ∈ behind.head?, c.isDigit = false ∧ c ≠ '-' := by
    obtain ⟨front, last, newline⟩ := list
    cases front with
    | nil =>
      cases head
      exact ⟨[], by simp [SiblingList.line, listed], by simp⟩
    | cons own front =>
      cases head
      refine ⟨',' :: listed ',' (front.map CpuItem.text) last.text, ?_, ?_⟩
      · rw [SiblingList.line, List.map_cons, listed_cons]
      · simp [Char.isDigit]
  obtain ⟨behind, eq, stops⟩ := line
  have scan := (item.scan stops (fits item (List.mem_of_head? head))).1
  rw [← eq] at scan
  have commas : list.line.countP (· == ',') = list.front.length := line_commas list.front list.last
  cases last : item.last with
  | none => simp [siblingCount, scan, last, commas, SiblingList.items]
  | some n =>
    have ordered := item_ordered item
    have top : item.top = n.value := by simp [CpuItem.top, last]
    simp only [siblingCount, scan, last, Option.map_some, reduceCtorEq, if_false, CpuItem.size]
    omega

end Count

theorem size_positive (item : CpuItem) : 1 ≤ item.size := Nat.le_add_left 1 _

theorem sizes_le (items : List CpuItem) : items.length ≤ (items.map CpuItem.size).sum := by
  simpa using List.card_nsmul_le_sum (items.map CpuItem.size) 1 (by simp [size_positive])

theorem sizes_eq_iff (items : List CpuItem) :
    (items.map CpuItem.size).sum = items.length ↔ ∀ item ∈ items, item.size = 1 := by
  induction items with
  | nil => simp
  | cons item items ih =>
    have own := size_positive item
    have rest := sizes_le items
    rw [List.map_cons, List.sum_cons, List.length_cons, List.forall_mem_cons, ← ih]
    omega

/-- The count is right on one item and on single ids, and on no other list. -/
theorem siblingCount_iff {list : SiblingList} (fits : ∀ item ∈ list.items, item.top < 2 ^ 31) :
    siblingCount list.line = (list.items.map CpuItem.size).sum ↔ Uniform list := by
  obtain ⟨item, rest, eq⟩ := List.exists_cons_of_ne_nil (show list.items ≠ [] by simp [SiblingList.items])
  have head : list.items.head? = some item := by simp [eq]
  have single : list.front = [] ↔ rest = [] := by
    have length := congrArg List.length eq
    simp only [SiblingList.items, List.length_append, List.length_cons, List.length_nil] at length
    rw [← List.length_eq_zero_iff, ← List.length_eq_zero_iff]
    omega
  have own := size_positive item
  have others := sizes_le rest
  rw [siblingCount_eq fits head, Uniform, head, single, eq]
  simp only [List.map_cons, List.sum_cons, Option.mem_def, Option.some.injEq, forall_eq']
  cases last : item.last with
  | none =>
    have one : item.size = 1 := by simp [CpuItem.size, CpuItem.top, last]
    have all := sizes_eq_iff rest
    have empty : rest = [] → ∀ other ∈ rest, other.size = 1 := by rintro rfl; simp
    rw [← all] at empty
    simp only [if_true, List.length_cons, List.forall_mem_cons, one, true_and, ← all]
    constructor
    · intro same
      right
      omega
    · intro either
      have same := either.elim empty id
      omega
  | some n =>
    simp only [reduceCtorEq, if_false, false_and, or_false]
    rw [← List.length_eq_zero_iff]
    constructor
    · intro same
      omega
    · intro none
      rw [List.eq_nil_of_length_eq_zero none]
      simp

theorem SiblingList.probed {host : Host} {list : SiblingList} (first : FirstList host list) :
    systemReadProcStr host (siblingsPath 0) siblingsSize = some list.line := by
  have newline : '\n' ∉ list.line := fun member => absurd (list.chars _ member) (by decide)
  have text : ∀ c ∈ list.line, c ≠ Char.ofNat 0 := by
    rintro c member rfl
    exact absurd (list.chars _ member) (by decide)
  have some_ : list.text ≠ [] := by
    simp [SiblingList.text, SiblingList.line, listed, list.last.text_some]
  have last : list.line.getLast? ≠ some '\n' := fun eq => newline (List.mem_of_getLast? eq)
  have size : siblingsSize - 1 = 63 := rfl
  rw [systemReadProcStr, first.text, Option.bind_some, if_neg some_, size]
  have short := first.short
  unfold SiblingList.text
  cases list.newline with
  | true =>
    have whole : cString (list.line ++ ['\n']) = list.line ++ ['\n'] := by
      refine cString_eq (fun c member => ?_)
      rcases List.mem_append.mp member with line | ending
      · exact text c line
      · rw [List.mem_singleton.mp ending]
        decide
    simp [fgets_line newline short [], whole]
  | false => simp [fgets_last newline short.le, cString_eq text, last]

/-- The two parsers agree exactly on the uniform lists. -/
theorem smt_siblings_iff (host : Host) (list : SiblingList) (first : FirstList host list) (online conf : Int) :
    SmtAgrees host online conf ↔ Uniform list := by
  have fits := items_fit first
  have positive : 1 ≤ siblingCount list.line := by
    obtain ⟨item, rest, eq⟩ := List.exists_cons_of_ne_nil (show list.items ≠ [] by simp [SiblingList.items])
    have own := size_positive item
    have head : list.items.head? = some item := by simp [eq]
    rw [siblingCount_eq fits head, eq, List.length_cons]
    split <;> omega
  rw [← siblingCount_iff fits, ← firstCore_length first, SmtAgrees]
  simp only [probeSmt, SiblingList.probed first]
  split
  · rename_i more
    simp only [true_iff, and_iff_left_iff_imp]
    omega
  · rename_i one
    have single : siblingCount list.line = 1 := by omega
    simp only [Bool.false_eq_true, false_iff, single, not_lt, and_iff_left_iff_imp]
    omega

/-- A machine of eight CPUs whose only file is the list of CPU 0. -/
def listHost (list : SiblingList) : Host :=
  ⟨8, by decide, by decide, fun path => if path = siblingsPath 0 then some list.text else none⟩

def idFour : Numeral := ⟨['4'], by decide, by decide⟩
def idFive : Numeral := ⟨['5'], by decide, by decide⟩

/-- The list "0,4". -/
def twoThreads : SiblingList := ⟨[⟨.zero, none, by simp⟩], ⟨idFour, none, by simp⟩, true⟩

theorem smt_siblings_iff_two : SmtAgrees (listHost twoThreads) 8 8 :=
  (smt_siblings_iff (listHost twoThreads) twoThreads ⟨by simp [listHost], by decide, by decide, by decide, by decide⟩
    8 8).mpr (Or.inr (by decide))

/-- The list "0-1,4-5". -/
def fourThreads : SiblingList :=
  ⟨[⟨.zero, some .one, fun _ _ => Nat.zero_le _⟩], ⟨idFour, some idFive, fun | _, rfl => Nat.le_succ 4⟩, true⟩

/-- Four threads share the core of CPU 0, and system_probe counts two. -/
theorem smt_siblings_mixed : ¬ ∀ (host : Host) (list : SiblingList) (online conf : Int),
    FirstList host list → SmtAgrees host online conf := by
  intro all
  have same := (all (listHost fourThreads) fourThreads 8 8
    ⟨by simp [listHost], by decide, by decide, by decide, by decide⟩).1
  have probed : (probeSmt (listHost fourThreads) 8 8).smtSiblingsPerCore = 2 := by decide +kernel
  have core : (firstCore (listHost fourThreads)).length = 4 := by decide +kernel
  rw [probed, core] at same
  exact absurd same (by decide)

end ServMark
