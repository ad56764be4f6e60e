import ServMark.NumaBind
import ServMark.Library.Loops

/-! What the count returned by harness_parse_numa_bind says of the map it filled: when it is the
number of CPUs that are on a node afterwards. -/
namespace ServMark
open CText

/-- The CPUs of the array that are on a node. -/
def NumaBind.mapped (bind : NumaBind) (maxCpu : Nat) : List Int :=
  (Int.range 0 maxCpu).filter (fun cpu => 0 ≤ bind.node cpu)

/-- No CPU is assigned twice, none below zero, and none to a node below zero. -/
structure Single (host : Host) (spec : List Char) (maxCpu : Nat) : Prop where
  once : ((numaEntries host spec).flatMap (NumaEntry.cells host.ncpu maxCpu)).Nodup
  inside : ∀ e ∈ numaEntries host spec, ∀ cpu ∈ e.cells host.ncpu maxCpu, 0 ≤ cpu ∧ 0 ≤ e.node

section Count
variable {bind : NumaBind} {maxCpu : Nat} (below : ∀ store ∈ bind.stores, store.1 < maxCpu)

theorem mapped_nodup : (bind.mapped maxCpu).Nodup := (Loops.range_nodup _ _).filter _

/-- A CPU on a node has been assigned. -/
theorem mapped_stored : bind.mapped maxCpu ⊆ bind.stores.map Prod.fst := by
  intro cpu member
  have node : 0 ≤ bind.node cpu := by simpa using (List.mem_filter.mp member).2
  rcases Stores.apply_mem bind.stores (fun _ => -1) cpu with unset | ⟨store, within, rfl, -⟩
  · rw [NumaBind.node, unset] at node
    exact absurd node (by decide)
  · exact List.mem_map.mpr ⟨store, within, rfl⟩

include below

/-- As many CPUs are on a node as there were assignments exactly if each of these lasts and counts. -/
theorem mapped_length_iff : (bind.mapped maxCpu).length = bind.stores.length ↔
    (bind.stores.map Prod.fst).Nodup ∧ ∀ store ∈ bind.stores, 0 ≤ store.1 ∧ 0 ≤ store.2 := by
  constructor
  · intro same
    have perm : (bind.mapped maxCpu).Perm (bind.stores.map Prod.fst) :=
      (List.subperm_of_subset mapped_nodup mapped_stored).perm_of_length_le (by rw [List.length_map, same])
    have single := perm.nodup_iff.mp mapped_nodup
    refine ⟨single, fun store within => ?_⟩
    have mapped := perm.mem_iff.mpr (List.mem_map.mpr ⟨store, within, rfl⟩)
    obtain ⟨range, node⟩ := List.mem_filter.mp mapped
    rw [NumaBind.node, Stores.apply_nodup single _ store within, decide_eq_true_eq] at node
    exact ⟨(Int.mem_range_iff.mp range).1, node⟩
  · rintro ⟨single, counts⟩
    have perm : (bind.mapped maxCpu).Perm (bind.stores.map Prod.fst) := by
      refine Loops.kept_perm (Loops.range_nodup _ _) single
        (fun cpu => ⟨fun kept => mapped_stored (List.mem_filter.mpr kept), ?_⟩)
      intro member
      obtain ⟨store, within, rfl⟩ := List.mem_map.mp member
      refine ⟨Int.mem_range_iff.mpr ⟨(counts store within).1, below store within⟩, ?_⟩
      rw [NumaBind.node, Stores.apply_nodup single _ store within]
      simpa using (counts store within).2
    rw [perm.length_eq, List.length_map]

end Count

theorem cells_below {e : NumaEntry} {ncpu maxCpu : Nat} : ∀ cpu ∈ e.cells ncpu maxCpu, cpu < maxCpu := by
  intro cpu member
  unfold NumaEntry.cells at member
  split at member
  · have bounds := Int.mem_range_iff.mp member
    omega
  · split at member
    · rename_i inside
      rw [List.mem_singleton.mp member]
      exact inside.2.2
    · cases member

/-- The shorthand puts every CPU on a node once. -/
theorem shorthand_count (host : Host) {spec : List Char} (maxCpu : Nat) {nodes : Int}
    (list : shorthand spec = some nodes) :
    (harnessParseNumaBind host spec maxCpu).bound = ((harnessParseNumaBind host spec maxCpu).mapped maxCpu).length := by
  have positive : 0 < nodes := by
    unfold shorthand at list
    split at list
    · rename_i short
      cases list
      exact short.2.1
    · cases list
  have bound : (interleave host.ncpu maxCpu nodes).bound = (interleave host.ncpu maxCpu nodes).stores.length := by
    simp [interleave, foldl_store, NumaBind.unbound]
  have inside := interleave_inside host maxCpu nodes
  rw [bind_shorthand host list, bound]
  refine ((mapped_length_iff (fun store within => ?_)).mpr ⟨?_, fun store within => ⟨(inside store within).1, ?_⟩⟩).symm
  · have below := (inside store within).2
    omega
  · rw [interleave_stores, List.map_map]
    simpa [Function.comp_def] using Loops.range_nodup 0 (min host.ncpu maxCpu)
  · rw [interleave_stores] at within
    obtain ⟨cpu, _, rfl⟩ := List.mem_map.mp within
    exact Int.emod_nonneg cpu positive.ne'

theorem entries_count_iff (host : Host) {spec : List Char} (maxCpu : Nat) (list : shorthand spec = none) :
    (harnessParseNumaBind host spec maxCpu).bound = ((harnessParseNumaBind host spec maxCpu).mapped maxCpu).length ↔
      Single host spec maxCpu := by
  rw [bind_entries host list]
  have cells : ((numaEntries host spec).flatMap (NumaEntry.stores host.ncpu maxCpu)).map Prod.fst =
      (numaEntries host spec).flatMap (NumaEntry.cells host.ncpu maxCpu) := by
    simp [List.map_flatMap, NumaEntry.stores, Function.comp_def]
  have below : ∀ store ∈ (bindEntries host.ncpu maxCpu (numaEntries host spec)).stores, store.1 < maxCpu := by
    intro store member
    obtain ⟨e, _, within⟩ := List.mem_flatMap.mp member
    obtain ⟨cpu, inside, rfl⟩ := List.mem_map.mp within
    exact cells_below cpu inside
  rw [eq_comm]
  refine (mapped_length_iff below).trans ?_
  simp only [bindEntries, cells]
  constructor
  · rintro ⟨once, inside⟩
    refine ⟨once, fun e member cpu within => ?_⟩
    exact inside (cpu, e.node) (List.mem_flatMap.mpr ⟨e, member, List.mem_map.mpr ⟨cpu, within, rfl⟩⟩)
  · rintro ⟨once, inside⟩
    refine ⟨once, fun store member => ?_⟩
    obtain ⟨e, among, within⟩ := List.mem_flatMap.mp member
    obtain ⟨cpu, cell, rfl⟩ := List.mem_map.mp within
    exact inside e among cpu cell

/-- The count is the number of CPUs on a node exactly if every assignment lasts and counts. -/
theorem numa_bind_count_iff (host : Host) (spec : List Char) (maxCpu : Nat) :
    (harnessParseNumaBind host spec maxCpu).bound = ((harnessParseNumaBind host spec maxCpu).mapped maxCpu).length ↔
      Single host spec maxCpu := by
  cases list : shorthand spec with
  | some nodes =>
    have none : numaEntries host spec = [] := by simp [numaEntries, list]
    have all : Single host spec maxCpu := ⟨by simp [none], by simp [none]⟩
    exact iff_of_true (shorthand_count host maxCpu list) all
  | none => exact entries_count_iff host maxCpu list

/-- Two entries for one CPU count as two CPUs, and a node below zero counts although nothing is on it. -/
theorem numa_bind_overcounts :
    ¬ (∀ (host : Host) (spec : List Char) (maxCpu : Nat), (harnessParseNumaBind host spec maxCpu).bound =
        ((harnessParseNumaBind host spec maxCpu).mapped maxCpu).length) ∧
      ¬ ∀ (host : Host) (spec : List Char) (maxCpu : Nat), 0 < (harnessParseNumaBind host spec maxCpu).bound →
        (harnessParseNumaBind host spec maxCpu).mapped maxCpu ≠ [] := by
  constructor
  · intro all
    have same := all numaHost "0:0,0:1".toList 2
    have bound : (harnessParseNumaBind numaHost "0:0,0:1".toList 2).bound = 2 := by decide +kernel
    have mapped : (harnessParseNumaBind numaHost "0:0,0:1".toList 2).mapped 2 = [0] := by decide +kernel
    rw [bound, mapped] at same
    cases same
  · intro all
    have bound : (harnessParseNumaBind numaHost "0:-5".toList 2).bound = 1 := by decide +kernel
    have mapped : (harnessParseNumaBind numaHost "0:-5".toList 2).mapped 2 = [] := by decide +kernel
    exact all numaHost "0:-5".toList 2 (by rw [bound]; decide) mapped

end ServMark
