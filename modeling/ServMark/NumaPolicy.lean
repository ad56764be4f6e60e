import ServMark.NumaTopology

/-! The memory policy a child of harness_run_parallel sets, and what the node numbers of a
specification must be for it and for the rebuilt topology. -/
namespace ServMark
open CText

inductive MemMode where
  | default | bind | interleave
  deriving DecidableEq, Repr

/-- The arguments of set_mempolicy. -/
structure MemPolicy where
  mode : MemMode
  nodemask : Nat
  maxnode : Int

structure Membind where
  node : Int
  interleave : Bool

def membind (config : RunConfig) : Membind :=
  match config.membindSpec with
  | none => ⟨-1, false⟩
  | some spec =>
    if spec = "" ∨ spec = "local" then ⟨-1, false⟩
    else if spec = "interleave" then ⟨-1, true⟩
    else ⟨atoi spec.toList, false⟩

/-- The nodes of the CPUs as the children inherit them. -/
def cpuToNuma (host : Host) (config : RunConfig) : Int → Int :=
  match config.numaTopoSpec with
  | none => fun _ => -1
  | some spec => (harnessParseNumaBind host spec.toList host.ncpu).node

/- 1UL << nid. A shift by a negative number or by more than 63, for which C defines nothing,
takes the lowest six bits as the machine does. -/
def nodeBit (nid : Int) : Nat := 2 ^ (nid % 64).toNat

/-- The loop over the CPUs of the interleaving policy, with nodemask and maxnode. -/
def interleaveMask (ncpu : Nat) (nodes : Int → Int) : Nat × Int :=
  (Int.range 0 ncpu).foldl (fun mask cpu =>
    if nodes cpu ≥ 0 then
      (mask.1 ||| nodeBit (nodes cpu), if nodes cpu + 1 > mask.2 then nodes cpu + 1 else mask.2)
    else mask) (0, 0)

/-- The policy of a child pinned to this CPU. -/
def memPolicy (host : Host) (config : RunConfig) (pin : Int) : MemPolicy :=
  let nodes := cpuToNuma host config
  if (membind config).interleave then
    let mask := interleaveMask host.ncpu nodes
    if mask.1 = 0 then ⟨.interleave, 2 ^ 64 - 1, 64⟩ else ⟨.interleave, mask.1, mask.2⟩
  else if (membind config).node ≥ 0 then ⟨.bind, nodeBit (membind config).node, (membind config).node + 1⟩
  else if nodes pin ≥ 0 then ⟨.bind, nodeBit (nodes pin), nodes pin + 1⟩
  else ⟨.default, 0, 0⟩

theorem nodeBit_testBit {nid : Int} (lower : 0 ≤ nid) (upper : nid < 64) (k : Nat) :
    (nodeBit nid).testBit k = true ↔ nid = k := by
  simp only [nodeBit, Nat.testBit_two_pow, decide_eq_true_eq]
  omega

theorem interleaveMask_testBit {ncpu : Nat} {nodes : Int → Int}
    (within : ∀ c : Int, 0 ≤ c → c < ncpu → 0 ≤ nodes c → nodes c < 64) (k : Nat) :
    (interleaveMask ncpu nodes).1.testBit k = true ↔ ∃ c : Int, (0 ≤ c ∧ c < ncpu) ∧ nodes c = k := by
  have loop : ∀ cpus : List Int, (∀ c ∈ cpus, 0 ≤ nodes c → nodes c < 64) → ∀ start : Nat × Int,
      ((cpus.foldl (fun mask cpu =>
        if nodes cpu ≥ 0 then
          (mask.1 ||| nodeBit (nodes cpu), if nodes cpu + 1 > mask.2 then nodes cpu + 1 else mask.2)
        else mask) start).1.testBit k = true ↔ start.1.testBit k = true ∨ ∃ c ∈ cpus, nodes c = k) := by
    intro cpus
    induction cpus with
    | nil => simp
    | cons cpu cpus ih =>
      intro inside start
      have either : (∃ c ∈ cpu :: cpus, nodes c = k) ↔ nodes cpu = k ∨ ∃ c ∈ cpus, nodes c = k := by simp
      simp only [List.foldl_cons, ih (fun c member => inside c (List.mem_cons_of_mem _ member)), either]
      split
      · rename_i mapped
        rw [Nat.testBit_or, Bool.or_eq_true, nodeBit_testBit mapped (inside cpu List.mem_cons_self mapped), or_assoc]
      · rename_i unmapped
        have other : ¬ nodes cpu = k := by omega
        simp only [or_iff_right other]
  rw [interleaveMask, loop _ (fun c member => by
    have bounds := Int.mem_range_iff.mp member
    exact within c bounds.1 bounds.2), Nat.zero_testBit]
  simp only [Bool.false_eq_true, false_or, Int.mem_range_iff]

/- Which entry a CPU gets its node from. -/

def NumaEntry.names (e : NumaEntry) (cpu : Int) : Bool := e.first ≤ cpu && cpu ≤ e.last.getD e.first

def lastNaming (entries : List NumaEntry) (cpu : Int) : Option NumaEntry :=
  entries.reverse.find? (fun e => e.names cpu)

theorem mem_cells {host : Host} {cpu : Int} (online : host.Online cpu) (e : NumaEntry) :
    decide (cpu ∈ e.cells host.ncpu host.ncpu) = e.names cpu := by
  obtain ⟨lower, upper⟩ := online
  rw [NumaEntry.cells, NumaEntry.names]
  cases e.last with
  | some last =>
    rw [Bool.eq_iff_iff]
    simp only [Int.mem_range_iff, decide_eq_true_eq, Option.getD_some, Bool.and_eq_true]
    omega
  | none =>
    rw [Bool.eq_iff_iff]
    simp only [decide_eq_true_eq, Option.getD_none, Bool.and_eq_true]
    split
    · simp only [List.mem_singleton]
      omega
    · simp only [iff_false_left List.not_mem_nil]
      omega

theorem node_last {host : Host} {cpu : Int} (online : host.Online cpu) (entries : List NumaEntry) :
    (bindEntries host.ncpu host.ncpu entries).node cpu =
      ((lastNaming entries cpu).map NumaEntry.node).getD (-1) := by
  have blocks := Stores.apply_blocks entries (fun e => e.cells host.ncpu host.ncpu) NumaEntry.node (fun _ => -1) cpu
  simp only [mem_cells online] at blocks
  exact blocks

/-- What both users of the map rely on: the rebuilt topology stays within its rows, and the
masks of the memory policy have the bits of the nodes in the map. -/
structure SafeNodes (host : Host) (nodes : Int → Int) : Prop where
  small : ∀ cpu, host.Online cpu → 0 ≤ nodes cpu → nodes cpu < 16
  rebuilds : ∀ detected, ∃ rebuilt, rebuildNodes host.ncpu nodes detected = .ok rebuilt
  shifts : ∀ cpu, host.Online cpu → 0 ≤ nodes cpu → nodes cpu < 64
  interleaved : ∀ k, (interleaveMask host.ncpu nodes).1.testBit k = true ↔ ∃ cpu, host.Online cpu ∧ nodes cpu = k
  bound : ∀ cpu, host.Online cpu → 0 ≤ nodes cpu → ∀ k, (nodeBit (nodes cpu)).testBit k = true ↔ nodes cpu = k

theorem safeNodes_iff (host : Host) (nodes : Int → Int) :
    SafeNodes host nodes ↔ ∀ cpu, host.Online cpu → nodes cpu ≤ 15 := by
  constructor
  · intro safe cpu online
    by_contra large
    have small := safe.small cpu online (by omega)
    omega
  · intro small
    have below : ∀ cpu, host.Online cpu → 0 ≤ nodes cpu → nodes cpu < 64 := fun cpu online _ => by
      have le := small cpu online
      omega
    refine ⟨fun cpu online _ => ?_, fun detected => ?_, below, fun k => ?_, fun cpu online lower k => ?_⟩
    · have le := small cpu online
      omega
    · exact (rebuild_ok_iff host.ncpu nodes detected).mpr (fun c lower upper => small c ⟨lower, upper⟩)
    · exact interleaveMask_testBit (fun c lower upper => below c ⟨lower, upper⟩) k
    · exact nodeBit_testBit lower (below cpu online lower) k

theorem shorthand_few {spec : List Char} {nodes : Int} (short : shorthand spec = some nodes) :
    0 < nodes ∧ nodes ≤ 16 := by
  unfold shorthand at short
  split at short
  · rename_i number
    rw [← Option.some.inj short]
    exact number.2
  · cases short

/-- A number of nodes gives only numbers below it. -/
theorem interleave_small {nodes : Int} (positive : 0 < nodes) (ncpu maxCpu : Nat) (cpu : Int) :
    (interleave ncpu maxCpu nodes).node cpu < nodes := by
  simp only [NumaBind.node]
  rcases Stores.apply_mem (interleave ncpu maxCpu nodes).stores (fun _ => -1) cpu with
    unset | ⟨st, within, _, set_⟩
  · simp only [unset]
    omega
  · simp only [interleave_stores] at within
    obtain ⟨c, _, rfl⟩ := List.mem_map.mp within
    simp only [set_]
    exact Int.emod_lt_of_pos c positive

/-- The stored nodes are safe exactly if, for every CPU that some entry names, the last of these
entries has a node number of at most 15. -/
theorem stored_nodes_safe_iff (host : Host) (spec : List Char) :
    SafeNodes host (harnessParseNumaBind host spec host.ncpu).node ↔
      ∀ cpu, host.Online cpu → ∀ e, lastNaming (numaEntries host spec) cpu = some e → e.node ≤ 15 := by
  simp only [safeNodes_iff]
  cases list : shorthand spec with
  | none =>
    simp only [bind_entries host list]
    refine forall₂_congr (fun cpu online => ?_)
    simp only [node_last online]
    cases lastNaming (numaEntries host spec) cpu with
    | none => simp
    | some e => simp
  | some nodes =>
    have none : numaEntries host spec = [] := by simp [numaEntries, list]
    obtain ⟨positive, few⟩ := shorthand_few list
    refine iff_of_true (fun cpu online => ?_) (fun cpu online e named => ?_)
    · have small := interleave_small positive host.ncpu host.ncpu cpu
      simp only [bind_shorthand host list]
      omega
    · simp only [none] at named
      cases named

/- A node number beyond both limits. -/
theorem large_node_unsafe : ¬ SafeNodes numaHost (harnessParseNumaBind numaHost "0:99".toList numaHost.ncpu).node := by
  simp only [safeNodes_iff]
  have value : (harnessParseNumaBind numaHost "0:99".toList numaHost.ncpu).node 0 = 99 := by decide +kernel
  intro small
  have le := small 0 ⟨by decide, by decide⟩
  omega

end ServMark
