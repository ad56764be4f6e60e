import ServMark.NumaBind
import ServMark.Library.Loops

/-! The NUMA nodes that harness_run rebuilds from a topology override. Allocations succeed. -/
namespace ServMark

/-- The ints of numa_node_t.distance. -/
abbrev distanceCells : Nat := 16

structure NumaNode where
  id : Int
  cpuCount : Nat
  cpuList : List Int
  memoryKb : Nat
  distance : Vector Int distanceCells

def NumaNode.distanceTo (node : NumaNode) (n : Nat) : Int := node.distance[n]?.getD 0

def maxNid (ncpu : Nat) (c2n : Int → Int) : Int :=
  (Int.range 0 ncpu).foldl (fun most i => if c2n i > most then c2n i else most) (-1)

def countCpus (ncpu : Nat) (c2n : Int → Int) (n : Nat) : Nat :=
  (Int.range 0 ncpu).foldl (fun count i => if c2n i = n then count + 1 else count) 0

def listCpus (ncpu : Nat) (c2n : Int → Int) (n : Nat) : List Int :=
  (Int.range 0 ncpu).foldl (fun list i => if c2n i = n then list ++ [i] else list) []

def fallbackRow (n : Nat) : Vector Int distanceCells := Vector.ofFn (fun d => if d.val = n then 10 else 20)

/-- A node of the new array, with the memory and the row of the detected node of its id. -/
def rebuildNode (ncpu : Nat) (c2n : Int → Int) (old : List NumaNode) (n : Nat) : NumaNode :=
  let node : NumaNode := ⟨n, countCpus ncpu c2n n, listCpus ncpu c2n n, 0, Vector.replicate distanceCells 0⟩
  let node := match old.find? (fun o => o.id = (n : Int)) with
    | none => node
    | some o => { node with memoryKb := o.memoryKb, distance := o.distance }
  if node.distanceTo n = 0 then { node with distance := fallbackRow n } else node

/- The test of distance[n] leaves the array for a node with a number above 15. -/
def rebuildNodes (ncpu : Nat) (c2n : Int → Int) (old : List NumaNode) : Except Fault (List NumaNode) :=
  let nNodes := (maxNid ncpu c2n + 1).toNat
  if nNodes ≤ distanceCells then .ok ((List.range nNodes).map (rebuildNode ncpu c2n old)) else .error .overflow

/-- The nodes after the override, if there is one; the empty list of nodes is the NULL of a
failed probe. -/
def overrideTopology (host : Host) (config : RunConfig) (nodes : List NumaNode) : Except Fault (List NumaNode) :=
  match config.numaTopoSpec with
  | none => .ok nodes
  | some spec =>
    if spec ≠ "" ∧ nodes ≠ [] then
      let bind := harnessParseNumaBind host spec.toList host.ncpu
      if bind.bound > 0 then rebuildNodes host.ncpu bind.node nodes else .ok nodes
    else .ok nodes

theorem override_rebuilds {host : Host} {config : RunConfig} {spec : String} {nodes : List NumaNode}
    (given : config.numaTopoSpec = some spec) (some_ : spec ≠ "") (probed : nodes ≠ [])
    (bound : 0 < (harnessParseNumaBind host spec.toList host.ncpu).bound) : overrideTopology host config nodes =
      rebuildNodes host.ncpu (harnessParseNumaBind host spec.toList host.ncpu).node nodes := by
  simp only [overrideTopology, given]
  rw [if_pos ⟨some_, probed⟩, if_pos bound]

/- The three loops over the CPUs. -/
section Loops
variable (ncpu : Nat) (c2n : Int → Int)

theorem maxNid_spec : (∀ c : Int, 0 ≤ c → c < ncpu → c2n c ≤ maxNid ncpu c2n) ∧ -1 ≤ maxNid ncpu c2n ∧
    (maxNid ncpu c2n = -1 ∨ ∃ c : Int, (0 ≤ c ∧ c < ncpu) ∧ c2n c = maxNid ncpu c2n) := by
  have loop : maxNid ncpu c2n = Loops.most c2n (-1) (Int.range 0 ncpu) := rfl
  obtain ⟨above, all⟩ := Loops.le_most c2n (Int.range 0 ncpu) (-1)
  simp only [loop]
  refine ⟨fun c lower upper => all c (Int.mem_range_iff.mpr ⟨lower, upper⟩), above,
    (Loops.most_reached c2n _ _).imp_right ?_⟩
  rintro ⟨c, member, eq⟩
  exact ⟨c, Int.mem_range_iff.mp member, eq⟩

theorem listCpus_eq (n : Nat) : listCpus ncpu c2n n = (Int.range 0 ncpu).filter (fun c => c2n c = n) := by
  simp only [listCpus, Loops.foldl_collect, List.nil_append]

theorem countCpus_eq (n : Nat) : countCpus ncpu c2n n = (listCpus ncpu c2n n).length := by
  simp only [listCpus_eq, countCpus, Loops.foldl_count, Nat.zero_add]

theorem mem_listCpus {n : Nat} {c : Int} : c ∈ listCpus ncpu c2n n ↔ (0 ≤ c ∧ c < ncpu) ∧ c2n c = n := by
  simp only [listCpus_eq, List.mem_filter, Int.mem_range_iff, decide_eq_true_eq]

theorem listCpus_sorted (n : Nat) : (listCpus ncpu c2n n).Pairwise (· < ·) := by
  simp only [listCpus_eq]
  apply List.Pairwise.filter
  simp only [Int.range, List.pairwise_map]
  exact List.pairwise_lt_range.imp (fun lt => by omega)

end Loops

def newNodes (ncpu : Nat) (c2n : Int → Int) (old : List NumaNode) : List NumaNode :=
  (List.range (maxNid ncpu c2n + 1).toNat).map (rebuildNode ncpu c2n old)

/-- The new nodes fit the rows of distances exactly if no CPU is on a node above 15. -/
theorem newNodes_fit_iff (ncpu : Nat) (c2n : Int → Int) :
    (maxNid ncpu c2n + 1).toNat ≤ distanceCells ↔ ∀ c : Int, 0 ≤ c → c < ncpu → c2n c ≤ 15 := by
  obtain ⟨above, least, reached⟩ := maxNid_spec ncpu c2n
  have cells : distanceCells = 16 := rfl
  constructor
  · intro fits c lower upper
    have le := above c lower upper
    omega
  · intro small
    rcases reached with none | ⟨c, bounds, eq⟩
    · omega
    · have le := small c bounds.1 bounds.2
      omega

theorem rebuild_ok {ncpu : Nat} {c2n : Int → Int} (small : ∀ c : Int, 0 ≤ c → c < ncpu → c2n c ≤ 15)
    (old : List NumaNode) : rebuildNodes ncpu c2n old = .ok (newNodes ncpu c2n old) :=
  if_pos ((newNodes_fit_iff ncpu c2n).mpr small)

theorem rebuild_ok_iff (ncpu : Nat) (c2n : Int → Int) (old : List NumaNode) :
    (∃ nodes, rebuildNodes ncpu c2n old = .ok nodes) ↔ ∀ c : Int, 0 ≤ c → c < ncpu → c2n c ≤ 15 := by
  rw [← newNodes_fit_iff]
  unfold rebuildNodes
  dsimp only
  split
  · rename_i fits
    exact iff_of_true ⟨_, rfl⟩ fits
  · rename_i overflows
    exact iff_of_false (fun ⟨_, eq⟩ => nomatch eq) overflows

section Node
variable (ncpu : Nat) (c2n : Int → Int) (old : List NumaNode) (n : Nat)

theorem rebuildNode_cpus : (rebuildNode ncpu c2n old n).id = n ∧
    (rebuildNode ncpu c2n old n).cpuCount = countCpus ncpu c2n n ∧
    (rebuildNode ncpu c2n old n).cpuList = listCpus ncpu c2n n := by
  unfold rebuildNode
  dsimp only
  cases old.find? (fun o => o.id = (n : Int)) <;> (dsimp only; split <;> exact ⟨rfl, rfl, rfl⟩)

theorem rebuildNode_memory : (∃ d ∈ old, d.id = n ∧ (rebuildNode ncpu c2n old n).memoryKb = d.memoryKb) ∨
    (∀ d ∈ old, d.id ≠ n) ∧ (rebuildNode ncpu c2n old n).memoryKb = 0 := by
  unfold rebuildNode
  dsimp only
  cases found : old.find? (fun o => o.id = (n : Int)) with
  | none =>
    refine Or.inr ⟨fun d member => ?_, ?_⟩
    · simpa using List.find?_eq_none.mp found d member
    · dsimp only
      split <;> rfl
  | some d =>
    refine Or.inl ⟨d, List.mem_of_find?_eq_some found, by simpa using List.find?_some found, ?_⟩
    dsimp only
    split <;> rfl

end Node

/-- The nodes are numbered from zero to the largest id of the map, each with exactly the CPUs
the map sends to it. -/
structure ExactTopology (ncpu : Nat) (c2n : Int → Int) (detected nodes : List NumaNode) : Prop where
  numbered : ∃ most : Nat, IsGreatest {id | ∃ c : Int, (0 ≤ c ∧ c < ncpu) ∧ c2n c = id} (most : Int) ∧
    nodes.map NumaNode.id = (List.range (most + 1)).map Nat.cast
  counts : ∀ node ∈ nodes, node.cpuCount = {c ∈ Finset.Ico (0 : Int) ncpu | c2n c = node.id}.card
  lists : ∀ node ∈ nodes, node.cpuList.Pairwise (· < ·) ∧
    ∀ c, c ∈ node.cpuList ↔ (0 ≤ c ∧ c < ncpu) ∧ c2n c = node.id
  disjoint : nodes.Pairwise (fun x y => x.cpuList.Disjoint y.cpuList)
  covers : ∀ c, (∃ node ∈ nodes, c ∈ node.cpuList) ↔ (0 ≤ c ∧ c < ncpu) ∧ c2n c ≠ -1
  memory : ∀ node ∈ nodes, (∃ d ∈ detected, d.id = node.id ∧ node.memoryKb = d.memoryKb) ∨
    (∀ d ∈ detected, d.id ≠ node.id) ∧ node.memoryKb = 0

theorem countCpus_card (ncpu : Nat) (c2n : Int → Int) (n : Nat) :
    countCpus ncpu c2n n = {c ∈ Finset.Ico (0 : Int) ncpu | c2n c = n}.card := by
  have nodup : (listCpus ncpu c2n n).Nodup := (listCpus_sorted ncpu c2n n).imp (fun lt => lt.ne)
  have same : (listCpus ncpu c2n n).toFinset = {c ∈ Finset.Ico (0 : Int) ncpu | c2n c = n} := by
    ext c
    simp only [List.mem_toFinset, mem_listCpus, Finset.mem_filter, Finset.mem_Ico]
  simp only [countCpus_eq, ← same, List.toFinset_card_of_nodup nodup]

section Exact
variable (ncpu : Nat) (c2n : Int → Int) (detected : List NumaNode)

theorem mem_newNodes {node : NumaNode} (within : node ∈ newNodes ncpu c2n detected) :
    ∃ n : Nat, node = rebuildNode ncpu c2n detected n := by
  obtain ⟨n, _, rfl⟩ := List.mem_map.mp within
  exact ⟨n, rfl⟩

theorem newNodes_lists : ∀ node ∈ newNodes ncpu c2n detected, node.cpuList.Pairwise (· < ·) ∧
    ∀ c, c ∈ node.cpuList ↔ (0 ≤ c ∧ c < ncpu) ∧ c2n c = node.id := by
  intro node within
  obtain ⟨n, rfl⟩ := mem_newNodes ncpu c2n detected within
  obtain ⟨id, _, list⟩ := rebuildNode_cpus ncpu c2n detected n
  simp only [list, id]
  exact ⟨listCpus_sorted ncpu c2n n, fun c => mem_listCpus ncpu c2n⟩

theorem newNodes_disjoint : (newNodes ncpu c2n detected).Pairwise (fun x y => x.cpuList.Disjoint y.cpuList) := by
  simp only [newNodes, List.pairwise_map]
  refine List.pairwise_lt_range.imp (fun {m n} lt => ?_)
  simp only [(rebuildNode_cpus ncpu c2n detected m).2.2, (rebuildNode_cpus ncpu c2n detected n).2.2]
  intro c left right
  have left := ((mem_listCpus ncpu c2n).mp left).2
  have right := ((mem_listCpus ncpu c2n).mp right).2
  omega

theorem newNodes_numbered (mapped : ∃ c : Int, (0 ≤ c ∧ c < ncpu) ∧ 0 ≤ c2n c) :
    ∃ most : Nat, IsGreatest {id | ∃ c : Int, (0 ≤ c ∧ c < ncpu) ∧ c2n c = id} (most : Int) ∧
      (newNodes ncpu c2n detected).map NumaNode.id = (List.range (most + 1)).map Nat.cast := by
  obtain ⟨above, least, reached⟩ := maxNid_spec ncpu c2n
  obtain ⟨some_, bounds, positive⟩ := mapped
  have lower := above some_ bounds.1 bounds.2
  refine ⟨(maxNid ncpu c2n).toNat, ⟨?_, ?_⟩, ?_⟩
  · rcases reached with none | ⟨c, within, eq⟩
    · omega
    · exact ⟨c, within, by omega⟩
  · rintro id ⟨c, within, rfl⟩
    have le := above c within.1 within.2
    omega
  · have count : (maxNid ncpu c2n + 1).toNat = (maxNid ncpu c2n).toNat + 1 := by omega
    simp only [newNodes, List.map_map, count]
    exact List.map_congr_left (fun n _ => (rebuildNode_cpus ncpu c2n detected n).1)

theorem newNodes_covers (ids : ∀ c : Int, 0 ≤ c → c < ncpu → c2n c = -1 ∨ 0 ≤ c2n c ∧ c2n c ≤ 15) (c : Int) :
    (∃ node ∈ newNodes ncpu c2n detected, c ∈ node.cpuList) ↔ (0 ≤ c ∧ c < ncpu) ∧ c2n c ≠ -1 := by
  constructor
  · rintro ⟨node, within, listed⟩
    obtain ⟨n, rfl⟩ := mem_newNodes ncpu c2n detected within
    simp only [(rebuildNode_cpus ncpu c2n detected n).2.2, mem_listCpus] at listed
    exact ⟨listed.1, by omega⟩
  · rintro ⟨within, other⟩
    have id := ids c within.1 within.2
    have le := (maxNid_spec ncpu c2n).1 c within.1 within.2
    refine ⟨rebuildNode ncpu c2n detected (c2n c).toNat, List.mem_map.mpr ⟨_, List.mem_range.mpr (by omega), rfl⟩, ?_⟩
    simp only [(rebuildNode_cpus ncpu c2n detected _).2.2, mem_listCpus]
    exact ⟨within, by omega⟩

end Exact

theorem rebuilt_exact (ncpu : Nat) {c2n : Int → Int} (detected : List NumaNode)
    (ids : ∀ c : Int, 0 ≤ c → c < ncpu → c2n c = -1 ∨ 0 ≤ c2n c ∧ c2n c ≤ 15)
    (mapped : ∃ c : Int, (0 ≤ c ∧ c < ncpu) ∧ 0 ≤ c2n c) :
    ∃ nodes, rebuildNodes ncpu c2n detected = .ok nodes ∧ ExactTopology ncpu c2n detected nodes := by
  have small : ∀ c : Int, 0 ≤ c → c < ncpu → c2n c ≤ 15 := fun c lower upper => by
    have id := ids c lower upper
    omega
  refine ⟨_, rebuild_ok small detected, newNodes_numbered ncpu c2n detected mapped, fun node within => ?_,
    newNodes_lists ncpu c2n detected, newNodes_disjoint ncpu c2n detected, newNodes_covers ncpu c2n detected ids,
    fun node within => ?_⟩
  · obtain ⟨n, rfl⟩ := mem_newNodes ncpu c2n detected within
    obtain ⟨id, count, _⟩ := rebuildNode_cpus ncpu c2n detected n
    simp only [count, id, countCpus_card]
  · obtain ⟨n, rfl⟩ := mem_newNodes ncpu c2n detected within
    simp only [(rebuildNode_cpus ncpu c2n detected n).1]
    exact rebuildNode_memory ncpu c2n detected n

def soleNode : NumaNode := ⟨0, 2, [0, 1], 4096, Vector.ofFn (fun d => if d.val = 0 then 10 else 0)⟩

def thirdNode : NumaNode := { soleNode with id := 2, memoryKb := 8192 }

/- Two CPUs on the nodes 0 and 2 of a machine that has these: their memory is kept, node 1 has none. -/
theorem gap_exact : ∃ nodes, rebuildNodes 2 (fun c => 2 * c) [soleNode, thirdNode] = .ok nodes ∧
    ExactTopology 2 (fun c => 2 * c) [soleNode, thirdNode] nodes ∧ nodes.map NumaNode.memoryKb = [4096, 0, 8192] := by
  obtain ⟨nodes, rebuilt, exact_⟩ := @rebuilt_exact 2 (fun c => 2 * c) [soleNode, thirdNode]
    (fun c lower upper => Or.inr (by omega)) ⟨0, by omega, by omega⟩
  have same : nodes = newNodes 2 (fun c => 2 * c) [soleNode, thirdNode] :=
    Except.ok.inj (rebuilt.symm.trans (@rebuild_ok 2 (fun c => 2 * c) (fun c lower upper => by omega) _))
  refine ⟨nodes, rebuilt, exact_, ?_⟩
  rw [same]
  decide

/- Distances. -/

def Detected (detected : List NumaNode) (n : Nat) : Prop := ∃ d ∈ detected, d.id = n

/-- A matrix as system_probe reads it: 10 on the diagonal, more between two detected nodes,
zero where there is no node. -/
structure MatrixSound (detected : List NumaNode) : Prop where
  diagonal : ∀ d ∈ detected, ∀ n < distanceCells, d.id = (n : Nat) → d.distanceTo n = 10
  apart : ∀ d ∈ detected, ∀ n < distanceCells, Detected detected n → d.id ≠ (n : Nat) → 10 < d.distanceTo n
  absent : ∀ d ∈ detected, ∀ n < distanceCells, ¬ Detected detected n → d.distanceTo n = 0

/-- A node number up to the largest id of the map. -/
def Numbered (ncpu : Nat) (c2n : Int → Int) (n : Nat) : Prop := ∃ c : Int, (0 ≤ c ∧ c < ncpu) ∧ n ≤ c2n c

theorem numbered_iff (ncpu : Nat) (c2n : Int → Int) (old : List NumaNode) (n : Nat) :
    n < (newNodes ncpu c2n old).length ↔ Numbered ncpu c2n n := by
  obtain ⟨above, least, reached⟩ := maxNid_spec ncpu c2n
  rw [newNodes, List.length_map, List.length_range]
  constructor
  · intro within
    rcases reached with none | ⟨c, bounds, eq⟩
    · omega
    · exact ⟨c, bounds, by omega⟩
  · rintro ⟨c, bounds, le⟩
    have most := above c bounds.1 bounds.2
    omega

/-- Every node is nearest to itself, at a positive distance. -/
def Usable (nodes : List NumaNode) : Prop :=
  ∀ a b, (ha : a < nodes.length) → b < nodes.length →
    0 < nodes[a].distanceTo a ∧ (a ≠ b → nodes[a].distanceTo a < nodes[a].distanceTo b)

theorem fallbackRow_distance {n m : Nat} (inside : m < distanceCells) :
    (fallbackRow n)[m]?.getD 0 = if m = n then 10 else 20 := by
  simp [fallbackRow, inside]

/-- The row of a new node: that of the detected node of its id, or the fallback. -/
theorem rebuildNode_distance {detected : List NumaNode} (sound : MatrixSound detected) (ncpu : Nat)
    (c2n : Int → Int) {n : Nat} (inside : n < distanceCells) :
    (∃ d ∈ detected, d.id = n ∧ ∀ m, (rebuildNode ncpu c2n detected n).distanceTo m = d.distanceTo m) ∨
      ¬ Detected detected n ∧ ∀ m < distanceCells,
        (rebuildNode ncpu c2n detected n).distanceTo m = if m = n then 10 else 20 := by
  unfold rebuildNode
  dsimp only
  cases found : detected.find? (fun o => o.id = (n : Int)) with
  | none =>
    have zero : ∀ node : NumaNode, node.distance = Vector.replicate distanceCells 0 → node.distanceTo n = 0 := by
      intro node row
      simp [NumaNode.distanceTo, row, inside]
    refine Or.inr ⟨?_, fun m within => ?_⟩
    · rintro ⟨d, member, id⟩
      exact absurd id (by simpa using List.find?_eq_none.mp found d member)
    · dsimp only
      rw [if_pos (zero _ rfl)]
      exact fallbackRow_distance within
  | some d =>
    have member := List.mem_of_find?_eq_some found
    have id : d.id = n := by simpa using List.find?_some found
    have own : d.distanceTo n = 10 := sound.diagonal d member n inside id
    refine Or.inl ⟨d, member, id, fun m => ?_⟩
    dsimp only
    split
    · rename_i zero
      exact absurd (own.symm.trans zero) (by decide)
    · rfl

section Matrix
variable (ncpu : Nat) {c2n : Int → Int} {detected : List NumaNode}
  (ids : ∀ c : Int, 0 ≤ c → c < ncpu → c2n c ≤ 15) (sound : MatrixSound detected)
include ids sound

theorem newNodes_usable_iff : Usable (newNodes ncpu c2n detected) ↔
    ∀ a b, Numbered ncpu c2n a → Numbered ncpu c2n b → Detected detected a → Detected detected b := by
  simp only [← numbered_iff ncpu c2n detected]
  have cells : (newNodes ncpu c2n detected).length ≤ distanceCells := by
    simpa [newNodes] using (newNodes_fit_iff ncpu c2n).mpr ids
  have node : ∀ a, (ha : a < (newNodes ncpu c2n detected).length) →
      (newNodes ncpu c2n detected)[a] = rebuildNode ncpu c2n detected a := by simp [newNodes]
  constructor
  · intro usable a b ha hb found
    by_contra absent
    have apart : a ≠ b := by
      rintro rfl
      exact absent found
    have nearer := (usable a b ha hb).2 apart
    simp only [node a ha] at nearer
    rcases rebuildNode_distance sound ncpu c2n (by omega : a < distanceCells) with ⟨d, member, id, row⟩ | ⟨missing, _⟩
    · -- a copied row holds zero for the node that was not detected
      rw [row, row, sound.diagonal d member a (by omega) id, sound.absent d member b (by omega) absent] at nearer
      omega
    · exact missing found
  · intro closed a b ha hb
    simp only [node a ha]
    rcases rebuildNode_distance sound ncpu c2n (by omega : a < distanceCells) with ⟨d, member, id, row⟩ | ⟨_, row⟩
    · have own := sound.diagonal d member a (by omega) id
      rw [row, row, own]
      refine ⟨by omega, fun apart => ?_⟩
      exact sound.apart d member b (by omega) (closed a b ha hb ⟨d, member, id⟩) (by omega)
    · rw [row a (by omega), row b (by omega), if_pos rfl]
      refine ⟨by omega, fun apart => ?_⟩
      simp only [if_neg apart.symm]
      omega

/-- The rebuilt matrix is usable exactly if, among the numbers up to the largest id of the map, all are ids of
detected nodes or none is: a copied row has no distance to a node that was not detected. -/
theorem rebuilt_usable_iff : ∃ nodes, rebuildNodes ncpu c2n detected = .ok nodes ∧ (Usable nodes ↔
    ∀ a b, Numbered ncpu c2n a → Numbered ncpu c2n b → Detected detected a → Detected detected b) :=
  ⟨_, rebuild_ok ids detected, newNodes_usable_iff ncpu ids sound⟩

end Matrix

theorem sole_sound : MatrixSound [soleNode] := by
  have row : ∀ n < distanceCells, soleNode.distanceTo n = if n = 0 then 10 else 0 := by decide
  have found : ∀ n : Nat, Detected [soleNode] n ↔ n = 0 := by
    intro n
    simp only [Detected, List.mem_singleton, exists_eq_left, soleNode]
    omega
  refine ⟨fun d member n inside id => ?_, fun d member n inside other id => ?_, fun d member n inside absent => ?_⟩
  · simp only [List.mem_singleton.mp member] at id ⊢
    simp only [row n inside, if_pos ((found n).mp ⟨soleNode, by simp, id⟩)]
  · simp only [List.mem_singleton.mp member] at id
    exact absurd ((found n).mp other) (fun zero => id (by rw [zero]; rfl))
  · simp only [List.mem_singleton.mp member, row n inside, if_neg (fun zero => absent ((found n).mpr zero))]

theorem sole_same_usable : ∃ nodes, rebuildNodes 2 (fun _ => 0) [soleNode] = .ok nodes ∧ (Usable nodes ↔
    ∀ a b, Numbered 2 (fun _ => 0) a → Numbered 2 (fun _ => 0) b → Detected [soleNode] a → Detected [soleNode] b) :=
  rebuilt_usable_iff 2 (fun _ _ _ => by decide) sole_sound

/- The override "2" on that machine: node 0 keeps its row, in which node 1 is at distance 0. -/
theorem split_unusable : MatrixSound [soleNode] ∧
    ∃ nodes, overrideTopology numaHost { mainConfig with numaTopoSpec := some "2" } [soleNode] = .ok nodes ∧
      ¬ Usable nodes := by
  have bound : (harnessParseNumaBind numaHost "2".toList numaHost.ncpu).bound = 2 := by decide +kernel
  have most : maxNid numaHost.ncpu (harnessParseNumaBind numaHost "2".toList numaHost.ncpu).node = 1 := by
    decide +kernel
  have override_ : overrideTopology numaHost { mainConfig with numaTopoSpec := some "2" } [soleNode] =
      rebuildNodes numaHost.ncpu (harnessParseNumaBind numaHost "2".toList numaHost.ncpu).node [soleNode] :=
    override_rebuilds rfl (by decide) (by simp) (by rw [bound]; decide)
  have small := (newNodes_fit_iff _ _).mp (by rw [most]; decide)
  have both {n : Nat} (le : n ≤ 1) :
      Numbered numaHost.ncpu (harnessParseNumaBind numaHost "2".toList numaHost.ncpu).node n := by
    rw [← numbered_iff _ _ [soleNode], newNodes, List.length_map, List.length_range, most]
    exact Nat.lt_succ_of_le le
  refine ⟨sole_sound, _, override_.trans (rebuild_ok small [soleNode]), fun good => ?_⟩
  obtain ⟨d, member, id⟩ := (newNodes_usable_iff _ small sole_sound).mp good 0 1 (both (by omega)) (both le_rfl)
    ⟨soleNode, by simp, rfl⟩
  simp only [List.mem_singleton.mp member] at id
  exact absurd id (by decide)

end ServMark
