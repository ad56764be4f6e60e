import ServMark.Lifecycle
import ServMark.Collection
import ServMark.Library.Bounded

/-! harness_run_parallel as the parent executes it: the system calls it makes for pipes and
children, the records it reads, the pooling of their samples and the statistics.
Pinning and memory policy only act inside the children and are not part of this module. -/
namespace ServMark

/-- Which allocations, pipe() and fork() calls fail. -/
structure Faults where
  malloc : Bool
  pipe : Nat → Bool
  fork : Nat → Bool
  calloc : Bool

def noFaults : Faults := ⟨false, fun _ => false, fun _ => false, false⟩

/- The two ends of pipe i are named by i, a child by the index of its instance. A pid of
none is the -1 a failed fork() leaves in pids[i]. -/
inductive OsCall where
  | pipe (i : Nat)
  | fork (i : Nat)
  | closeRead (i : Nat)
  | closeWrite (i : Nat)
  | kill (pid : Option Nat)
  | waitpid (pid : Option Nat)
  deriving DecidableEq, Repr

def pidOf (f : Faults) (i : Nat) : Option Nat := if f.fork i then none else some i

/- The loop that starts the children, with the calls made so far. A pipe() that fails at i
closes both ends of every earlier pipe and gives up. -/
def forkLoop (f : Faults) : Nat → Nat → List OsCall → Bool × List OsCall
  | 0, _, calls => (true, calls)
  | left + 1, i, calls =>
    if f.pipe i then
      (false, calls ++ (List.range i).flatMap (fun j => [.closeRead j, .closeWrite j]))
    else
      let calls := calls ++ [.pipe i]
      let calls := if f.fork i then calls else calls ++ [.fork i]
      forkLoop f left (i + 1) (calls ++ [.closeWrite i])

/-- The clean-up when the array of results cannot be allocated. -/
def abandonCalls (f : Faults) (n : Nat) : List OsCall :=
  (List.range n).flatMap (fun i => [.closeRead i, .kill (pidOf f i), .waitpid (pidOf f i)])

def collectCalls (f : Faults) (n : Nat) : List OsCall :=
  (List.range n).flatMap (fun i => [.waitpid (pidOf f i), .closeRead i])

def parentCalls (f : Faults) (n : Nat) : List OsCall :=
  if f.malloc then []
  else
    let forks := forkLoop f n 0 []
    if forks.1 = false then forks.2
    else if f.calloc then forks.2 ++ abandonCalls f n
    else forks.2 ++ collectCalls f n

/- The calls of the starting loop in closed form. -/

def spawnCalls (f : Faults) (i : Nat) : List OsCall :=
  [.pipe i] ++ (if f.fork i then [] else [.fork i]) ++ [.closeWrite i]

def spawned (f : Faults) (n : Nat) : List OsCall := (List.range n).flatMap (spawnCalls f)

def pipeCleanup (i : Nat) : List OsCall := (List.range i).flatMap (fun j => [.closeRead j, .closeWrite j])

theorem spawned_succ (f : Faults) (n : Nat) : spawned f (n + 1) = spawned f n ++ spawnCalls f n := by
  simp [spawned, List.range_succ]

theorem forkLoop_step (f : Faults) (left i : Nat) (works : f.pipe i = false) :
    forkLoop f (left + 1) i (spawned f i) = forkLoop f left (i + 1) (spawned f (i + 1)) := by
  rw [spawned_succ]
  cases forks : f.fork i <;> simp [forkLoop, works, forks, spawnCalls]

theorem forkLoop_all (f : Faults) (left i : Nat) (works : ∀ j, i ≤ j → j < i + left → f.pipe j = false) :
    forkLoop f left i (spawned f i) = (true, spawned f (i + left)) := by
  induction left generalizing i with
  | zero => rfl
  | succ left ih =>
    rw [forkLoop_step f left i (works i (by omega) (by omega)),
      ih (i + 1) (fun j le lt => works j (by omega) (by omega))]
    congr 2
    omega

theorem forkLoop_fails (f : Faults) (left i k : Nat) (fails : f.pipe (i + k) = true) (within : k < left)
    (works : ∀ j, i ≤ j → j < i + k → f.pipe j = false) :
    forkLoop f left i (spawned f i) = (false, spawned f (i + k) ++ pipeCleanup (i + k)) := by
  induction k generalizing left i with
  | zero =>
    obtain ⟨left, rfl⟩ := Nat.exists_eq_succ_of_ne_zero (by omega : left ≠ 0)
    have fails : f.pipe i = true := fails
    simp [forkLoop, fails, pipeCleanup]
  | succ k ih =>
    obtain ⟨left, rfl⟩ := Nat.exists_eq_succ_of_ne_zero (by omega : left ≠ 0)
    have shift : i + 1 + k = i + (k + 1) := by omega
    rw [Nat.succ_eq_add_one, forkLoop_step f left i (works i (by omega) (by omega)),
      ih left (i + 1) (shift ▸ fails) (by omega) (fun j le lt => works j (by omega) (by omega)), shift]

theorem forkLoop_cases (f : Faults) (n : Nat) :
    (∀ i, i < n → f.pipe i = false) ∧ forkLoop f n 0 [] = (true, spawned f n) ∨
      ∃ k, k < n ∧ f.pipe k = true ∧ (∀ j, j < k → f.pipe j = false) ∧
        forkLoop f n 0 [] = (false, spawned f k ++ pipeCleanup k) := by
  by_cases works : ∀ i, i < n → f.pipe i = false
  · have all := forkLoop_all f n 0 (fun j _ lt => works j (by omega))
    rw [Nat.zero_add] at all
    exact Or.inl ⟨works, all⟩
  · have fails : ∃ k, k < n ∧ f.pipe k = true := by
      push Not at works
      simpa using works
    obtain ⟨lt, first⟩ := Nat.find_spec fails
    have least : ∀ j, j < Nat.find fails → f.pipe j = false := by
      intro j earlier
      simpa [earlier.trans lt] using Nat.find_min fails earlier
    have loop := forkLoop_fails f n 0 (Nat.find fails) (by simpa using first) lt
      (fun j _ earlier => least j (by omega))
    rw [Nat.zero_add] at loop
    exact Or.inr ⟨Nat.find fails, lt, first, least, loop⟩

theorem forkLoop_started {f : Faults} {n : Nat} :
    (forkLoop f n 0 []).1 = true ↔ ∀ i, i < n → f.pipe i = false := by
  rcases forkLoop_cases f n with ⟨works, loop⟩ | ⟨k, lt, fails, _, loop⟩
  · exact iff_of_true (by rw [loop]) works
  · refine iff_of_false (by simp [loop]) (fun works => ?_)
    rw [works k lt] at fails
    cases fails

section Records
variable {α : Type}

/- What read() delivers from pipe i: nothing where no child was forked for it. -/
def receive (f : Faults) (fate : Nat → ChildFate (ChildResult α)) (i : Nat) : Option (ChildResult α) :=
  if f.fork i then none else (fate i).written

def readFailed (f : Faults) (fate : Nat → ChildFate (ChildResult α)) (i : Nat) : Bool :=
  match receive f fate i with
  | none => true
  | some r => decide (r.ret ≠ 0) || !(fate i).exited

/-- results and any_failed after the collection loop. -/
def collectResults [Zero α] (f : Faults) (fate : Nat → ChildFate (ChildResult α)) (n : Nat) :
    List (ChildResult α) × Bool :=
  ((List.range n).map (fun i => (receive f fate i).getD (.zeroed α)),
    (List.range n).any (readFailed f fate))

def allValuesCapacity : Nat := ssbMaxIterations * 32

def ChildResult.samples (r : ChildResult α) : List α := r.values.toList.take r.iter.toNat

def storeValue (all : List α) (v : α) : List α := Bounded.push allValuesCapacity all v

theorem readFailed_iff (f : Faults) (fate : Nat → ChildFate (ChildResult α)) (i : Nat) :
    readFailed f fate i = false ↔ f.fork i = false ∧ Delivered (fate i) := by
  unfold readFailed receive
  cases forks : f.fork i with
  | true => simp
  | false =>
    cases written : (fate i).written with
    | none =>
      have undelivered : ¬ Delivered (fate i) := by
        rintro ⟨r, eq, _⟩
        rw [eq] at written
        cases written
      simp [undelivered]
    | some r => simp [delivered_iff written]

/-- What is in the pipes of n children once they are gone. -/
def recordsOf [Zero α] (fate : Nat → ChildFate (ChildResult α)) (n : Nat) : List (ChildResult α) :=
  (List.range n).map (fun i => (fate i).written.getD (.zeroed α))

/-- Whatever the order of steps was, the protocol ends with what this loop computes. -/
theorem collection_refines [Zero α] {n capacity : Nat} {fate : Nat → ChildFate (ChildResult α)}
    {s : World α} {ret : Int} (reachable : (collection n capacity fate).Reachable s)
    (at_ : s.parent = .returned ret) :
    ((List.range n).map s.results, s.anyFailed) = collectResults noFaults fate n ∧
      ret = if (collectResults noFaults fate n).2 then -1 else 0 := by
  have inv := collecting_reachable reachable
  have results := inv.results
  have verdict := inv.verdict
  simp only [at_, Parent.collected] at results verdict
  have records : (List.range n).map s.results = (collectResults noFaults fate n).1 :=
    List.map_congr_left (fun i member => results i (List.mem_range.mp member))
  have failed : s.anyFailed = (collectResults noFaults fate n).2 := by
    have same : s.anyFailed = false ↔ (collectResults noFaults fate n).2 = false := by
      rw [verdict]
      simp only [collectResults, List.any_eq_false, List.mem_range, Bool.not_eq_true, readFailed_iff]
      simp [noFaults]
    cases h : s.anyFailed <;> simp_all
  exact ⟨Prod.ext records failed, failed ▸ inv.returned ret at_⟩

end Records

variable {α : Type} [Field α] [LinearOrder α] [Libm α]

def instanceMean (r : ChildResult α) : α := accumulate (fun v => v) r.samples / (r.iter : α)

def poolThroughput (results : List (ChildResult α)) : List α :=
  results.foldl (fun all r => if r.iter > 0 then storeValue all (instanceMean r) else all) []

def poolLatency (results : List (ChildResult α)) : List α :=
  results.foldl (fun all r => r.samples.foldl storeValue all) []

def poolSamples (b : Benchmark α) (results : List (ChildResult α)) : List α :=
  if b.higherIsBetter then poolThroughput results else poolLatency results

structure ParallelRun (α : Type) where
  calls : List OsCall
  pooled : Option (List α)
  ret : Int
  stats : BenchmarkStats α

/-- The field pooled is the list that reaches stats_compute, if the code gets there. -/
def harnessRunParallel (b : Benchmark α) (n : Nat) (f : Faults) (fate : Nat → ChildFate (ChildResult α))
    (stats : BenchmarkStats α) (rand : Nat → Nat) : ParallelRun α :=
  let calls := parentCalls f n
  if f.malloc ∨ (forkLoop f n 0 []).1 = false ∨ f.calloc then ⟨calls, none, -1, stats⟩
  else
    let collected := collectResults f fate n
    if collected.2 then ⟨calls, none, -1, stats⟩
    else
      let pooled := poolSamples b collected.1
      if pooled.length > 0 then ⟨calls, some pooled, 0, (statsCompute rand pooled stats).2⟩
      else ⟨calls, none, 0, .zeroed α⟩

theorem parallel_calls (b : Benchmark α) (n : Nat) (f : Faults) (fate : Nat → ChildFate (ChildResult α))
    (stats : BenchmarkStats α) (rand : Nat → Nat) :
    (harnessRunParallel b n f fate stats rand).calls = parentCalls f n := by
  unfold harnessRunParallel
  dsimp only
  split
  · rfl
  · split
    · rfl
    · split <;> rfl

/-- Every allocation, pipe() and fork() for n instances succeeds. -/
structure Works (f : Faults) (n : Nat) : Prop where
  malloc : f.malloc = false
  calloc : f.calloc = false
  pipe : ∀ i, i < n → f.pipe i = false
  fork : ∀ i, i < n → f.fork i = false

theorem fork_mem_parentCalls {f : Faults} {n i : Nat} (works : Works f n) (lt : i < n) :
    .fork i ∈ parentCalls f n := by
  have forked : .fork i ∈ spawned f n :=
    List.mem_flatMap.mpr ⟨i, List.mem_range.mpr lt, by simp [spawnCalls, works.fork i lt]⟩
  rcases forkLoop_cases f n with ⟨_, loop⟩ | ⟨k, below, fails, _⟩
  · simp [parentCalls, works.malloc, works.calloc, loop, forked]
  · rw [works.pipe k below] at fails
    cases fails

theorem parallel_delivered (b : Benchmark α) {n : Nat} {f : Faults} {fate : Nat → ChildFate (ChildResult α)}
    (stats : BenchmarkStats α) (rand : Nat → Nat) (works : Works f n)
    (delivered : ∀ i, i < n → Delivered (fate i)) :
    harnessRunParallel b n f fate stats rand =
      if (poolSamples b (recordsOf fate n)).length > 0 then
        ⟨parentCalls f n, some (poolSamples b (recordsOf fate n)), 0,
          (statsCompute rand (poolSamples b (recordsOf fate n)) stats).2⟩
      else ⟨parentCalls f n, none, 0, .zeroed α⟩ := by
  have loop : (forkLoop f n 0 []).1 = true := forkLoop_started.mpr works.pipe
  have collected : collectResults f fate n = (recordsOf fate n, false) := by
    refine Prod.ext (List.map_congr_left fun i member => ?_) ?_
    · simp [receive, works.fork i (List.mem_range.mp member)]
    · simp only [collectResults, List.any_eq_false, List.mem_range, Bool.not_eq_true, readFailed_iff]
      exact fun i lt => ⟨works.fork i lt, delivered i lt⟩
  simp [harnessRunParallel, works.malloc, works.calloc, loop, collected]

theorem parallel_success {b : Benchmark α} {n : Nat} {f : Faults} {fate : Nat → ChildFate (ChildResult α)}
    {stats : BenchmarkStats α} {rand : Nat → Nat} (success : (harnessRunParallel b n f fate stats rand).ret = 0) :
    Works f n ∧ ∀ i, i < n → Delivered (fate i) := by
  unfold harnessRunParallel at success
  dsimp only at success
  split at success
  · cases success
  · rename_i started
    split at success
    · cases success
    · rename_i read
      push Not at started
      simp only [collectResults, List.any_eq_true, not_exists, not_and, Bool.not_eq_true, List.mem_range,
        readFailed_iff] at read
      exact ⟨⟨by simpa using started.1, by simpa using started.2.2,
        forkLoop_started.mp (by simpa using started.2.1), fun i lt => (read i lt).1⟩, fun i lt => (read i lt).2⟩

theorem pooled_success {b : Benchmark α} {n : Nat} {f : Faults} {fate : Nat → ChildFate (ChildResult α)}
    {stats : BenchmarkStats α} {rand : Nat → Nat} {samples : List α}
    (pooled : (harnessRunParallel b n f fate stats rand).pooled = some samples) :
    (harnessRunParallel b n f fate stats rand).ret = 0 := by
  unfold harnessRunParallel at pooled ⊢
  dsimp only at pooled ⊢
  split_ifs at pooled ⊢
  rfl

theorem parallel_failed {b : Benchmark α} {n : Nat} {f : Faults} {fate : Nat → ChildFate (ChildResult α)}
    {stats : BenchmarkStats α} {rand : Nat → Nat} (failed : (harnessRunParallel b n f fate stats rand).ret ≠ 0) :
    (harnessRunParallel b n f fate stats rand).stats = stats := by
  unfold harnessRunParallel at failed ⊢
  dsimp only at failed ⊢
  split
  · rfl
  · rename_i started
    rw [if_neg started] at failed
    split
    · rfl
    · rename_i read
      rw [if_neg read] at failed
      split at failed <;> exact absurd rfl failed

/- The record a child sends: the initializer zeroes it, the run fills it. -/
def childResult (b : Benchmark α) (e : Behaviour α) : ChildResult α :=
  let run := runBenchmarkInstance b e
  ⟨run.ret, run.iterOut.getD 0, Vector.ofFn (fun k => run.values.getD k 0)⟩

end ServMark
