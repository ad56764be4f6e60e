import ServMark.Parallel

/-! What harness_run_parallel leaves behind when it returns: children nobody has waited
for, and pipe descriptors closed once, never or twice. -/
namespace ServMark

/-- One call and the list of children that are forked and not waited for. waitpid(-1) reaps
any one of them, or none of them when the process has other children. -/
def ReapStep (call : OsCall) (alive next : List Nat) : Prop :=
  match call with
  | .fork i => next = i :: alive
  | .waitpid (some i) => next = alive.filter (· ≠ i)
  | .waitpid none => ∃ i, next = alive.filter (· ≠ i)
  | _ => next = alive

/-- Nothing is left over: whatever waitpid(-1) picked, every child has been waited for, and
both ends of every pipe have been closed exactly once. -/
structure Released (calls : List OsCall) : Prop where
  reaped : ∀ left, Transition.Run ReapStep calls [] left → left = []
  closed : ∀ i, .pipe i ∈ calls → calls.count (.closeRead i) = 1 ∧ calls.count (.closeWrite i) = 1

theorem reapStep_origin {call : OsCall} {alive next : List Nat} (step : ReapStep call alive next) {p : Nat}
    (member : p ∈ next) : p ∈ alive ∨ call = .fork p := by
  unfold ReapStep at step
  split at step
  · subst step
    rcases List.mem_cons.mp member with rfl | older
    · exact Or.inr rfl
    · exact Or.inl older
  · subst step
    exact Or.inl (List.mem_of_mem_filter member)
  · obtain ⟨i, rfl⟩ := step
    exact Or.inl (List.mem_of_mem_filter member)
  · exact Or.inl (step ▸ member)

theorem reaped_origin {calls : List OsCall} {alive left : List Nat} (run : Transition.Run ReapStep calls alive left)
    {p : Nat} (member : p ∈ left) : p ∈ alive ∨ .fork p ∈ calls := by
  induction run with
  | nil => exact Or.inl member
  | cons first tail ih =>
    rcases ih member with h | h
    · rcases reapStep_origin first h with h | rfl
      · exact Or.inl h
      · exact Or.inr List.mem_cons_self
    · exact Or.inr (List.mem_cons_of_mem _ h)

/-- Waiting for a child by its pid, with no fork of it afterwards, leaves it reaped. -/
theorem reaped_waited {calls : List OsCall} {alive left : List Nat}
    (run : Transition.Run ReapStep calls alive left) {p : Nat} (waited : .waitpid (some p) ∈ calls)
    (unforked : .fork p ∉ calls) : p ∉ left := by
  induction run with
  | nil => cases waited
  | @cons call rest alive next left first tail ih =>
    have later : .fork p ∉ rest := fun h => unforked (List.mem_cons_of_mem _ h)
    rcases List.mem_cons.mp waited with rfl | waited
    · intro member
      have gone : p ∉ next := by
        have eq : next = alive.filter (· ≠ p) := first
        simp [eq]
      exact (reaped_origin tail member).elim gone later
    · exact ih waited later

theorem reaped_all {forks waits : List OsCall} {left : List Nat}
    (run : Transition.Run ReapStep (forks ++ waits) [] left)
    (all : ∀ p, .fork p ∈ forks → .waitpid (some p) ∈ waits) (none : ∀ p, .fork p ∉ waits) : left = [] := by
  obtain ⟨between, before, after⟩ := run.split
  apply List.eq_nil_iff_forall_not_mem.mpr
  intro p member
  have forked : .fork p ∈ forks := by
    rcases reaped_origin after member with h | h
    · exact (reaped_origin before h).resolve_left List.not_mem_nil
    · exact absurd h (none p)
  exact reaped_waited after (all p forked) (none p) member

theorem count_rounds (rounds : Nat → List OsCall) (call : OsCall) (i c : Nat)
    (own : (rounds i).count call = c) (others : ∀ j, j ≠ i → (rounds j).count call = 0) (n : Nat) :
    ((List.range n).flatMap rounds).count call = if i < n then c else 0 := by
  induction n with
  | zero => rfl
  | succ n ih =>
    rw [List.range_succ, List.flatMap_append, List.count_append, ih, List.flatMap_singleton]
    by_cases eq : n = i
    · subst eq
      simp [own]
    · rw [others n eq]
      split <;> split <;> omega

theorem pipe_mem_spawned (f : Faults) {i n : Nat} : .pipe i ∈ spawned f n ↔ i < n := by
  simp only [spawned, List.mem_flatMap, List.mem_range, spawnCalls]
  constructor
  · rintro ⟨j, lt, member⟩
    cases f.fork j <;> simp_all
  · intro lt
    exact ⟨i, lt, by simp⟩

theorem fork_mem_spawned {f : Faults} {p n : Nat} (member : .fork p ∈ spawned f n) :
    p < n ∧ f.fork p = false := by
  simp only [spawned, List.mem_flatMap, List.mem_range, spawnCalls] at member
  obtain ⟨j, lt, member⟩ := member
  cases forks : f.fork j <;> simp [forks] at member
  subst member
  exact ⟨lt, forks⟩

theorem closeRead_spawned (f : Faults) (i n : Nat) : (spawned f n).count (.closeRead i) = 0 := by
  apply List.count_eq_zero.mpr
  simp only [spawned, List.mem_flatMap, spawnCalls]
  rintro ⟨j, _, member⟩
  cases f.fork j <;> simp_all

theorem closeWrite_spawned (f : Faults) (i n : Nat) :
    (spawned f n).count (.closeWrite i) = if i < n then 1 else 0 := by
  apply count_rounds
  · cases forks : f.fork i <;> simp [spawnCalls, forks]
  · intro j ne
    cases forks : f.fork j <;> simp [spawnCalls, forks, ne]

/-- What a round of either last loop does for its instance, and for no other. -/
structure Settles (f : Faults) (round : Nat → List OsCall) : Prop where
  closes : ∀ i, (round i).count (.closeRead i) = 1
  others : ∀ i j, j ≠ i → (round j).count (.closeRead i) = 0
  writes : ∀ i j, (round j).count (.closeWrite i) = 0
  waits : ∀ i, .waitpid (pidOf f i) ∈ round i
  forks : ∀ i j, .fork i ∉ round j
  pipes : ∀ i j, .pipe i ∉ round j

theorem collect_settles (f : Faults) : Settles f (fun i => [.waitpid (pidOf f i), .closeRead i]) := by
  refine ⟨by simp, fun i j ne => ?_, by simp, by simp, by simp, by simp⟩
  simp [ne]

theorem abandon_settles (f : Faults) :
    Settles f (fun i => [.closeRead i, .kill (pidOf f i), .waitpid (pidOf f i)]) := by
  refine ⟨by simp, fun i j ne => ?_, by simp, by simp, by simp, by simp⟩
  simp [ne]

theorem released_settled {f : Faults} {round : Nat → List OsCall} (settles : Settles f round) (n : Nat) :
    Released (spawned f n ++ (List.range n).flatMap round) := by
  constructor
  · intro left run
    apply reaped_all run
    · intro p forked
      obtain ⟨lt, ok⟩ := fork_mem_spawned forked
      have waits := settles.waits p
      rw [pidOf, if_neg (by simp [ok])] at waits
      exact List.mem_flatMap.mpr ⟨p, List.mem_range.mpr lt, waits⟩
    · intro p member
      obtain ⟨j, _, member⟩ := List.mem_flatMap.mp member
      exact settles.forks p j member
  · intro i member
    have lt : i < n := by
      rcases List.mem_append.mp member with h | h
      · exact (pipe_mem_spawned f).mp h
      · obtain ⟨j, _, h⟩ := List.mem_flatMap.mp h
        exact absurd h (settles.pipes i j)
    rw [List.count_append, List.count_append, closeRead_spawned, closeWrite_spawned,
      count_rounds round _ i 1 (settles.closes i) (settles.others i),
      count_rounds round _ i 0 (settles.writes i i) (fun j _ => settles.writes i j)]
    simp [lt]

theorem released_nil : Released [] := by
  refine ⟨fun left run => ?_, fun i member => ?_⟩
  · cases run
    rfl
  · cases member

/- The clean-up after a failed pipe() closes the write end of pipe 0 a second time. -/
theorem cleanup_closes_twice (f : Faults) {k : Nat} (positive : 0 < k) :
    ¬ Released (spawned f k ++ pipeCleanup k) := by
  intro released
  have member : OsCall.pipe 0 ∈ spawned f k ++ pipeCleanup k :=
    List.mem_append_left _ ((pipe_mem_spawned f).mpr positive)
  have once := (released.closed 0 member).2
  have again : (pipeCleanup k).count (.closeWrite 0) = if 0 < k then 1 else 0 :=
    count_rounds _ _ 0 1 (by simp) (fun j ne => by simp [ne]) k
  rw [List.count_append, closeWrite_spawned, again, if_pos positive] at once
  omega

section Runner
variable {α : Type} [Field α] [LinearOrder α] [Libm α]

/-- Everything is released on every way out except one: a pipe() that fails after an
earlier instance has been started. -/
theorem parallel_released_iff (b : Benchmark α) (n : Nat) (f : Faults)
    (fate : Nat → ChildFate (ChildResult α)) (stats : BenchmarkStats α) (rand : Nat → Nat) :
    Released (harnessRunParallel b n f fate stats rand).calls ↔
      f.malloc = true ∨ f.pipe 0 = true ∨ ∀ i, i < n → f.pipe i = false := by
  rw [parallel_calls, parentCalls]
  cases malloc : f.malloc with
  | true => simp [released_nil]
  | false =>
    rcases forkLoop_cases f n with ⟨works, loop⟩ | ⟨k, lt, fails, earlier, loop⟩
    · rw [loop]
      have released : ∀ c : Bool, Released (if c then spawned f n ++ abandonCalls f n
          else spawned f n ++ collectCalls f n) := by
        intro c
        cases c
        · exact released_settled (collect_settles f) n
        · exact released_settled (abandon_settles f) n
      exact iff_of_true (released f.calloc) (Or.inr (Or.inr works))
    · rw [loop]
      rcases Nat.eq_zero_or_pos k with rfl | positive
      · exact iff_of_true released_nil (Or.inr (Or.inl fails))
      · refine iff_of_false (cleanup_closes_twice f positive) ?_
        rintro (absent | first | works)
        · cases absent
        · rw [earlier 0 positive] at first
          cases first
        · rw [works k lt] at fails
          cases fails

/- Two instances, the second pipe() fails: child 0 keeps running. -/
theorem second_pipe_fails :
    ¬ Released (harnessRunParallel (plainBenchmark ℝ) 2 { noFaults with pipe := fun i => i == 1 }
      (fun _ => .diesBefore) (.zeroed ℝ) (fun _ => 0)).calls := by
  have calls : parentCalls { noFaults with pipe := fun i => i == 1 } 2 =
      [.pipe 0, .fork 0, .closeWrite 0, .closeRead 0, .closeWrite 0] := by decide
  rw [parallel_calls, calls]
  intro released
  have run : Transition.Run ReapStep
      [.pipe 0, .fork 0, .closeWrite 0, .closeRead 0, .closeWrite 0] [] [0] :=
    .cons rfl (.cons rfl (.cons rfl (.cons rfl (.cons rfl (.nil _)))))
  exact absurd (released.reaped [0] run) (by decide)

end Runner

end ServMark
