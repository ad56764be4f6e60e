import ServMark.Library.Locking

/-! sync_mutex.c and sync_rwlock.c: threads that count under a lock. Each call on the lock, each
addition and each access to the flag is a step of its own. -/
namespace ServMark
open ForkJoin Locking Transition

def mutexOpsPerThread : Nat := 200000

def warmupTurns : Nat := 10000

section Calls
variable {n : Nat} {σ : Type}

/-- A loop of the warm-up, which locks, acts and unlocks in the thread that measures; none where that hangs. -/
def lockWarmup (act : σ → σ) : Nat → Guarded σ → Option (Guarded σ)
  | 0, s => some s
  | turns + 1, s =>
    match s.lock.acquire .exclusive with
    | none => none
    | some lock => lockWarmup act turns { s with lock := lock.release, data := act s.data }

/-- One call of measure, which stores zero in the counters and the flag first. -/
def lockMeasure (m : Loop n σ) (zero : σ) (s : Guarded σ) : Machine (Option (Fin n)) (Team n Phase (Guarded σ)) :=
  m.program.team { s with ready := false, data := zero }

/-- What init and calls of warmup and measure in any order leave. -/
inductive LockCalls (m : Loop n σ) (zero : σ) (act : σ → σ) : Guarded σ → Prop
  | init : LockCalls m zero act ⟨false, ⟨0, false⟩, zero⟩
  | warmup {s t : Guarded σ} (before : LockCalls m zero act s) (ran : lockWarmup act warmupTurns s = some t) :
      LockCalls m zero act t
  | measure {s : Guarded σ} {t : Team n Phase (Guarded σ)} (before : LockCalls m zero act s)
      (ran : (lockMeasure m zero s).system.Reachable t) (joined : t.leader = .joined) :
      LockCalls m zero act t.shared

theorem warmup_free {act : σ → σ} {turns : Nat} {s : Guarded σ} (free : s.lock = ⟨0, false⟩) :
    lockWarmup act turns s = some { s with data := act^[turns] s.data } := by
  induction turns generalizing s with
  | zero => rfl
  | succ turns ih =>
    have taken : s.lock.acquire .exclusive = some ⟨0, true⟩ := by rw [free]; rfl
    simp only [lockWarmup, taken]
    rw [ih rfl]
    simp only [Lock.release, if_true, free, Function.iterate_succ_apply]

/-- The calls leave the lock free, so that measure starts from the state the library knows. -/
theorem calls_free {m : Loop n σ} {zero : σ} {act : σ → σ} {s : Guarded σ} (calls : LockCalls m zero act s) :
    s.lock = ⟨0, false⟩ := by
  induction calls with
  | init => rfl
  | warmup before ran ih =>
    rw [warmup_free ih] at ran
    cases ran
    exact ih
  | @measure s t before ran joined ih =>
    have start : ({ s with ready := false, data := zero } : Guarded σ) = ⟨false, ⟨0, false⟩, zero⟩ := by rw [ih]
    rw [lockMeasure, start] at ran
    exact (team_held ran).free (joined_ended (team_formed ran) joined)

theorem measure_start {m : Loop n σ} {zero : σ} {act : σ → σ} {s : Guarded σ} (calls : LockCalls m zero act s) :
    lockMeasure m zero s = m.program.team ⟨false, ⟨0, false⟩, zero⟩ := by
  rw [lockMeasure, calls_free calls]

end Calls

/-- A thread between the calls that lock and unlock. -/
def UnderLock {n : Nat} {σ : Type} (t : Team n Phase (Guarded σ)) (w : Fin n) : Prop :=
  ∃ x, t.workers w = some x ∧ x.holds = true

theorem measure_ends {n : Nat} {σ : Type} {m : Loop n σ} {zero : σ} {act : σ → σ} {s : Guarded σ}
    (calls : LockCalls m zero act s) : (lockMeasure m zero s).system.Ends (fun t => t.leader = .joined)
      (2 * n + 2 + ∑ w, (3 * m.rounds w + 2)) := by
  rw [measure_start calls]
  exact (loop_finishing m zero).ends

/- sync_mutex.c. -/

/-- mutex_worker. -/
def mutexWorker (n : Nat) : Loop n Nat where
  mode _ := .exclusive
  rounds _ := mutexOpsPerThread
  act _ counter := counter + 1

/-- What the calls of the benchmark leave, with the counter. -/
def MutexCalls (n : Nat) : Guarded Nat → Prop := LockCalls (mutexWorker n) 0 (fun counter => counter + 1)

def syncMutexMeasure (n : Nat) (s : Guarded Nat) : Machine (Option (Fin n)) (Team n Phase (Guarded Nat)) :=
  lockMeasure (mutexWorker n) 0 s

/-- In every call of measure one thread at most is under the mutex, and at the end the counter holds what all
threads together had to do. -/
theorem mutex_counts {n : Nat} {s : Guarded Nat} (calls : MutexCalls n s) :
    (∀ t, (syncMutexMeasure n s).system.Reachable t →
      (∀ v w, UnderLock t v → UnderLock t w → v = w) ∧
      (t.leader = .joined → t.shared.data = n * mutexOpsPerThread ∧ MutexCalls n t.shared)) ∧
    (syncMutexMeasure n s).system.Ends (fun t => t.leader = .joined) (2 * n + 2 + n * (3 * mutexOpsPerThread + 2)) := by
  refine ⟨fun t reachable => ⟨fun v w under_v under_w => ?_, fun joined => ⟨?_, ?_⟩⟩, ?_⟩
  · by_contra apart
    obtain ⟨x, at_v, holds_v⟩ := under_v
    obtain ⟨y, at_w, holds_w⟩ := under_w
    rw [syncMutexMeasure, measure_start calls] at reachable
    have shared := (team_held reachable).exclusive apart at_v at_w holds_v holds_w
    cases shared
  · rw [syncMutexMeasure, measure_start calls] at reachable
    have adds : ∀ (w : Fin n) (d : Nat), id ((mutexWorker n).act w d) = id d + (fun _ => 1) w := fun _ _ => rfl
    have total := joined_counted adds reachable (joined_ended (team_formed reachable) joined)
    simpa only [id_eq, Nat.one_mul, mutexWorker, Finset.sum_const, Finset.card_univ, Fintype.card_fin, smul_eq_mul,
      Nat.zero_add] using total
  · exact .measure calls reachable joined
  · have ends := measure_ends calls
    have sum : ∑ w, (3 * (mutexWorker n).rounds w + 2) = n * (3 * mutexOpsPerThread + 2) := by
      simp only [mutexWorker, Finset.sum_const, Finset.card_univ, Fintype.card_fin, smul_eq_mul]
    rwa [sum] at ends

/-- Two threads on a machine with one CPU. -/
theorem mutex_counts_pair : ∃ t, (syncMutexMeasure 2 ⟨false, ⟨0, false⟩, 0⟩).system.Reachable t ∧
    t.leader = .joined ∧ t.shared.data = 400000 := by
  have counts := mutex_counts (n := 2) .init
  obtain ⟨t, run, joined⟩ := counts.2.ends _ .refl
  exact ⟨t, run, joined, ((counts.1 t run).2 joined).1⟩

/- sync_rwlock.c. -/

end ServMark
