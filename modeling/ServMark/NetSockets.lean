import Mathlib.Tactic

/-! net_conn_rate.c and net_zero_copy.c: the listening socket and the worker thread through warmup
and the measure calls that run_benchmark_instance makes, none of them after one that fails. -/
namespace ServMark

def numConns : Nat := 10000

/-- Whether the socket in listen_fd listens, and the threads that were created and not joined. -/
structure NetState where
  listening : Bool
  unjoined : Nat
  deriving DecidableEq

/-- A call of measure: the state it starts from, the state it leaves and what it returns. -/
structure NetCall where
  before : NetState
  after : NetState
  ret : Int
  deriving DecidableEq

def NetState.createWorker (s : NetState) : NetState := { s with unjoined := s.unjoined + 1 }

def NetState.joinWorker (s : NetState) : NetState := { s with unjoined := s.unjoined - 1 }

/-- shutdown(s->listen_fd, SHUT_RD). -/
def NetState.shutdownListen (s : NetState) : NetState := { s with listening := false }

/-- A new socket, bound to the port and listening, in listen_fd. -/
def NetState.listenAgain (s : NetState) : NetState := { s with listening := true }

/-- What connect returns. -/
def NetState.connect (s : NetState) : Int := if s.listening then 0 else -1

/-- The connects of nc_measure, with the number that succeeded. -/
def connectLoop (s : NetState) : Nat → Nat → Nat
  | 0, actual => actual
  | n + 1, actual => connectLoop s n (if s.connect = 0 then actual + 1 else actual)

def netInit : NetState := ⟨true, 0⟩

/-- What both kinds of warmup do, whatever their connects return. -/
def netWarmup (s : NetState) : NetState := s.createWorker.shutdownListen.joinWorker.listenAgain

def ncWarmup (s : NetState) : NetState := netWarmup s

def zcWarmup (s : NetState) : NetState := netWarmup s

/-- nc_measure. The acceptor takes so many of the connections before the shutdown makes accept fail. -/
def ncMeasure (takes : Nat) (s : NetState) : NetState × Int :=
  let worker := s.createWorker
  let actual := connectLoop worker numConns 0
  let ac := min takes actual
  (worker.shutdownListen.joinWorker, if 100 * ac ≥ 95 * numConns then 0 else -1)

/-- zc_measure, with whether its open of the source file succeeds. -/
def zcMeasure (opens : Bool) (s : NetState) : NetState × Int :=
  let worker := s.createWorker
  if worker.connect < 0 then (worker, -1)
  else if ¬ opens then (worker, -1)
  else (worker.shutdownListen.joinWorker, 0)

/-- At most so many calls of measure, from the one with this number on. -/
def netMeasures (measure : Nat → NetState → NetState × Int) : Nat → Nat → NetState → List NetCall
  | 0, _, _ => []
  | k + 1, j, s =>
    ⟨s, (measure j s).1, (measure j s).2⟩ ::
      if (measure j s).2 = 0 then netMeasures measure k (j + 1) (measure j s).1 else []

/-- init, warmup and measure repeated k times. -/
def ncRun (takes : Nat → Nat) (k : Nat) : List NetCall :=
  netMeasures (fun j => ncMeasure (takes j)) k 0 (ncWarmup netInit)

def zcRun (opens : Nat → Bool) (k : Nat) : List NetCall :=
  netMeasures (fun j => zcMeasure (opens j)) k 0 (zcWarmup netInit)

/-- Every call starts with a socket that listens and returns with its worker joined. -/
def Repeatable (calls : List NetCall) : Prop :=
  ∀ call ∈ calls, call.before.listening = true ∧ call.after.unjoined = call.before.unjoined

theorem connectLoop_all {s : NetState} (listening : s.listening = true) (n actual : Nat) :
    connectLoop s n actual = actual + n := by
  have succeeds : s.connect = 0 := by rw [NetState.connect, if_pos listening]
  induction n generalizing actual with
  | zero => rfl
  | succ n ih =>
    simp only [connectLoop, if_pos succeeds, ih]
    omega

/-- Where a call that succeeds leaves the socket shut down, nothing goes on as it began. -/
theorem repeatable_iff {measure : Nat → NetState → NetState × Int} {j : Nat} {s : NetState}
    (listens : s.listening = true) (shuts : (measure j s).2 = 0 → (measure j s).1.listening = false) (k : Nat) :
    Repeatable (netMeasures measure (k + 1) j s) ↔
      (measure j s).1.unjoined = s.unjoined ∧ (k = 0 ∨ (measure j s).2 ≠ 0) := by
  simp only [Repeatable, netMeasures, List.forall_mem_cons]
  constructor
  · rintro ⟨⟨_, joined⟩, rest⟩
    refine ⟨joined, ?_⟩
    by_contra both
    obtain ⟨more, succeeds⟩ := not_or.mp both
    obtain ⟨m, rfl⟩ : ∃ m, k = m + 1 := ⟨k - 1, by omega⟩
    have succeeds : (measure j s).2 = 0 := not_not.mp succeeds
    simp only [succeeds, if_true, netMeasures, List.forall_mem_cons] at rest
    exact absurd ((shuts succeeds).symm.trans rest.1.1) Bool.false_ne_true
  · rintro ⟨joined, ends⟩
    refine ⟨⟨listens, joined⟩, fun call member => ?_⟩
    rcases ends with rfl | fails
    · simp only [netMeasures, ite_self, List.not_mem_nil] at member
    · simp only [fails, if_false, List.not_mem_nil] at member

theorem ncMeasure_first (takes : Nat) : ncMeasure takes (ncWarmup netInit) =
    (⟨false, 0⟩, if 100 * min takes numConns ≥ 95 * numConns then 0 else -1) := by
  have listening : (ncWarmup netInit).createWorker.listening = true := rfl
  simp only [ncMeasure, connectLoop_all listening, Nat.zero_add]
  rfl

theorem ncRun_repeatable_iff (takes : Nat → Nat) (k : Nat) (calls : 1 ≤ k) :
    Repeatable (ncRun takes k) ↔ k = 1 ∨ 100 * min (takes 0) numConns < 95 * numConns := by
  obtain ⟨k, rfl⟩ : ∃ j, k = j + 1 := ⟨k - 1, by omega⟩
  have first := ncMeasure_first (takes 0)
  have joined : (ncMeasure (takes 0) (ncWarmup netInit)).1.unjoined = (ncWarmup netInit).unjoined := by
    simp only [first]
    rfl
  rw [ncRun, repeatable_iff rfl (fun _ => by rw [first]), and_iff_right joined, first]
  split_ifs with enough
  · simp only [ne_eq, not_true, or_false]
    omega
  · have fails : (-1 : Int) ≠ 0 := by decide
    simp only [ne_eq, fails, not_false_eq_true, or_true, true_iff]
    omega

/-- The first call ends early if its file cannot be opened, and every further call if it is made. -/
theorem zcRun_repeatable_iff (opens : Nat → Bool) (k : Nat) (calls : 1 ≤ k) :
    Repeatable (zcRun opens k) ↔ k = 1 ∧ opens 0 = true := by
  obtain ⟨k, rfl⟩ : ∃ j, k = j + 1 := ⟨k - 1, by omega⟩
  cases opened : opens 0 with
  | true =>
    have first : zcMeasure (opens 0) (zcWarmup netInit) = (⟨false, 0⟩, 0) := by rw [opened]; rfl
    have joined : (zcMeasure (opens 0) (zcWarmup netInit)).1.unjoined = (zcWarmup netInit).unjoined := by
      simp only [first]
      rfl
    rw [zcRun, repeatable_iff rfl (fun _ => by rw [first]), and_iff_right joined, first]
    simp only [ne_eq, not_true, or_false, and_true]
    omega
  | false =>
    have first : zcMeasure (opens 0) (zcWarmup netInit) = (⟨true, 1⟩, -1) := by rw [opened]; rfl
    have left : (zcMeasure (opens 0) (zcWarmup netInit)).1.unjoined ≠ (zcWarmup netInit).unjoined := by
      simp only [first]
      decide
    rw [zcRun, repeatable_iff rfl (fun succeeds => by rw [first] at succeeds; cases succeeds)]
    simp only [left, false_and, Bool.false_eq_true, and_false]

/-- Repeated calls go on as they began if and only if there is one call of each: another one is
made only after a call that succeeded, and finds the socket shut down. Where the file cannot be
opened already the first call of net-zero-copy leaves its thread behind. -/
theorem net_repeatable_iff (takes : Nat → Nat) (opens : Nat → Bool) (k : Nat) (calls : 1 ≤ k) :
    (Repeatable (ncRun takes k) ↔ k = 1 ∨ 100 * min (takes 0) numConns < 95 * numConns) ∧
      (Repeatable (zcRun opens k) ↔ k = 1 ∧ opens 0 = true) :=
  ⟨ncRun_repeatable_iff takes k calls, zcRun_repeatable_iff opens k calls⟩

/-- One call of each; the acceptor takes all connections and the file is there. -/
theorem single_calls_repeatable : Repeatable (ncRun (fun _ => numConns) 1) ∧ Repeatable (zcRun (fun _ => true) 1) :=
  have iff := net_repeatable_iff (fun _ => numConns) (fun _ => true) 1 (Nat.le_refl 1)
  ⟨iff.1.mpr (Or.inl rfl), iff.2.mpr ⟨rfl, rfl⟩⟩

/-- Two calls of each: the second one of net-zero-copy is refused and does not join its thread. -/
theorem second_calls_refused : ¬ Repeatable (ncRun (fun _ => numConns) 2) ∧ ¬ Repeatable (zcRun (fun _ => true) 2) ∧
    (⟨⟨false, 0⟩, ⟨false, 1⟩, -1⟩ : NetCall) ∈ zcRun (fun _ => true) 2 := by
  refine ⟨fun all => ?_, fun all => ?_, by decide⟩
  · have one := (ncRun_repeatable_iff (fun _ => numConns) 2 (by decide)).mp all
    simp only [Nat.min_self] at one
    exact absurd one (by decide)
  · have one := (zcRun_repeatable_iff (fun _ => true) 2 (by decide)).mp all
    exact absurd one.1 (by decide)

end ServMark
