import ServMark.Library.Transition

/-! cswitch_futex.c: the loop of cswitch_futex_measure and futex_thread hand a word to each other
through a futex. Each store and each call of the futex is a step of its own. -/
namespace ServMark
open Transition

/-- SWITCHES. -/
def futexSwitches : Nat := 1000000

inductive FutexSide where
  | main | thread
  deriving DecidableEq

/-- Where cswitch_futex_measure stands behind pthread_create, with the number of its round. -/
inductive MainPhase where
  | spinning
  | storing (i : Nat)
  | waking (i : Nat)
  | waiting (i : Nat)
  | asleep (i : Nat)
  | joining
  | joined
  deriving DecidableEq

/- Where futex_thread stands. -/
inductive ThreadPhase where
  | created
  | waiting (j : Nat)
  | asleep (j : Nat)
  | storing (j : Nat)
  | waking (j : Nat)
  | counting (j : Nat)
  | finished
  deriving DecidableEq

structure FutexSwitch where
  futexWord : Nat
  ready : Bool
  switches : Nat
  main : MainPhase
  thread : ThreadPhase
  deriving DecidableEq

/-- The test of the loop of cswitch_futex_measure, for so many rounds. -/
def mainRound (n i : Nat) : MainPhase := if i < n then .storing i else .joining

def threadRound (n j : Nat) : ThreadPhase := if j < n then .waiting j else .finished

/-- FUTEX_WAKE as the main thread calls it: a thread that sleeps goes on behind its FUTEX_WAIT. -/
def wakeThread (thread : ThreadPhase) : ThreadPhase :=
  match thread with
  | .asleep j => .storing j
  | other => other

def wakeMain (n : Nat) (main : MainPhase) : MainPhase :=
  match main with
  | .asleep i => mainRound n (i + 1)
  | other => other

/-- FUTEX_WAIT sleeps if the word is the one it is given. -/
def mainStep (n : Nat) (s : FutexSwitch) : Option FutexSwitch :=
  match s.main with
  | .spinning => if s.ready then some { s with main := mainRound n 0 } else some s
  | .storing i => some { s with futexWord := 1, main := .waking i }
  | .waking i => some { s with thread := wakeThread s.thread, main := .waiting i }
  | .waiting i =>
    if s.futexWord = 1 then some { s with main := .asleep i } else some { s with main := mainRound n (i + 1) }
  | .asleep _ => none
  | .joining => if s.thread = .finished then some { s with main := .joined } else none
  | .joined => none

def threadStep (n : Nat) (s : FutexSwitch) : Option FutexSwitch :=
  match s.thread with
  | .created => some { s with ready := true, thread := threadRound n 0 }
  | .waiting j =>
    if s.futexWord = 0 then some { s with thread := .asleep j } else some { s with thread := .storing j }
  | .asleep _ => none
  | .storing j => some { s with futexWord := 0, thread := .waking j }
  | .waking j => some { s with main := wakeMain n s.main, thread := .counting j }
  | .counting j => some { s with switches := s.switches + 2, thread := threadRound n (j + 1) }
  | .finished => none

/-- One call of cswitch_futex_measure with n rounds, from the creation of the thread on. -/
def futexSwitch (n : Nat) : Machine FutexSide FutexSwitch where
  start := ⟨0, false, 0, .spinning, .created⟩
  step
    | .main => mainStep n
    | .thread => threadStep n

/-- One thread sleeps on the futex and the other one sleeps as well or has done all its rounds. -/
def FutexSwitch.Hung (s : FutexSwitch) : Prop :=
  (∃ i, s.main = .asleep i ∧ (s.thread = .finished ∨ ∃ j, s.thread = .asleep j)) ∨
    ∃ j, s.thread = .asleep j ∧ (s.main = .joining ∨ s.main = .joined)

/-- A FUTEX_WAKE that finds the other thread asleep finds it in the caller's own round, or finds the
main thread in its last one. -/
def WakesOwn (n : Nat) (side : FutexSide) (s : FutexSwitch) : Prop :=
  match side with
  | .main => ∀ i j, s.main = .waking i → s.thread = .asleep j → j = i
  | .thread => ∀ i j, s.thread = .waking j → s.main = .asleep i → i = j ∨ i + 1 = n

namespace ThreadPhase

/-- At the wait of this round or asleep in it; the thread is finished if there is no such round. -/
def Opens (n i : Nat) (t : ThreadPhase) : Prop := t = threadRound n i ∨ i < n ∧ t = .asleep i

/-- Not asleep, with the store of this round still to come. -/
def Enters (i : Nat) (t : ThreadPhase) : Prop := t = .waiting i ∨ t = .storing i

/-- Behind the store of the round before this one. -/
def Closes (i : Nat) (t : ThreadPhase) : Prop := ∃ j, i = j + 1 ∧ (t = .waking j ∨ t = .counting j)

/-- In the last round, or about to begin it, after the main thread was woken out of its last one. -/
def Trails (n : Nat) (t : ThreadPhase) : Prop := ∃ i, n = i + 1 ∧ (t.Enters i ∨ ∃ j, i = j + 1 ∧ t = .counting j)

end ThreadPhase

/-- The rounds of the two threads differ by at most one, and the word tells which of them stored last. -/
def InStep (n : Nat) (s : FutexSwitch) : Prop :=
  match s.main with
  | .spinning => s.futexWord = 0 ∧ (s.thread = .created ∧ s.ready = false ∨ s.thread.Opens n 0)
  | .storing i => i < n ∧ s.futexWord = 0 ∧ (s.thread.Opens n i ∨ s.thread.Closes i)
  | .waking i => i < n ∧ (s.futexWord = 1 ∧ (s.thread.Enters i ∨ s.thread = .asleep i ∨ s.thread.Closes i) ∨
      s.futexWord = 0 ∧ (s.thread.Closes (i + 1) ∨ s.thread.Opens n (i + 1)))
  | .waiting i => i < n ∧ (s.futexWord = 1 ∧ (s.thread.Enters i ∨ s.thread.Closes i) ∨
      s.futexWord = 0 ∧ (s.thread.Closes (i + 1) ∨ s.thread.Opens n (i + 1)))
  | .asleep i => i < n ∧ (s.futexWord = 1 ∧ (s.thread.Enters i ∨ s.thread.Closes i) ∨
      s.futexWord = 0 ∧ s.thread = .waking i)
  | .joining => s.futexWord = 0 ∧ (s.thread = .finished ∨ s.thread.Closes n) ∨ s.futexWord = 1 ∧ s.thread.Trails n
  | .joined => s.thread = .finished

section Preserved
variable {n : Nat} {s t : FutexSwitch}

theorem opens_last {t : ThreadPhase} (opens : t.Opens n n) : t = .finished := by
  rcases opens with same | ⟨below, _⟩
  · exact same.trans (if_neg (Nat.lt_irrefl n))
  · exact absurd below (Nat.lt_irrefl n)

theorem inStep_round {i : Nat} (within : i ≤ n) (word : s.futexWord = 0)
    (near : s.thread.Opens n i ∨ s.thread.Closes i) : InStep n { s with main := mainRound n i } := by
  unfold InStep mainRound
  split_ifs with below
  · exact ⟨below, word, near⟩
  · obtain rfl : i = n := by omega
    exact Or.inl ⟨word, near.imp opens_last id⟩

/-- A thread that can be woken is asleep, and is woken in its own round. -/
theorem wake_others {t : ThreadPhase} (awake : ∀ j, t ≠ .asleep j) : wakeThread t = t := by
  unfold wakeThread
  split
  · exact absurd rfl (awake _)
  · rfl

theorem enters_awake {i : Nat} {t : ThreadPhase} (enters : t.Enters i) (j : Nat) : t ≠ .asleep j := by
  rintro rfl
  rcases enters with eq | eq
  · cases eq
  · cases eq

theorem closes_awake {i : Nat} {t : ThreadPhase} (closes : t.Closes i) (j : Nat) : t ≠ .asleep j := by
  rintro rfl
  obtain ⟨_, _, eq | eq⟩ := closes
  · cases eq
  · cases eq

theorem opens_awake {i : Nat} {t : ThreadPhase} (opens : t.Opens n i) (awake : t ≠ .asleep i) (j : Nat) :
    t ≠ .asleep j := by
  rcases opens with eq | ⟨_, eq⟩
  · simp only [eq]
    unfold threadRound
    split_ifs
    · exact ThreadPhase.noConfusion
    · exact ThreadPhase.noConfusion
  · exact absurd eq awake

theorem inStep_main (inv : InStep n s) (guard : WakesOwn n .main s) (step : mainStep n s = some t) : InStep n t := by
  unfold mainStep at step
  unfold InStep at inv
  cases phase : s.main with
  | spinning =>
    simp only [phase] at step inv
    split_ifs at step with ready
    · obtain rfl := Option.some.inj step
      obtain ⟨word, ⟨_, unset⟩ | opens⟩ := inv
      · exact absurd (unset.symm.trans ready) Bool.false_ne_true
      · exact inStep_round (Nat.zero_le n) word (Or.inl opens)
    · obtain rfl := Option.some.inj step
      simp only [InStep, phase]
      exact inv
  | storing i =>
    simp only [phase] at step inv
    obtain rfl := Option.some.inj step
    obtain ⟨below, _, opens | closes⟩ := inv
    · rcases opens with waits | ⟨_, asleep⟩
      · simp only [threadRound, if_pos below] at waits
        exact ⟨below, Or.inl ⟨rfl, Or.inl (Or.inl waits)⟩⟩
      · exact ⟨below, Or.inl ⟨rfl, Or.inr (Or.inl asleep)⟩⟩
    · exact ⟨below, Or.inl ⟨rfl, Or.inr (Or.inr closes)⟩⟩
  | waking i =>
    simp only [phase] at step inv
    obtain rfl := Option.some.inj step
    obtain ⟨below, ⟨word, enters | asleep | closes⟩ | ⟨word, closes | opens⟩⟩ := inv
    · refine ⟨below, Or.inl ⟨word, Or.inl ?_⟩⟩
      simpa only [wake_others (enters_awake enters)] using enters
    · refine ⟨below, Or.inl ⟨word, Or.inl (Or.inr ?_)⟩⟩
      simp only [asleep, wakeThread]
    · refine ⟨below, Or.inl ⟨word, Or.inr ?_⟩⟩
      simpa only [wake_others (closes_awake closes)] using closes
    · refine ⟨below, Or.inr ⟨word, Or.inl ?_⟩⟩
      simpa only [wake_others (closes_awake closes)] using closes
    · have awake : s.thread ≠ .asleep (i + 1) := by
        intro asleep
        have own := guard i (i + 1) phase asleep
        omega
      refine ⟨below, Or.inr ⟨word, Or.inr ?_⟩⟩
      simpa only [wake_others (opens_awake opens awake)] using opens
  | waiting i =>
    simp only [phase] at step inv
    obtain ⟨below, ⟨word, near⟩ | ⟨word, near⟩⟩ := inv
    · simp only [if_pos word] at step
      obtain rfl := Option.some.inj step
      exact ⟨below, Or.inl ⟨word, near⟩⟩
    · rw [if_neg (by rw [word]; decide)] at step
      obtain rfl := Option.some.inj step
      exact inStep_round below word near.symm
  | asleep i => simp only [phase] at step; cases step
  | joining =>
    simp only [phase] at step
    split_ifs at step with finished
    obtain rfl := Option.some.inj step
    exact finished
  | joined => simp only [phase] at step; cases step

/-- The step of futex_thread where the word is 0 and it is about to wait. -/
theorem opens_step {i : Nat} (opens : s.thread.Opens n i) (word : s.futexWord = 0) (step : threadStep n s = some t) :
    i < n ∧ t = { s with thread := .asleep i } := by
  unfold threadStep at step
  rcases opens with eq | ⟨_, eq⟩
  · unfold threadRound at eq
    split_ifs at eq with below
    · simp only [eq] at step
      simp only [if_pos word] at step
      exact ⟨below, (Option.some.inj step).symm⟩
    · simp only [eq] at step
      cases step
  · simp only [eq] at step
    cases step

theorem enters_step {i : Nat} (enters : s.thread.Enters i) (word : s.futexWord = 1) (step : threadStep n s = some t) :
    t = { s with thread := .storing i } ∨ t = { s with futexWord := 0, thread := .waking i } := by
  unfold threadStep at step
  rcases enters with eq | eq
  · simp only [eq] at step
    rw [if_neg (by rw [word]; decide)] at step
    exact Or.inl (Option.some.inj step).symm
  · simp only [eq] at step
    exact Or.inr (Option.some.inj step).symm

theorem closes_step {i : Nat} (closes : s.thread.Closes i) (step : threadStep n s = some t) :
    (∃ j, i = j + 1 ∧ s.thread = .waking j ∧ t = { s with main := wakeMain n s.main, thread := .counting j }) ∨
      t = { s with switches := s.switches + 2, thread := threadRound n i } := by
  unfold threadStep at step
  obtain ⟨j, rfl, eq | eq⟩ := closes
  · simp only [eq] at step
    exact Or.inl ⟨j, rfl, eq, (Option.some.inj step).symm⟩
  · simp only [eq] at step
    exact Or.inr (Option.some.inj step).symm

theorem threadRound_enters {i : Nat} (below : i < n) : (threadRound n i).Enters i := Or.inl (if_pos below)

/-- The main thread is awake in its round, and the word is its own. -/
theorem near_step {i : Nat} (awake : wakeMain n s.main = s.main) (below : i < n)
    (near : s.futexWord = 1 ∧ (s.thread.Enters i ∨ s.thread.Closes i) ∨
      s.futexWord = 0 ∧ (s.thread.Closes (i + 1) ∨ s.thread.Opens n (i + 1))) (step : threadStep n s = some t) :
    t.main = s.main ∧ (t.futexWord = 1 ∧ (t.thread.Enters i ∨ t.thread.Closes i) ∨
      t.futexWord = 0 ∧ (t.thread.Closes (i + 1) ∨ t.thread.Opens n (i + 1))) := by
  obtain ⟨word, enters | closes⟩ | ⟨word, closes | opens⟩ := near
  · rcases enters_step enters word step with rfl | rfl
    · exact ⟨rfl, Or.inl ⟨word, Or.inl (Or.inr rfl)⟩⟩
    · exact ⟨rfl, Or.inr ⟨rfl, Or.inl ⟨i, rfl, Or.inl rfl⟩⟩⟩
  · obtain ⟨j, same, _, rfl⟩ | rfl := closes_step closes step
    · exact ⟨awake, Or.inl ⟨word, Or.inr ⟨j, same, Or.inr rfl⟩⟩⟩
    · exact ⟨rfl, Or.inl ⟨word, Or.inl (threadRound_enters below)⟩⟩
  · obtain ⟨j, same, _, rfl⟩ | rfl := closes_step closes step
    · exact ⟨awake, Or.inr ⟨word, Or.inl ⟨j, same, Or.inr rfl⟩⟩⟩
    · exact ⟨rfl, Or.inr ⟨word, Or.inr (Or.inl rfl)⟩⟩
  · obtain ⟨later, rfl⟩ := opens_step opens word step
    exact ⟨rfl, Or.inr ⟨word, Or.inr (Or.inr ⟨later, rfl⟩)⟩⟩

theorem inStep_thread (inv : InStep n s) (guard : WakesOwn n .thread s) (step : threadStep n s = some t) :
    InStep n t := by
  unfold InStep at inv
  cases phase : s.main with
  | spinning =>
    simp only [phase] at inv
    obtain ⟨word, ⟨created, _⟩ | opens⟩ := inv
    · simp only [threadStep, created] at step
      obtain rfl := Option.some.inj step
      simp only [InStep, phase]
      exact ⟨word, Or.inr (Or.inl rfl)⟩
    · obtain ⟨below, rfl⟩ := opens_step opens word step
      simp only [InStep, phase]
      exact ⟨word, Or.inr (Or.inr ⟨below, rfl⟩)⟩
  | storing i =>
    simp only [phase] at inv
    obtain ⟨below, word, opens | closes⟩ := inv
    · obtain ⟨_, rfl⟩ := opens_step opens word step
      simp only [InStep, phase]
      exact ⟨below, word, Or.inl (Or.inr ⟨below, rfl⟩)⟩
    · obtain ⟨j, same, _, rfl⟩ | rfl := closes_step closes step
      · simp only [InStep, phase, wakeMain]
        exact ⟨below, word, Or.inr ⟨j, same, Or.inr rfl⟩⟩
      · simp only [InStep, phase]
        exact ⟨below, word, Or.inl (Or.inl rfl)⟩
  | waking i =>
    have awake : wakeMain n s.main = s.main := by rw [phase]; rfl
    simp only [phase] at inv
    have near : s.futexWord = 1 ∧ (s.thread.Enters i ∨ s.thread.Closes i) ∨
        s.futexWord = 0 ∧ (s.thread.Closes (i + 1) ∨ s.thread.Opens n (i + 1)) := by
      obtain ⟨_, ⟨word, enters | asleep | closes⟩ | later⟩ := inv
      · exact Or.inl ⟨word, Or.inl enters⟩
      · simp only [threadStep, asleep] at step
        cases step
      · exact Or.inl ⟨word, Or.inr closes⟩
      · exact Or.inr later
    obtain ⟨same, near⟩ := near_step awake inv.1 near step
    simp only [InStep, same, phase]
    exact ⟨inv.1, near.imp_left (And.imp_right (Or.imp_right Or.inr))⟩
  | waiting i =>
    have awake : wakeMain n s.main = s.main := by rw [phase]; rfl
    simp only [phase] at inv
    obtain ⟨same, near⟩ := near_step awake inv.1 inv.2 step
    simp only [InStep, same, phase]
    exact ⟨inv.1, near⟩
  | asleep i =>
    simp only [phase] at inv
    obtain ⟨below, ⟨word, enters | closes⟩ | ⟨word, waking⟩⟩ := inv
    · rcases enters_step enters word step with rfl | rfl
      · simp only [InStep, phase]
        exact ⟨below, Or.inl ⟨word, Or.inl (Or.inr rfl)⟩⟩
      · simp only [InStep, phase]
        exact ⟨below, Or.inr ⟨trivial, trivial⟩⟩
    · obtain ⟨j, same, waking, rfl⟩ | rfl := closes_step closes step
      · have last : i + 1 = n := by
          rcases guard i j waking phase with own | last
          · omega
          · exact last
        have joins : wakeMain n s.main = .joining := by
          simp only [phase, wakeMain, mainRound, last, Nat.lt_irrefl, if_false]
        simp only [InStep, joins]
        exact Or.inr ⟨word, i, last.symm, Or.inr ⟨j, same, rfl⟩⟩
      · simp only [InStep, phase]
        exact ⟨below, Or.inl ⟨word, Or.inl (threadRound_enters below)⟩⟩
    · simp only [threadStep, waking] at step
      obtain rfl := Option.some.inj step
      simp only [phase, wakeMain]
      exact inStep_round (s := { s with thread := .counting i }) below word (Or.inr ⟨i, rfl, Or.inr rfl⟩)
  | joining =>
    simp only [phase] at inv
    obtain ⟨word, finished | closes⟩ | ⟨word, i, last, enters | ⟨j, same, counting⟩⟩ := inv
    · simp only [threadStep, finished] at step
      cases step
    · obtain ⟨j, same, _, rfl⟩ | rfl := closes_step closes step
      · simp only [InStep, phase, wakeMain]
        exact Or.inl ⟨word, Or.inr ⟨j, same, Or.inr rfl⟩⟩
      · simp only [InStep, phase]
        exact Or.inl ⟨word, Or.inl (if_neg (Nat.lt_irrefl n))⟩
    · rcases enters_step enters word step with rfl | rfl
      · simp only [InStep, phase]
        exact Or.inr ⟨word, i, last, Or.inl (Or.inr rfl)⟩
      · simp only [InStep, phase]
        exact Or.inl ⟨trivial, Or.inr ⟨i, last, Or.inl rfl⟩⟩
    · simp only [threadStep, counting] at step
      obtain rfl := Option.some.inj step
      simp only [InStep, phase]
      exact Or.inr ⟨word, i, last, Or.inl (same ▸ threadRound_enters (by omega))⟩
  | joined =>
    simp only [phase] at inv
    simp only [threadStep, inv] at step
    cases step

theorem inStep_start : InStep n (futexSwitch n).start := ⟨rfl, Or.inl ⟨rfl, rfl⟩⟩

theorem inStep_reachable (reachable : ((futexSwitch n).guarded (WakesOwn n)).Reachable s) : InStep n s := by
  refine Machine.guarded_invariant (InStep n) inStep_start (fun side s t inv guard step => ?_) reachable
  cases side with
  | main => exact inStep_main inv guard step
  | thread => exact inStep_thread inv guard step

theorem enters_unfinished {i : Nat} {t : ThreadPhase} (enters : t.Enters i) : t ≠ .finished := by
  rintro rfl
  rcases enters with eq | eq
  · cases eq
  · cases eq

theorem closes_unfinished {i : Nat} {t : ThreadPhase} (closes : t.Closes i) : t ≠ .finished := by
  rintro rfl
  obtain ⟨_, _, eq | eq⟩ := closes
  · cases eq
  · cases eq

theorem inStep_not_hung (inv : InStep n s) : ¬ s.Hung := by
  rintro (⟨i, phase, ends⟩ | ⟨j, asleep, ends⟩)
  · simp only [InStep, phase] at inv
    have goes : s.thread ≠ .finished ∧ ∀ j, s.thread ≠ .asleep j := by
      obtain ⟨_, ⟨_, enters | closes⟩ | ⟨_, waking⟩⟩ := inv
      · exact ⟨enters_unfinished enters, enters_awake enters⟩
      · exact ⟨closes_unfinished closes, closes_awake closes⟩
      · simp only [waking]
        exact ⟨ThreadPhase.noConfusion, fun _ => ThreadPhase.noConfusion⟩
    rcases ends with finished | ⟨j, asleep⟩
    · exact goes.1 finished
    · exact goes.2 j asleep
  · have joins : s.thread ≠ .asleep j := by
      rcases ends with phase | phase
      · simp only [InStep, phase] at inv
        obtain ⟨_, finished | closes⟩ | ⟨_, i, _, enters | ⟨_, _, counting⟩⟩ := inv
        · simp only [finished]
          exact ThreadPhase.noConfusion
        · exact closes_awake closes j
        · exact enters_awake enters j
        · simp only [counting]
          exact ThreadPhase.noConfusion
      · simp only [InStep, phase] at inv
        simp only [inv]
        exact ThreadPhase.noConfusion
    exact joins asleep

/-- Where neither side can go on, pthread_join has returned. -/
theorem inStep_stuck (inv : InStep n s) (stuck : ∀ side, (futexSwitch n).step side s = none) : s.main = .joined := by
  have main : mainStep n s = none := stuck .main
  have thread : threadStep n s = none := stuck .thread
  have rests : s.thread = .finished ∨ ∃ j, s.thread = .asleep j := by
    unfold threadStep at thread
    cases phase : s.thread with
    | created => simp only [phase] at thread; cases thread
    | waiting j => simp only [phase] at thread; split_ifs at thread
    | asleep j => exact Or.inr ⟨j, rfl⟩
    | storing j => simp only [phase] at thread; cases thread
    | waking j => simp only [phase] at thread; cases thread
    | counting j => simp only [phase] at thread; cases thread
    | finished => exact Or.inl rfl
  unfold mainStep at main
  cases phase : s.main with
  | spinning => simp only [phase] at main; split_ifs at main
  | storing i => simp only [phase] at main; cases main
  | waking i => simp only [phase] at main; cases main
  | waiting i => simp only [phase] at main; split_ifs at main
  | asleep i => exact absurd (Or.inl ⟨i, phase, rests⟩) (inStep_not_hung inv)
  | joining =>
    simp only [phase] at main
    split_ifs at main with unfinished
    obtain ⟨j, asleep⟩ := rests.resolve_left unfinished
    exact absurd (Or.inr ⟨j, asleep, Or.inl phase⟩) (inStep_not_hung inv)
  | joined => rfl

end Preserved

/-- In the only round every wake is in order. -/
theorem single_wakesOwn {s : FutexSwitch} (inv : InStep 1 s) (side : FutexSide) : WakesOwn 1 side s := by
  cases side with
  | main =>
    intro i j main asleep
    simp only [InStep, main] at inv
    obtain ⟨_, ⟨_, enters | own | closes⟩ | ⟨_, closes | opens⟩⟩ := inv
    · exact absurd asleep (enters_awake enters j)
    · exact ThreadPhase.asleep.inj (asleep.symm.trans own)
    · exact absurd asleep (closes_awake closes j)
    · exact absurd asleep (closes_awake closes j)
    · have awake : s.thread ≠ .asleep (i + 1) := by
        intro same
        rcases opens with eq | ⟨below, _⟩
        · have last : ¬ i + 1 < 1 := by omega
          cases (if_neg last).symm.trans (eq.symm.trans same)
        · omega
      exact absurd asleep (opens_awake opens awake j)
  | thread =>
    intro i j _ main
    simp only [InStep, main] at inv
    have below := inv.1
    omega

/-- One round of the handoff cannot hang. -/
theorem single_round_goes_on {s : FutexSwitch} (reachable : (futexSwitch 1).system.Reachable s) : ¬ s.Hung := by
  apply inStep_not_hung (n := 1)
  refine Machine.invariant (InStep 1) inStep_start (fun side s t inv step => ?_) reachable
  cases side with
  | main => exact inStep_main inv (single_wakesOwn inv .main) step
  | thread => exact inStep_thread inv (single_wakesOwn inv .thread) step

/- What a wake in another round leads to. -/
section Drift
variable {n : Nat}

def CanHang (n : Nat) (s : FutexSwitch) : Prop :=
  ∃ t, Relation.ReflTransGen (futexSwitch n).system.step s t ∧ t.Hung

theorem CanHang.before {s t : FutexSwitch} {sides : List FutexSide} (played : (futexSwitch n).play s sides = some t)
    (hangs : CanHang n t) : CanHang n s := by
  obtain ⟨u, run, hung⟩ := hangs
  exact ⟨u, (Machine.play_steps sides played).trans run, hung⟩

/-- futex_thread is a round ahead: it ends before the main thread sleeps for the last time. -/
theorem thread_ahead_hangs (left i : Nat) (room : i + left + 1 = n) (s : FutexSwitch) (word : s.futexWord = 0)
    (main : s.main = .storing i) (thread : s.thread = threadRound n (i + 1)) : CanHang n s := by
  induction left generalizing i s with
  | zero =>
    have finished : s.thread = .finished := by rw [thread, threadRound, if_neg (by omega)]
    let last : FutexSwitch := { s with futexWord := 1, main := .asleep i }
    have played : (futexSwitch n).play s [.main, .main, .main] = some last := by
      simp only [Machine.play, futexSwitch, mainStep, main, finished, wakeThread, if_true, last]
    exact CanHang.before played ⟨last, .refl, Or.inl ⟨i, rfl, Or.inl finished⟩⟩
  | succ left ih =>
    have below : i + 1 < n := by omega
    have waits : s.thread = .waiting (i + 1) := by rw [thread, threadRound, if_pos below]
    let next : FutexSwitch :=
      { s with futexWord := 0, switches := s.switches + 2, main := .storing (i + 1), thread := threadRound n (i + 2) }
    have played : (futexSwitch n).play s [.thread, .main, .main, .thread, .thread, .thread, .main] = some next := by
      simp only [Machine.play, futexSwitch, mainStep, threadStep, main, waits, word, wakeThread, wakeMain, if_true,
        Nat.zero_ne_one, if_false, mainRound, if_pos below, next]
    exact CanHang.before played (ih (i + 1) (by omega) next rfl rfl rfl)

/-- The main thread is a round ahead: it ends before futex_thread sleeps for the last time. -/
theorem main_ahead_hangs (left i : Nat) (room : i + left + 1 = n) (s : FutexSwitch) (word : s.futexWord = 0)
    (main : s.main = mainRound n (i + 1)) (thread : s.thread = .asleep i) : CanHang n s := by
  induction left generalizing i s with
  | zero =>
    have joins : s.main = .joining := by rw [main, mainRound, if_neg (by omega)]
    exact ⟨s, .refl, Or.inr ⟨i, thread, Or.inl joins⟩⟩
  | succ left ih =>
    have below : i + 1 < n := by omega
    have stores : s.main = .storing (i + 1) := by rw [main, mainRound, if_pos below]
    let next : FutexSwitch :=
      { s with futexWord := 0, switches := s.switches + 2, main := mainRound n (i + 2), thread := .asleep (i + 1) }
    have played : (futexSwitch n).play s [.main, .main, .thread, .thread, .thread, .thread, .main] = some next := by
      simp only [Machine.play, futexSwitch, mainStep, threadStep, stores, thread, wakeThread, wakeMain, if_true,
        Nat.zero_ne_one, if_false, threadRound, if_pos below, next]
    exact CanHang.before played (ih (i + 1) (by omega) next rfl rfl rfl)

/-- A wake of the main thread that finds futex_thread in its next round. -/
theorem early_sleeper_hangs {i : Nat} (below : i + 1 < n) {s : FutexSwitch} (main : s.main = .waking i)
    (thread : s.thread = .asleep (i + 1)) : CanHang n s := by
  let next : FutexSwitch :=
    { s with futexWord := 0, switches := s.switches + 2, main := .storing (i + 1), thread := threadRound n (i + 2) }
  have played : (futexSwitch n).play s [.main, .thread, .thread, .thread, .main] = some next := by
    simp only [Machine.play, futexSwitch, mainStep, threadStep, main, thread, wakeThread, wakeMain, Nat.zero_ne_one,
      if_false, mainRound, if_pos below, next]
  exact CanHang.before played (thread_ahead_hangs (n - (i + 2)) (i + 1) (by omega) next rfl rfl rfl)

/-- A wake of futex_thread that finds the main thread in its next round, which is not the last. -/
theorem late_waker_hangs {j : Nat} (below : j + 2 < n) {s : FutexSwitch}
    (main : s.main = .asleep (j + 1)) (thread : s.thread = .waking j) : CanHang n s := by
  have within : j + 1 < n := by omega
  let woken : FutexSwitch :=
    { s with futexWord := 1, switches := s.switches + 2, main := .asleep (j + 2), thread := .waiting (j + 1) }
  have wakes : (futexSwitch n).play s [.thread, .thread, .main, .main, .main] = some woken := by
    simp only [Machine.play, futexSwitch, mainStep, threadStep, main, thread, wakeThread, wakeMain, mainRound,
      if_pos below, threadRound, if_pos within, if_true, woken]
  let next : FutexSwitch :=
    { s with futexWord := 0, switches := s.switches + 2 + 2, main := mainRound n (j + 3), thread := .asleep (j + 2) }
  have sleeps : (futexSwitch n).play woken [.thread, .thread, .thread, .thread, .thread] = some next := by
    simp only [Machine.play, futexSwitch, threadStep, wakeMain, Nat.one_ne_zero, if_false, threadRound,
      if_pos below, if_true, woken, next]
  have hangs := main_ahead_hangs (n - (j + 3)) (j + 2) (by omega) next rfl rfl rfl
  exact CanHang.before wakes (CanHang.before sleeps hangs)

theorem drift_hangs {s : FutexSwitch} {side : FutexSide}
    (reachable : ((futexSwitch n).guarded (WakesOwn n)).Reachable s) (foreign : ¬ WakesOwn n side s) : CanHang n s := by
  have inv := inStep_reachable reachable
  cases side with
  | main =>
    simp only [WakesOwn, not_forall] at foreign
    obtain ⟨i, j, main, asleep, other⟩ := foreign
    simp only [InStep, main] at inv
    obtain ⟨_, ⟨_, enters | own | closes⟩ | ⟨_, closes | opens⟩⟩ := inv
    · exact absurd asleep (enters_awake enters j)
    · exact absurd (ThreadPhase.asleep.inj (asleep.symm.trans own)) other
    · exact absurd asleep (closes_awake closes j)
    · exact absurd asleep (closes_awake closes j)
    · have same : s.thread = .asleep (i + 1) := by
        by_contra awake
        exact opens_awake opens awake j asleep
      have below : i + 1 < n := by
        rcases opens with eq | ⟨below, _⟩
        · by_contra last
          simp only [same, threadRound, if_neg last] at eq
          cases eq
        · exact below
      exact early_sleeper_hangs below main same
  | thread =>
    simp only [WakesOwn, not_forall, not_or] at foreign
    obtain ⟨i, j, waking, main, other, more⟩ := foreign
    simp only [InStep, main] at inv
    obtain ⟨below, ⟨_, enters | closes⟩ | ⟨_, own⟩⟩ := inv
    · rcases enters with eq | eq
      · cases eq.symm.trans waking
      · cases eq.symm.trans waking
    · obtain ⟨l, rfl, eq | eq⟩ := closes
      · obtain rfl := ThreadPhase.waking.inj (eq.symm.trans waking)
        exact late_waker_hangs (by omega) main waking
      · cases eq.symm.trans waking
    · exact absurd (ThreadPhase.waking.inj (own.symm.trans waking)) other

end Drift

/-- As long as each wake finds the other thread awake or in the caller's own round nobody is left
asleep, and pthread_join is the last thing the main thread waits for. The first wake that does not
can leave one of them asleep for ever. -/
theorem futex_hangs_iff {n : Nat} {s : FutexSwitch} (reachable : ((futexSwitch n).guarded (WakesOwn n)).Reachable s) :
    ¬ s.Hung ∧ ((∀ side, (futexSwitch n).step side s = none) → s.main = .joined) ∧
      ∀ side, ¬ WakesOwn n side s → ∃ t, Relation.ReflTransGen (futexSwitch n).system.step s t ∧ t.Hung :=
  ⟨inStep_not_hung (inStep_reachable reachable), inStep_stuck (inStep_reachable reachable),
    fun _ foreign => drift_hangs reachable foreign⟩

/-- Both threads have started, and futex_thread is about to wait for the first time. -/
def futexOpened : FutexSwitch := ⟨0, true, 0, .storing 0, .waiting 0⟩

theorem futex_opened_reachable {n : Nat} (positive : 0 < n) :
    ((futexSwitch n).guarded (WakesOwn n)).Reachable futexOpened := by
  have created : (futexSwitch n).step .thread (futexSwitch n).start = some ⟨0, true, 0, .spinning, .waiting 0⟩ := by
    simp only [futexSwitch, threadStep, threadRound, if_pos positive]
  have opened : (futexSwitch n).step .main ⟨0, true, 0, .spinning, .waiting 0⟩ = some futexOpened := by
    simp only [futexSwitch, mainStep, if_true, mainRound, if_pos positive]
    rfl
  have quiet : WakesOwn n .thread (futexSwitch n).start := fun _ _ waking => nomatch waking
  have spins : WakesOwn n .main ⟨0, true, 0, .spinning, .waiting 0⟩ := fun _ _ waking => nomatch waking
  exact .tail (.single ⟨.thread, quiet, created⟩) ⟨.main, spins, opened⟩

def MainPhase.wakesIn : MainPhase → Option Nat
  | .waking i => some i
  | _ => none

def MainPhase.sleepsIn : MainPhase → Option Nat
  | .asleep i => some i
  | _ => none

def ThreadPhase.wakesIn : ThreadPhase → Option Nat
  | .waking j => some j
  | _ => none

def ThreadPhase.sleepsIn : ThreadPhase → Option Nat
  | .asleep j => some j
  | _ => none

instance (n : Nat) (side : FutexSide) (s : FutexSwitch) : Decidable (WakesOwn n side s) :=
  match side with
  | .main => decidable_of_iff (∀ i ∈ s.main.wakesIn, ∀ j ∈ s.thread.sleepsIn, j = i) (by
      unfold WakesOwn
      cases s.main <;> cases s.thread <;> simp [MainPhase.wakesIn, ThreadPhase.sleepsIn])
  | .thread => decidable_of_iff (∀ i ∈ s.main.sleepsIn, ∀ j ∈ s.thread.wakesIn, i = j ∨ i + 1 = n) (by
      unfold WakesOwn
      cases s.main <;> cases s.thread <;> simp [MainPhase.sleepsIn, ThreadPhase.wakesIn])

/-- A whole round behind the start, in which each side sleeps and is woken. -/
def roundSides : List FutexSide := [.thread, .main, .main, .main, .thread, .thread, .thread]

def roundEnd : FutexSwitch := ⟨0, true, 2, .storing 1, .waiting 1⟩

theorem round_reachable :
    ((futexSwitch (futexSwitches / 2)).guarded (WakesOwn (futexSwitches / 2))).Reachable roundEnd :=
  (futex_opened_reachable (by decide)).trans (Machine.guardedPlay_steps roundSides rfl)

theorem round_goes_on : ¬ roundEnd.Hung ∧
    ((∀ side, (futexSwitch (futexSwitches / 2)).step side roundEnd = none) → roundEnd.main = .joined) :=
  have goes := futex_hangs_iff round_reachable
  ⟨goes.1, goes.2.1⟩

/-- With the number of rounds that the benchmark makes, a wake of the first round can find the
thread in its second one, and the main thread is left asleep in the last. -/
theorem shipped_futex_hangs : ∃ s, (futexSwitch (futexSwitches / 2)).system.Reachable s ∧ s.Hung := by
  have opened := Machine.guarded_reachable (futex_opened_reachable (n := futexSwitches / 2) (by decide))
  let late : FutexSwitch := ⟨0, true, 2, .waking 0, .asleep 1⟩
  have played : (futexSwitch (futexSwitches / 2)).play futexOpened
      [.main, .thread, .thread, .thread, .thread, .thread] = some late := by
    simp only [Machine.play, futexSwitch, mainStep, threadStep, futexOpened, wakeMain, Nat.one_ne_zero, if_false,
      threadRound, futexSwitches, Nat.reduceDiv, Nat.reduceAdd, Nat.reduceLT, if_true, late]
  obtain ⟨t, run, hung⟩ := CanHang.before played (early_sleeper_hangs (by decide) rfl rfl)
  exact ⟨t, opened.trans run, hung⟩

end ServMark
