import ServMark.Library.Transition

/-! cswitch_pipe.c: ping_thread and the loop of cswitch_pipe_measure pass a byte through one pipe
that both of them read and write. Each call of read and write is a step of its own. -/
namespace ServMark
open Transition

def switchesPerIter : Nat := 1000000

inductive Side where
  | ping | pong
  deriving DecidableEq

/-- Where ping_thread stands, with the number of its round. -/
inductive PingPhase where
  | created
  | writing (i : Nat)
  | reading (i : Nat)
  | counting (i : Nat)
  | finished
  deriving DecidableEq

/- Where cswitch_pipe_measure stands behind pthread_create. -/
inductive PongPhase where
  | spinning
  | reading (i : Nat)
  | writing (i : Nat)
  | joining
  | joined
  deriving DecidableEq

/-- The bytes in the pipe stand beside the side that wrote them, which no step reads. -/
structure PipeSwitch where
  pipe : List (Side × Char)
  threadReady : Bool
  switchCount : Nat
  pingChar : Char
  pongChar : Char
  ping : PingPhase
  pong : PongPhase
  deriving DecidableEq

/-- The test of the loop of ping_thread, for so many rounds. -/
def pingRound (n i : Nat) : PingPhase := if i < n then .writing i else .finished

def pongRound (n i : Nat) : PongPhase := if i < n then .reading i else .joining

/-- A call of read takes the first byte or waits for one. -/
def pingStep (n : Nat) (s : PipeSwitch) : Option PipeSwitch :=
  match s.ping with
  | .created => some { s with threadReady := true, ping := pingRound n 0 }
  | .writing i => some { s with pipe := s.pipe ++ [(.ping, s.pingChar)], ping := .reading i }
  | .reading i =>
    match s.pipe with
    | [] => none
    | byte :: rest => some { s with pipe := rest, pingChar := byte.2, ping := .counting i }
  | .counting i => some { s with switchCount := s.switchCount + 2, ping := pingRound n (i + 1) }
  | .finished => none

def pongStep (n : Nat) (s : PipeSwitch) : Option PipeSwitch :=
  match s.pong with
  | .spinning => if s.threadReady then some { s with pong := pongRound n 0 } else some s
  | .reading i =>
    match s.pipe with
    | [] => none
    | byte :: rest => some { s with pipe := rest, pongChar := byte.2, pong := .writing i }
  | .writing i => some { s with pipe := s.pipe ++ [(.pong, s.pongChar)], pong := pongRound n (i + 1) }
  | .joining => if s.ping = .finished then some { s with pong := .joined } else none
  | .joined => none

/-- One call of cswitch_pipe_measure with n rounds, from the creation of the thread on. -/
def pipeSwitch (n : Nat) : Machine Side PipeSwitch where
  start := ⟨[], false, 0, 'x', 'y', .created, .spinning⟩
  step
    | .ping => pingStep n
    | .pong => pongStep n

/-- One side waits at an empty pipe for a byte after the other has done all its rounds. -/
def PipeSwitch.Hung (s : PipeSwitch) : Prop :=
  s.pipe = [] ∧ ((∃ i, s.pong = .reading i ∧ s.ping = .finished) ∨
    ∃ i, s.ping = .reading i ∧ (s.pong = .joining ∨ s.pong = .joined))

def PongPhase.ended : PongPhase → Bool
  | .spinning => false
  | .reading _ => false
  | .writing _ => false
  | .joining => true
  | .joined => true

/-- If ping_thread is about to read while the other side has rounds left, the byte comes from there. -/
def ReadsForeign (side : Side) (s : PipeSwitch) : Prop :=
  side = .ping → s.pong.ended = false → ∀ i, s.ping = .reading i → ∀ byte ∈ s.pipe.head?, byte.1 = .pong

/- How many bytes a side has written and taken, of n in all. -/
section Counts
variable (n : Nat)

def PingPhase.written : PingPhase → Nat
  | .created => 0
  | .writing i => i
  | .reading i => i + 1
  | .counting i => i + 1
  | .finished => n

def PingPhase.taken : PingPhase → Nat
  | .created => 0
  | .writing i => i
  | .reading i => i
  | .counting i => i + 1
  | .finished => n

def PongPhase.written : PongPhase → Nat
  | .spinning => 0
  | .reading i => i
  | .writing i => i
  | .joining => n
  | .joined => n

def PongPhase.taken : PongPhase → Nat
  | .spinning => 0
  | .reading i => i
  | .writing i => i + 1
  | .joining => n
  | .joined => n

def PingPhase.Below : PingPhase → Prop
  | .created => True
  | .writing i => i < n
  | .reading i => i < n
  | .counting i => i < n
  | .finished => True

def PongPhase.Below : PongPhase → Prop
  | .spinning => True
  | .reading i => i < n
  | .writing i => i < n
  | .joining => True
  | .joined => True

variable {n}

theorem pingRound_counts {i : Nat} (within : i ≤ n) :
    (pingRound n i).written n = i ∧ (pingRound n i).taken n = i ∧ (pingRound n i).Below n := by
  unfold pingRound
  split
  · rename_i below
    exact ⟨rfl, rfl, below⟩
  · have last : n = i := by omega
    exact ⟨last, last, trivial⟩

theorem pongRound_counts {i : Nat} (within : i ≤ n) :
    (pongRound n i).written n = i ∧ (pongRound n i).taken n = i ∧ (pongRound n i).Below n := by
  unfold pongRound
  split
  · rename_i below
    exact ⟨rfl, rfl, below⟩
  · have last : n = i := by omega
    exact ⟨last, last, trivial⟩

end Counts

/-- The bytes in the pipe are those written and not yet taken. -/
structure Balanced (n : Nat) (s : PipeSwitch) : Prop where
  ping_below : s.ping.Below n
  pong_below : s.pong.Below n
  balance : s.pipe.length + s.ping.taken n + s.pong.taken n = s.ping.written n + s.pong.written n
  ready : s.ping ≠ .created → s.threadReady = true

/-- What ping_thread has taken and can still take of the other side, that side has written. -/
def TakesForeign (n : Nat) (s : PipeSwitch) : Prop :=
  s.ping.taken n + s.pipe.countP (fun byte => byte.1 = .pong) ≤ s.pong.written n

section Preserved
variable {n : Nat} {s t : PipeSwitch}

theorem balanced_ping (inv : Balanced n s) (step : pingStep n s = some t) : Balanced n t := by
  obtain ⟨below, pong_below, balance, ready⟩ := inv
  unfold pingStep at step
  cases phase : s.ping with
  | created =>
    simp only [phase] at step balance
    obtain rfl := Option.some.inj step
    obtain ⟨written, taken, below⟩ := pingRound_counts (Nat.zero_le n)
    refine ⟨below, pong_below, ?_, fun _ => rfl⟩
    simp only [written, taken]
    exact balance
  | writing i =>
    have ready := ready (by rw [phase]; exact PingPhase.noConfusion)
    simp only [phase] at step balance below
    obtain rfl := Option.some.inj step
    refine ⟨below, pong_below, ?_, fun _ => ready⟩
    simp only [List.length_append, List.length_singleton, PingPhase.taken, PingPhase.written] at balance ⊢
    omega
  | reading i =>
    have ready := ready (by rw [phase]; exact PingPhase.noConfusion)
    simp only [phase] at step balance below
    cases bytes : s.pipe with
    | nil => simp only [bytes] at step; cases step
    | cons byte rest =>
      simp only [bytes] at step
      obtain rfl := Option.some.inj step
      refine ⟨below, pong_below, ?_, fun _ => ready⟩
      simp only [bytes, List.length_cons, PingPhase.taken, PingPhase.written] at balance ⊢
      omega
  | counting i =>
    have ready := ready (by rw [phase]; exact PingPhase.noConfusion)
    simp only [phase] at step balance below
    obtain rfl := Option.some.inj step
    obtain ⟨written, taken, below'⟩ := pingRound_counts (Nat.succ_le_of_lt below)
    refine ⟨below', pong_below, ?_, fun _ => ready⟩
    simp only [written, taken]
    exact balance
  | finished => simp only [phase] at step; cases step

theorem balanced_pong (inv : Balanced n s) (step : pongStep n s = some t) : Balanced n t := by
  obtain ⟨ping_below, below, balance, ready⟩ := inv
  unfold pongStep at step
  cases phase : s.pong with
  | spinning =>
    simp only [phase] at step balance
    split at step
    · obtain rfl := Option.some.inj step
      obtain ⟨written, taken, below⟩ := pongRound_counts (Nat.zero_le n)
      refine ⟨ping_below, below, ?_, ready⟩
      simp only [written, taken]
      exact balance
    · obtain rfl := Option.some.inj step
      exact ⟨ping_below, below, by rw [phase]; exact balance, ready⟩
  | reading i =>
    simp only [phase] at step balance below
    cases bytes : s.pipe with
    | nil => simp only [bytes] at step; cases step
    | cons byte rest =>
      simp only [bytes] at step
      obtain rfl := Option.some.inj step
      refine ⟨ping_below, below, ?_, ready⟩
      simp only [bytes, List.length_cons, PongPhase.taken, PongPhase.written] at balance ⊢
      omega
  | writing i =>
    simp only [phase] at step balance below
    obtain rfl := Option.some.inj step
    obtain ⟨written, taken, below'⟩ := pongRound_counts (Nat.succ_le_of_lt below)
    refine ⟨ping_below, below', ?_, ready⟩
    simp only [List.length_append, List.length_singleton, written, taken]
    simp only [PongPhase.taken, PongPhase.written] at balance
    omega
  | joining =>
    simp only [phase] at step balance
    split at step
    · obtain rfl := Option.some.inj step
      exact ⟨ping_below, trivial, balance, ready⟩
    · cases step
  | joined => simp only [phase] at step; cases step

theorem foreign_ping (foreign : TakesForeign n s) (below : s.ping.Below n) (guard : ReadsForeign .ping s)
    (left : s.pong.ended = false) (step : pingStep n s = some t) : TakesForeign n t := by
  unfold pingStep at step
  unfold TakesForeign at *
  cases phase : s.ping with
  | created =>
    simp only [phase] at step foreign
    obtain rfl := Option.some.inj step
    simp only [(pingRound_counts (Nat.zero_le n)).2.1]
    exact foreign
  | writing i =>
    simp only [phase] at step foreign
    obtain rfl := Option.some.inj step
    simpa only [List.countP_append, List.countP_singleton, PingPhase.taken, reduceCtorEq, decide_false,
      Bool.false_eq_true, if_false, Nat.add_zero] using foreign
  | reading i =>
    simp only [phase] at step foreign
    cases bytes : s.pipe with
    | nil => simp only [bytes] at step; cases step
    | cons byte rest =>
      simp only [bytes] at step foreign
      obtain rfl := Option.some.inj step
      have other : byte.1 = .pong := guard rfl left i phase byte (by simp [bytes])
      rw [List.countP_cons_of_pos (by simp [other])] at foreign
      simp only [PingPhase.taken] at foreign ⊢
      omega
  | counting i =>
    simp only [phase] at step foreign below
    obtain rfl := Option.some.inj step
    simp only [(pingRound_counts (Nat.succ_le_of_lt below)).2.1]
    exact foreign
  | finished => simp only [phase] at step; cases step

theorem foreign_pong (foreign : TakesForeign n s) (below : s.pong.Below n) (step : pongStep n s = some t) :
    TakesForeign n t := by
  unfold pongStep at step
  unfold TakesForeign at *
  cases phase : s.pong with
  | spinning =>
    simp only [phase] at step foreign
    split at step
    · obtain rfl := Option.some.inj step
      simp only [(pongRound_counts (Nat.zero_le n)).1]
      exact foreign
    · obtain rfl := Option.some.inj step
      simp only [phase]
      exact foreign
  | reading i =>
    simp only [phase] at step foreign
    cases bytes : s.pipe with
    | nil => simp only [bytes] at step; cases step
    | cons byte rest =>
      simp only [bytes] at step foreign
      obtain rfl := Option.some.inj step
      have fewer : rest.countP (fun byte => byte.1 = .pong) ≤ (byte :: rest).countP (fun byte => byte.1 = .pong) :=
        (List.sublist_cons_self byte rest).countP_le
      simp only [PongPhase.written] at foreign ⊢
      omega
  | writing i =>
    simp only [phase] at step foreign below
    obtain rfl := Option.some.inj step
    simp only [(pongRound_counts (Nat.succ_le_of_lt below)).1, List.countP_append, List.countP_singleton]
    simp only [PongPhase.written, decide_true, if_true] at foreign ⊢
    omega
  | joining =>
    simp only [phase] at step foreign
    split at step
    · obtain rfl := Option.some.inj step
      exact foreign
    · cases step
  | joined => simp only [phase] at step; cases step

theorem ping_keeps (step : pingStep n s = some t) : t.pong = s.pong := by
  unfold pingStep at step
  split at step
  · exact Option.some.inj step ▸ rfl
  · exact Option.some.inj step ▸ rfl
  · split at step
    · cases step
    · exact Option.some.inj step ▸ rfl
  · exact Option.some.inj step ▸ rfl
  · cases step

theorem ended_stays (ended : s.pong.ended = true) (step : pongStep n s = some t) : t.pong.ended = true := by
  unfold pongStep at step
  cases phase : s.pong with
  | spinning => rw [phase] at ended; cases ended
  | reading i => rw [phase] at ended; cases ended
  | writing i => rw [phase] at ended; cases ended
  | joining =>
    simp only [phase] at step
    split at step
    · exact Option.some.inj step ▸ rfl
    · cases step
  | joined => simp only [phase] at step; cases step

theorem balanced_start (n : Nat) : Balanced n (pipeSwitch n).start :=
  ⟨trivial, trivial, rfl, fun started => absurd rfl started⟩

theorem balanced_step {side : Side} (inv : Balanced n s) (step : (pipeSwitch n).step side s = some t) :
    Balanced n t := by
  cases side with
  | ping => exact balanced_ping inv step
  | pong => exact balanced_pong inv step

theorem balanced_reachable (reachable : (pipeSwitch n).system.Reachable s) : Balanced n s :=
  Machine.invariant (Balanced n) (balanced_start n) (fun _ _ _ inv step => balanced_step inv step) reachable

theorem foreign_reachable (reachable : ((pipeSwitch n).guarded ReadsForeign).Reachable s)
    (left : s.pong.ended = false) : TakesForeign n s := by
  have both : Balanced n s ∧ (s.pong.ended = false → TakesForeign n s) := by
    refine Machine.guarded_invariant (fun s => Balanced n s ∧ (s.pong.ended = false → TakesForeign n s))
      ⟨balanced_start n, fun _ => Nat.le_refl 0⟩ (fun side s t inv guard step => ?_) reachable
    obtain ⟨balanced, foreign⟩ := inv
    refine ⟨balanced_step balanced step, fun left => ?_⟩
    cases side with
    | ping =>
      simp only [ping_keeps step] at left
      exact foreign_ping (foreign left) balanced.ping_below guard left step
    | pong =>
      have before : s.pong.ended = false := by
        cases ended : s.pong.ended with
        | false => rfl
        | true => rw [ended_stays ended step] at left; cases left
      exact foreign_pong (foreign before) balanced.pong_below step
  exact both.2 left

/-- The side that measures never leaves the other one waiting. -/
theorem ping_served (reachable : (pipeSwitch n).system.Reachable s) {i : Nat} (reads : s.ping = .reading i)
    (ended : s.pong = .joining ∨ s.pong = .joined) : s.pipe ≠ [] := by
  have balance := (balanced_reachable reachable).balance
  intro empty
  simp only [reads, empty] at balance
  rcases ended with ended | ended
  · simp only [ended, PingPhase.taken, PingPhase.written, PongPhase.taken, PongPhase.written] at balance
    simp only [List.length_nil] at balance
    omega
  · simp only [ended, PingPhase.taken, PingPhase.written, PongPhase.taken, PongPhase.written] at balance
    simp only [List.length_nil] at balance
    omega

theorem foreign_never_hung (reachable : ((pipeSwitch n).guarded ReadsForeign).Reachable s) : ¬ s.Hung := by
  rintro ⟨empty, ⟨i, reads, finished⟩ | ⟨i, reads, ended⟩⟩
  · have foreign := foreign_reachable reachable (by rw [reads]; rfl)
    have below := (balanced_reachable (Machine.guarded_reachable reachable)).pong_below
    simp only [TakesForeign, reads, finished, PingPhase.taken, PongPhase.written] at foreign
    simp only [reads, PongPhase.Below] at below
    omega
  · exact ping_served (Machine.guarded_reachable reachable) reads ended empty

end Preserved

/-- With an empty pipe the thread can take its own bytes back until it is done. -/
theorem alone_finishes {n : Nat} (left i : Nat) (room : i + left = n) (s : PipeSwitch) (empty : s.pipe = [])
    (phase : s.ping = pingRound n i) : ∃ t, Relation.ReflTransGen (pipeSwitch n).system.step s t ∧ t.pipe = [] ∧
      t.ping = .finished ∧ t.pong = s.pong ∧ t.threadReady = s.threadReady := by
  induction left generalizing i s with
  | zero =>
    have last : ¬ i < n := by omega
    exact ⟨s, .refl, empty, by rw [phase, pingRound, if_neg last], rfl, rfl⟩
  | succ left ih =>
    have below : i < n := by omega
    simp only [pingRound, if_pos below] at phase
    let next : PipeSwitch := { s with switchCount := s.switchCount + 2, ping := pingRound n (i + 1) }
    have round : (pipeSwitch n).play s [.ping, .ping, .ping] = some next := by
      simp only [Machine.play, pipeSwitch, pingStep, phase, empty, List.nil_append]
      rw [← empty]
    obtain ⟨t, run, ended⟩ := ih (i + 1) (by omega) next empty rfl
    exact ⟨t, (Machine.play_steps _ round).trans run, ended⟩

/-- A state in which the other side has still to read and the thread runs alone to its end. -/
theorem alone_hangs {n i : Nat} (within : i ≤ n) {s : PipeSwitch} (empty : s.pipe = [])
    (phase : s.ping = pingRound n i) (waits : s.pong = .spinning ∧ s.threadReady = true ∨ ∃ j, s.pong = .reading j)
    (positive : 0 < n) : ∃ t, Relation.ReflTransGen (pipeSwitch n).system.step s t ∧ t.Hung := by
  obtain ⟨t, run, bytes, finished, same, ready⟩ := alone_finishes (n - i) i (by omega) s empty phase
  rcases waits with ⟨spins, set⟩ | ⟨j, reads⟩
  · have leaves : (pipeSwitch n).step .pong t = some { t with pong := .reading 0 } := by
      simp only [pipeSwitch, pongStep, same, spins, ready, set, if_true, pongRound, if_pos positive]
    exact ⟨_, run.tail ⟨.pong, leaves⟩, bytes, Or.inl ⟨0, rfl, finished⟩⟩
  · exact ⟨t, run, bytes, Or.inl ⟨j, same.trans reads, finished⟩⟩

/-- From the first read of a byte of its own on, the thread can leave the other side waiting. -/
theorem own_read_hangs {n : Nat} {s : PipeSwitch} (reachable : ((pipeSwitch n).guarded ReadsForeign).Reachable s)
    (own : ¬ ReadsForeign .ping s) : ∃ t, Relation.ReflTransGen (pipeSwitch n).system.step s t ∧ t.Hung := by
  simp only [ReadsForeign, true_implies, not_forall] at own
  obtain ⟨left, i, reads, byte, first, mine⟩ := own
  obtain ⟨ping_below, pong_below, balance, ready⟩ := balanced_reachable (Machine.guarded_reachable reachable)
  obtain ⟨rest, bytes⟩ : ∃ rest, s.pipe = byte :: rest := List.head?_eq_some_iff.mp first
  simp only [reads, PingPhase.Below] at ping_below
  simp only [reads, bytes, List.length_cons, PingPhase.taken, PingPhase.written] at balance
  have single : s.pong.taken n = s.pong.written n → rest = [] := by
    intro same
    exact List.eq_nil_of_length_eq_zero (by omega)
  let next : PipeSwitch :=
    { s with pipe := rest, pingChar := byte.2, switchCount := s.switchCount + 2, ping := pingRound n (i + 1) }
  have taken : (pipeSwitch n).play s [.ping, .ping] = some next := by
    simp only [Machine.play, pipeSwitch, pingStep, reads, bytes, next]
  have steps := Machine.play_steps _ taken
  have positive : 0 < n := by omega
  have ready := ready (by rw [reads]; exact PingPhase.noConfusion)
  cases phase : s.pong with
  | spinning =>
    obtain ⟨t, run, hung⟩ := alone_hangs (s := next) ping_below (single (by rw [phase]; rfl)) rfl
      (Or.inl ⟨phase, ready⟩) positive
    exact ⟨t, steps.trans run, hung⟩
  | reading j =>
    obtain ⟨t, run, hung⟩ := alone_hangs (s := next) ping_below (single (by rw [phase]; rfl)) rfl
      (Or.inr ⟨j, phase⟩) positive
    exact ⟨t, steps.trans run, hung⟩
  | writing j =>
    simp only [phase, PongPhase.taken, PongPhase.written] at balance
    omega
  | joining => rw [phase] at left; cases left
  | joined => rw [phase] at left; cases left

/-- Nobody waits for one who has finished as long as ping_thread reads no byte of its own while the
other side has rounds left, and can be made to wait as soon as it is about to. -/
theorem switch_hangs_iff {n : Nat} {s : PipeSwitch} (reachable : ((pipeSwitch n).guarded ReadsForeign).Reachable s) :
    ¬ s.Hung ∧ (¬ ReadsForeign .ping s → ∃ t, Relation.ReflTransGen (pipeSwitch n).system.step s t ∧ t.Hung) :=
  ⟨foreign_never_hung reachable, own_read_hangs reachable⟩

/-- Both threads have started, and the other side waits for the first byte. -/
def switchOpened : PipeSwitch := ⟨[], true, 0, 'x', 'y', .writing 0, .reading 0⟩

theorem opened_reachable {n : Nat} (positive : 0 < n) :
    ((pipeSwitch n).guarded ReadsForeign).Reachable switchOpened := by
  have unread : ReadsForeign .ping (pipeSwitch n).start := fun _ _ i reads => nomatch reads
  have created : (pipeSwitch n).step .ping (pipeSwitch n).start =
      some ⟨[], true, 0, 'x', 'y', .writing 0, .spinning⟩ := by
    simp only [pipeSwitch, pingStep, pingRound, if_pos positive]
  have opened : (pipeSwitch n).step .pong ⟨[], true, 0, 'x', 'y', .writing 0, .spinning⟩ = some switchOpened := by
    simp only [pipeSwitch, pongStep, if_true, pongRound, if_pos positive]
    rfl
  exact .tail (.single ⟨.ping, unread, created⟩) ⟨.pong, fun side => (nomatch side), opened⟩

def PingPhase.reads : PingPhase → Bool
  | .reading _ => true
  | _ => false

instance (side : Side) (s : PipeSwitch) : Decidable (ReadsForeign side s) :=
  decidable_of_iff (side = .ping → s.pong.ended = false → s.ping.reads = true → ∀ byte ∈ s.pipe.head?, byte.1 = .pong)
    (by
      unfold ReadsForeign
      cases s.ping <;> simp [PingPhase.reads])

/-- A whole round behind the start: a byte goes to the other side and comes back. -/
def passedSides : List Side := [.ping, .pong, .pong, .ping, .ping]

def passedEnd : PipeSwitch := ⟨[], true, 2, 'x', 'x', .writing 1, .reading 1⟩

theorem passed_reachable : ((pipeSwitch (switchesPerIter / 2)).guarded ReadsForeign).Reachable passedEnd :=
  (opened_reachable (by decide)).trans (Machine.guardedPlay_steps passedSides rfl)

theorem passed_never_hung : ¬ passedEnd.Hung := (switch_hangs_iff passed_reachable).1

/-- With the number of rounds that the benchmark makes, the thread takes all its bytes back. -/
theorem shipped_switch_hangs : ∃ s, (pipeSwitch (switchesPerIter / 2)).system.Reachable s ∧ s.Hung := by
  have opened := Machine.guarded_reachable (opened_reachable (n := switchesPerIter / 2) (by decide))
  obtain ⟨t, run, hung⟩ := alone_hangs (s := switchOpened) (Nat.zero_le (switchesPerIter / 2)) rfl
    (if_pos (by decide)).symm (Or.inr ⟨0, rfl⟩) (by decide)
  exact ⟨t, opened.trans run, hung⟩

end ServMark
