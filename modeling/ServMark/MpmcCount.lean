import ServMark.Library.Tally
import ServMark.SyncMpmc

/-! The loops of mpmc_producer and mpmc_consumer around the queue of sync_mpmc.c, and the counters
from which sync_mpmc_measure takes the number of items. -/
namespace ServMark
open Ring Tally Transition

/-- OPS_PER_PRODUCER. -/
def opsPerProducer : Nat := 300000

/-- What mpmc_producer enqueues in its rounds. -/
def producerItems (n : Nat) : List UInt64 := (List.range n).map UInt64.ofNat

/-- Where mpmc_producer stands; its rounds to come are in the todo list of the queue. -/
inductive ProducerLoop where
  | spinning
  | enqueuing
  | counting
  | finished
  deriving DecidableEq

/-- Where mpmc_consumer stands, with its local count. -/
inductive ConsumerLoop where
  | spinning
  | testing (found : Nat)
  | polling (found : Nat)
  | draining (found : Nat)
  | adding (found : Nat)
  | finished
  deriving DecidableEq

inductive MpmcThread (np nc : Nat) where
  | main
  | producer (p : Fin np)
  | consumer (c : Fin nc)

structure MpmcCount (np nc : Nat) where
  queue : QueueState np nc
  ready : Bool
  produced : Nat
  consumed : Nat
  producers : Fin np → ProducerLoop
  consumers : Fin nc → ConsumerLoop

/-- The test of the loop of mpmc_producer with these items to come. -/
def producerRound (todo : List UInt64) : ProducerLoop :=
  match todo with
  | [] => .finished
  | _ :: _ => .enqueuing

section Steps
variable {np nc : Nat}

def MpmcCount.produce (s : MpmcCount np nc) (p : Fin np) (loop : ProducerLoop) : MpmcCount np nc :=
  { s with producers := Function.update s.producers p loop }

def MpmcCount.consume (s : MpmcCount np nc) (c : Fin nc) (loop : ConsumerLoop) : MpmcCount np nc :=
  { s with consumers := Function.update s.consumers c loop }

/-- mpmc_producer, which makes one step of a call of mpmc_enqueue at a time and calls it again
until it returns something other than 0. -/
def producerStep (s : MpmcCount np nc) (p : Fin np) : Option (MpmcCount np nc) :=
  match s.producers p with
  | .spinning => if s.ready then some (s.produce p (producerRound (s.queue.producers p).todo)) else some s
  | .enqueuing =>
    match enqueueStep s.queue p with
    | none => none
    | some (queue, none) => some { s with queue := queue }
    | some (queue, some 0) => some { s with queue := queue }
    | some (queue, some (_ + 1)) => some ({ s with queue := queue }.produce p .counting)
  | .counting =>
    some ({ s with produced := s.produced + 1 }.produce p (producerRound (s.queue.producers p).todo))
  | .finished => none

/-- mpmc_consumer. -/
def consumerStep (target : Nat) (s : MpmcCount np nc) (c : Fin nc) : Option (MpmcCount np nc) :=
  match s.consumers c with
  | .spinning => if s.ready then some (s.consume c (.testing 0)) else some s
  | .testing found =>
    if s.produced < target then some (s.consume c (.polling found)) else some (s.consume c (.draining found))
  | .polling found =>
    match dequeueStep s.queue c with
    | (queue, none) => some { s with queue := queue }
    | (queue, some v) =>
      if v ≠ 0 then some ({ s with queue := queue }.consume c (.testing (found + 1)))
      else some ({ s with queue := queue }.consume c (.testing found))
  | .draining found =>
    match dequeueStep s.queue c with
    | (queue, none) => some { s with queue := queue }
    | (queue, some v) =>
      if v ≠ 0 then some ({ s with queue := queue }.consume c (.draining (found + 1)))
      else some ({ s with queue := queue }.consume c (.adding found))
  | .adding found => some ({ s with consumed := s.consumed + found }.consume c .finished)
  | .finished => none

/-- One call of sync_mpmc_measure with n items for each producer, from the creation of the threads
on. The main thread has nothing more to do than to set the flag. -/
def mpmcCount (np nc n : Nat) (items : Nat → UInt64) (start : Fin queueSize) :
    Machine (MpmcThread np nc) (MpmcCount np nc) where
  start := ⟨emptyQueue items start (fun _ => producerItems n), false, 0, 0, fun _ => .spinning, fun _ => .spinning⟩
  step
    | .main => fun s => some { s with ready := true }
    | .producer p => fun s => producerStep s p
    | .consumer c => fun s => consumerStep (np * n) s c

def MpmcCount.Finished (s : MpmcCount np nc) : Prop :=
  (∀ p, s.producers p = .finished) ∧ ∀ c, s.consumers c = .finished

/-- No call stores behind a test of the queue that another call has made out of date. -/
def CallsAlone (thread : MpmcThread np nc) (s : MpmcCount np nc) : Prop :=
  match thread with
  | .main => True
  | .producer p => EnqueueAlone s.queue p
  | .consumer c => DequeueAlone s.queue c

end Steps

/- What the counters have to do with the queue. -/
section Counts
variable {np nc n : Nat}

def ProducerLoop.pending : ProducerLoop → Nat
  | .counting => 1
  | _ => 0

def ConsumerLoop.found : ConsumerLoop → Nat
  | .spinning => 0
  | .testing found => found
  | .polling found => found
  | .draining found => found
  | .adding found => found
  | .finished => 0

/-- The items of a kind that a producer has still to enqueue. -/
def Producer.left (keep : UInt64 → Bool) (p : Producer) : Nat := p.todo.countP keep

/-- Every item is still to come or was enqueued, every enqueued one but those about to be counted
is in produced, and every removed one other than 0 is in consumed or in a local count. -/
structure Counted (n : Nat) (s : MpmcCount np nc) : Prop where
  enqueued : ∀ keep, s.queue.enqueued.countP keep + tally (Producer.left keep) s.queue.producers =
    np * (producerItems n).countP keep
  produced : s.produced + tally ProducerLoop.pending s.producers = s.queue.enqueued.length
  consumed : s.consumed + tally ConsumerLoop.found s.consumers = s.queue.removed.countP (fun v => v ≠ 0)
  ended : ∀ p, s.producers p = .finished → (s.queue.producers p).todo = []

/-- What a step of mpmc_enqueue does to the records. -/
structure EnqueueCounts (s t : QueueState np nc) (p : Fin np) (ret : Nat) : Prop where
  removed : t.removed = s.removed
  enqueued : t.enqueued.length = s.enqueued.length + ret
  single : ret ≤ 1
  others : ∀ q, q ≠ p → t.producers q = s.producers q
  kept : ∀ keep, t.enqueued.countP keep + tally (Producer.left keep) t.producers =
    s.enqueued.countP keep + tally (Producer.left keep) s.producers

theorem enter_counts {s : QueueState np nc} {p : Fin np} {todo : List UInt64} (same : (s.producers p).todo = todo)
    (items : Nat → UInt64) (phase : EnqueuePhase) :
    EnqueueCounts s ({ s with items := items }.enter p todo phase) p 0 where
  removed := rfl
  enqueued := rfl
  single := Nat.zero_le 1
  others q other := Function.update_of_ne other _ _
  kept keep := by
    have moved := tally_move (Producer.left keep) s.producers p ⟨todo, phase⟩
    simp only [Producer.left, same] at moved
    simp only [QueueState.enter]
    omega

theorem enqueue_counts {s t : QueueState np nc} {p : Fin np} {ret : Option Nat}
    (step : enqueueStep s p = some (t, ret)) : EnqueueCounts s t p (ret.getD 0) := by
  obtain ⟨item, rest, todo, move⟩ := enqueueStep_move step
  cases move with
  | load phase => exact enter_counts todo s.items _
  | refuse phase full => exact enter_counts todo s.items _
  | pass phase room => exact enter_counts todo s.items _
  | write phase => exact enter_counts todo _ _
  | publish phase =>
    refine ⟨rfl, List.length_append, Nat.le_refl 1, fun q other => Function.update_of_ne other _ _, fun keep => ?_⟩
    have moved := tally_move (Producer.left keep) s.producers p ⟨rest, .outside⟩
    simp only [Producer.left, todo, List.countP_cons] at moved
    simp only [QueueState.enter, List.countP_append, List.countP_singleton]
    omega

/-- What a call of mpmc_dequeue that returns this adds to the items found. -/
def dequeueFound (ret : Option UInt64) : Nat :=
  match ret with
  | none => 0
  | some v => if v ≠ 0 then 1 else 0

theorem dequeue_counts {s t : QueueState np nc} {c : Fin nc} {ret : Option UInt64} (step : dequeueStep s c = (t, ret)) :
    t.enqueued = s.enqueued ∧ t.producers = s.producers ∧
      t.removed.countP (fun v => v ≠ 0) = s.removed.countP (fun v => v ≠ 0) + dequeueFound ret := by
  have move := dequeueStep_move s c
  rw [step] at move
  cases move with
  | load phase => exact ⟨rfl, rfl, rfl⟩
  | refuse phase empty => exact ⟨rfl, rfl, rfl⟩
  | pass phase some_ => exact ⟨rfl, rfl, rfl⟩
  | read phase => exact ⟨rfl, rfl, rfl⟩
  | advance phase =>
    refine ⟨rfl, rfl, ?_⟩
    simp only [List.countP_append, List.countP_singleton, dequeueFound, decide_eq_true_eq]

theorem producerRound_ended {todo : List UInt64} (ended : producerRound todo = .finished) : todo = [] := by
  cases todo with
  | nil => rfl
  | cons item rest => cases ended

theorem producerRound_pending (todo : List UInt64) : (producerRound todo).pending = 0 := by
  cases todo with
  | nil => rfl
  | cons item rest => rfl

section Preserved
variable {s t : MpmcCount np nc}

theorem counted_start (items : Nat → UInt64) (start : Fin queueSize) :
    Counted n (mpmcCount np nc n items start).start where
  enqueued keep := by
    have all : tally (Producer.left keep) (fun _ : Fin np => ⟨producerItems n, .outside⟩) =
        Fintype.card (Fin np) * (producerItems n).countP keep := tally_const (fun _ => rfl)
    simp only [Fintype.card_fin] at all
    exact (Nat.zero_add _).trans all
  produced := by
    have none_ : tally ProducerLoop.pending (fun _ : Fin np => .spinning) = Fintype.card (Fin np) * 0 :=
      tally_const (fun _ => rfl)
    exact (Nat.zero_add _).trans none_
  consumed := by
    have none_ : tally ConsumerLoop.found (fun _ : Fin nc => .spinning) = Fintype.card (Fin nc) * 0 :=
      tally_const (fun _ => rfl)
    exact (Nat.zero_add _).trans none_
  ended p finished := nomatch finished

/-- A producer goes on to another place of its loop. -/
theorem Counted.produce (inv : Counted n s) {p : Fin np} {loop : ProducerLoop} {queue : QueueState np nc}
    {ret produced : Nat} (counts : EnqueueCounts s.queue queue p ret) (goes : s.producers p ≠ .finished)
    (balance : produced + loop.pending = s.produced + (s.producers p).pending + ret)
    (ended : loop = .finished → (queue.producers p).todo = []) :
    Counted n ({ s with queue := queue, produced := produced }.produce p loop) where
  enqueued keep := (counts.kept keep).trans (inv.enqueued keep)
  produced := by
    have moved := tally_move ProducerLoop.pending s.producers p loop
    have before := inv.produced
    have grown := counts.enqueued
    simp only [MpmcCount.produce]
    omega
  consumed := by
    have before := inv.consumed
    simp only [MpmcCount.produce, counts.removed]
    exact before
  ended q finished := by
    rcases eq_or_ne q p with rfl | other
    · simp only [MpmcCount.produce, Function.update_self] at finished
      exact ended finished
    · simp only [MpmcCount.produce, Function.update_of_ne other] at finished
      simp only [MpmcCount.produce, counts.others q other]
      exact inv.ended q finished

theorem counted_producer (inv : Counted n s) {p : Fin np} (step : producerStep s p = some t) : Counted n t := by
  have stays : EnqueueCounts s.queue s.queue p 0 := ⟨rfl, rfl, Nat.zero_le 1, fun _ _ => rfl, fun _ => rfl⟩
  unfold producerStep at step
  cases phase : s.producers p with
  | spinning =>
    simp only [phase] at step
    split_ifs at step
    · obtain rfl := Option.some.inj step
      refine inv.produce stays (by simp [phase]) ?_ producerRound_ended
      simp only [phase, producerRound_pending]
      rfl
    · obtain rfl := Option.some.inj step
      exact inv
  | enqueuing =>
    simp only [phase] at step
    cases call : enqueueStep s.queue p with
    | none => simp only [call] at step; cases step
    | some result =>
      obtain ⟨queue, ret⟩ := result
      have counts := enqueue_counts call
      have retries (failed : ret.getD 0 = 0) : Counted n { s with queue := queue } := by
        have goes : Counted n ({ s with queue := queue, produced := s.produced }.produce p (s.producers p)) :=
          inv.produce counts (by simp [phase]) (by rw [failed, Nat.add_zero])
            (fun finished => by simp [phase] at finished)
        simpa only [MpmcCount.produce, Function.update_eq_self] using goes
      simp only [call] at step
      match ret with
      | none =>
        obtain rfl := Option.some.inj step
        exact retries rfl
      | some 0 =>
        obtain rfl := Option.some.inj step
        exact retries rfl
      | some (k + 1) =>
        obtain rfl := Option.some.inj step
        have single := counts.single
        refine inv.produce counts (by simp [phase]) ?_ ProducerLoop.noConfusion
        simp only [phase, ProducerLoop.pending, Option.getD_some] at single ⊢
        omega
  | counting =>
    simp only [phase] at step
    obtain rfl := Option.some.inj step
    refine inv.produce stays (by simp [phase]) ?_ producerRound_ended
    simp only [phase, producerRound_pending]
    rfl
  | finished => simp only [phase] at step; cases step

/-- A consumer goes on to another place of its loop. -/
theorem Counted.consume (inv : Counted n s) {c : Fin nc} {loop : ConsumerLoop} {queue : QueueState np nc}
    {found consumed : Nat} (enqueued : queue.enqueued = s.queue.enqueued) (same : queue.producers = s.queue.producers)
    (removed : queue.removed.countP (fun v => v ≠ 0) = s.queue.removed.countP (fun v => v ≠ 0) + found)
    (balance : consumed + loop.found = s.consumed + (s.consumers c).found + found) :
    Counted n ({ s with queue := queue, consumed := consumed }.consume c loop) where
  enqueued keep := by
    simp only [MpmcCount.consume, enqueued, same]
    exact inv.enqueued keep
  produced := by
    simp only [MpmcCount.consume, enqueued]
    exact inv.produced
  consumed := by
    have moved := tally_move ConsumerLoop.found s.consumers c loop
    have before := inv.consumed
    simp only [MpmcCount.consume, removed]
    omega
  ended p finished := by
    simp only [MpmcCount.consume, same]
    exact inv.ended p finished

/-- A step of mpmc_dequeue after which the local count is what the call found. -/
theorem counted_call (inv : Counted n s) {c : Fin nc} {queue : QueueState np nc} {ret : Option UInt64}
    (call : dequeueStep s.queue c = (queue, ret)) {loop : ConsumerLoop}
    (adds : loop.found = (s.consumers c).found + dequeueFound ret) :
    Counted n ({ s with queue := queue }.consume c loop) := by
  obtain ⟨enqueued, same, removed⟩ := dequeue_counts call
  exact inv.consume enqueued same removed (by rw [adds]; exact (Nat.add_assoc _ _ _).symm)

theorem counted_pending (inv : Counted n s) {c : Fin nc} {queue : QueueState np nc}
    (call : dequeueStep s.queue c = (queue, none)) : Counted n { s with queue := queue } := by
  have stays : Counted n ({ s with queue := queue }.consume c (s.consumers c)) := counted_call inv call rfl
  simpa only [MpmcCount.consume, Function.update_eq_self] using stays

theorem counted_consumer {target : Nat} (inv : Counted n s) {c : Fin nc} (step : consumerStep target s c = some t) :
    Counted n t := by
  have turn (loop : ConsumerLoop) (kept : loop.found = (s.consumers c).found) : Counted n (s.consume c loop) :=
    inv.consume rfl rfl (Nat.add_zero _).symm (by rw [kept, Nat.add_zero])
  unfold consumerStep at step
  cases phase : s.consumers c with
  | spinning =>
    simp only [phase] at step
    split_ifs at step
    · obtain rfl := Option.some.inj step
      exact turn _ (by rw [phase]; rfl)
    · obtain rfl := Option.some.inj step
      exact inv
  | testing found =>
    simp only [phase] at step
    split_ifs at step
    · obtain rfl := Option.some.inj step
      exact turn _ (by rw [phase]; rfl)
    · obtain rfl := Option.some.inj step
      exact turn _ (by rw [phase]; rfl)
  | polling found =>
    simp only [phase] at step
    cases call : dequeueStep s.queue c with
    | mk queue ret =>
      simp only [call] at step
      cases ret with
      | none =>
        obtain rfl := Option.some.inj step
        exact counted_pending inv call
      | some v =>
        simp only at step
        split_ifs at step with nonzero
        · obtain rfl := Option.some.inj step
          exact counted_call inv call (by rw [phase, dequeueFound, if_pos nonzero]; rfl)
        · obtain rfl := Option.some.inj step
          exact counted_call inv call (by rw [phase, dequeueFound, if_neg nonzero]; rfl)
  | draining found =>
    simp only [phase] at step
    cases call : dequeueStep s.queue c with
    | mk queue ret =>
      simp only [call] at step
      cases ret with
      | none =>
        obtain rfl := Option.some.inj step
        exact counted_pending inv call
      | some v =>
        simp only at step
        split_ifs at step with nonzero
        · obtain rfl := Option.some.inj step
          exact counted_call inv call (by rw [phase, dequeueFound, if_pos nonzero]; rfl)
        · obtain rfl := Option.some.inj step
          exact counted_call inv call (by rw [phase, dequeueFound, if_neg nonzero]; rfl)
  | adding found =>
    simp only [phase] at step
    obtain rfl := Option.some.inj step
    apply inv.consume rfl rfl (Nat.add_zero _).symm
    simp only [phase]
    rfl
  | finished => simp only [phase] at step; cases step

theorem counted_reachable {items : Nat → UInt64} {start : Fin queueSize}
    (reachable : (mpmcCount np nc n items start).system.Reachable s) : Counted n s := by
  refine Machine.invariant (Counted n) (counted_start items start) (fun thread s t inv step => ?_) reachable
  cases thread with
  | main => exact Option.some.inj step ▸ { inv with }
  | producer p => exact counted_producer inv step
  | consumer c => exact counted_consumer inv step

end Preserved

end Counts

section Alone
variable {np nc n : Nat} {items : Nat → UInt64} {start : Fin queueSize} {s t : MpmcCount np nc}

theorem producer_queue {p : Fin np} (step : producerStep s p = some t) :
    t.queue = s.queue ∨ ∃ ret, enqueueStep s.queue p = some (t.queue, ret) := by
  unfold producerStep at step
  cases phase : s.producers p with
  | spinning =>
    simp only [phase] at step
    split_ifs at step
    · exact Or.inl (Option.some.inj step ▸ rfl)
    · exact Or.inl (Option.some.inj step ▸ rfl)
  | enqueuing =>
    simp only [phase] at step
    cases call : enqueueStep s.queue p with
    | none => simp only [call] at step; cases step
    | some result =>
      obtain ⟨queue, ret⟩ := result
      simp only [call] at step
      match ret with
      | none => exact Or.inr ⟨none, Option.some.inj step ▸ rfl⟩
      | some 0 => exact Or.inr ⟨some 0, Option.some.inj step ▸ rfl⟩
      | some (k + 1) => exact Or.inr ⟨some (k + 1), Option.some.inj step ▸ rfl⟩
  | counting =>
    simp only [phase] at step
    exact Or.inl (Option.some.inj step ▸ rfl)
  | finished => simp only [phase] at step; cases step

theorem consumer_queue {target : Nat} {c : Fin nc} (step : consumerStep target s c = some t) :
    t.queue = s.queue ∨ t.queue = (dequeueStep s.queue c).1 := by
  unfold consumerStep at step
  cases call : dequeueStep s.queue c with
  | mk queue ret =>
    simp only [call] at step
    split at step
    · split_ifs at step
      · exact Or.inl (Option.some.inj step ▸ rfl)
      · exact Or.inl (Option.some.inj step ▸ rfl)
    · split_ifs at step
      · exact Or.inl (Option.some.inj step ▸ rfl)
      · exact Or.inl (Option.some.inj step ▸ rfl)
    · apply Or.inr
      cases ret with
      | none => exact Option.some.inj step ▸ rfl
      | some v =>
        simp only at step
        split_ifs at step
        · exact Option.some.inj step ▸ rfl
        · exact Option.some.inj step ▸ rfl
    · apply Or.inr
      cases ret with
      | none => exact Option.some.inj step ▸ rfl
      | some v =>
        simp only at step
        split_ifs at step
        · exact Option.some.inj step ▸ rfl
        · exact Option.some.inj step ▸ rfl
    · exact Or.inl (Option.some.inj step ▸ rfl)
    · cases step

/-- The queue of a run of the benchmark runs as the queue alone. -/
theorem queue_reachable (reachable : ((mpmcCount np nc n items start).guarded CallsAlone).Reachable s) :
    (aloneMpmc nc items start (fun _ : Fin np => producerItems n)).Reachable s.queue := by
  induction reachable with
  | refl => exact .refl
  | tail _ step ih =>
    obtain ⟨thread, alone, step⟩ := step
    cases thread with
    | main => exact Option.some.inj step ▸ ih
    | producer p =>
      rcases producer_queue step with same | ⟨ret, call⟩
      · exact same ▸ ih
      · exact ih.tail (.enqueue p alone call)
    | consumer c =>
      rcases consumer_queue step with same | call
      · exact same ▸ ih
      · exact ih.tail (call ▸ .dequeue c alone)

theorem producerItems_length (n : Nat) : (producerItems n).length = n := by
  simp only [producerItems, List.length_map, List.length_range]

theorem zero_first (positive : 1 ≤ n) : 1 ≤ (producerItems n).countP (fun v => v = 0) := by
  refine List.countP_pos_iff.mpr ⟨0, ?_, by decide⟩
  exact List.mem_map.mpr ⟨0, List.mem_range.mpr positive, rfl⟩

/-- When all threads have finished, the items 0 are missing from the count. -/
theorem finished_missing (positive : 1 ≤ n)
    (reachable : ((mpmcCount np nc n items start).guarded CallsAlone).Reachable s) (finished : s.Finished) :
    s.produced = np * n ∧ s.consumed + np ≤ s.produced := by
  have counted := counted_reachable (Machine.guarded_reachable reachable)
  have fifo := alone_fifo (queue_reachable reachable)
  have none_left (keep : UInt64 → Bool) : s.queue.enqueued.countP keep = np * (producerItems n).countP keep := by
    have ended : tally (Producer.left keep) s.queue.producers = Fintype.card (Fin np) * 0 :=
      tally_const (fun p => by rw [Producer.left, counted.ended p (finished.1 p)]; rfl)
    have all := counted.enqueued keep
    simp only [ended, Nat.mul_zero, Nat.add_zero] at all
    exact all
  have produced : s.produced = s.queue.enqueued.length := by
    have none_ : tally ProducerLoop.pending s.producers = Fintype.card (Fin np) * 0 :=
      tally_const (fun p => by rw [finished.1 p]; rfl)
    have all := counted.produced
    simp only [none_] at all
    exact all
  have consumed : s.consumed = s.queue.removed.countP (fun v => v ≠ 0) := by
    have none_ : tally ConsumerLoop.found s.consumers = Fintype.card (Fin nc) * 0 :=
      tally_const (fun c => by rw [finished.2 c]; rfl)
    have all := counted.consumed
    simp only [none_] at all
    exact all
  have length : s.queue.enqueued.length = np * n := by
    have all := none_left (fun _ => true)
    simp only [List.countP_true, producerItems_length] at all
    exact all
  have fewer : s.queue.removed.countP (fun v => v ≠ 0) ≤ s.queue.enqueued.countP (fun v => v ≠ 0) := by
    simp only [← fifo.holds, List.countP_append]
    exact Nat.le_add_right _ _
  have zeros : np ≤ s.queue.enqueued.countP (fun v => v = 0) := by
    simp only [none_left]
    exact Nat.le_mul_of_pos_right np (zero_first positive)
  have parts := List.length_eq_countP_add_countP (fun v : UInt64 => decide (v = 0)) (l := s.queue.enqueued)
  have same : s.queue.enqueued.countP (fun v => ¬ decide (v = 0) = true) =
      s.queue.enqueued.countP (fun v => v ≠ 0) := by
    simp only [decide_eq_true_eq, ne_eq]
  omega

end Alone

/- A run to the end in which the items go through the queue one by one. -/
section Relay
variable {np nc n : Nat} {items : Nat → UInt64} {start : Fin queueSize} {s t : MpmcCount np nc}

def Walks (n : Nat) (items : Nat → UInt64) (start : Fin queueSize) (s t : MpmcCount np nc) : Prop :=
  Relation.ReflTransGen ((mpmcCount np nc n items start).guarded CallsAlone).step s t

theorem walk_producer {p : Fin np} (alone : EnqueueAlone s.queue p) (step : producerStep s p = some t) :
    Walks n items start s t := .single ⟨.producer p, alone, step⟩

theorem walk_consumer {c : Fin nc} (alone : DequeueAlone s.queue c) (step : consumerStep (np * n) s c = some t) :
    Walks n items start s t := .single ⟨.consumer c, alone, step⟩

theorem enqueueAlone_unloaded {q : QueueState np nc} {p : Fin np}
    (unloaded : ∀ t stores, (q.producers p).phase ≠ .loadedTail t stores) : EnqueueAlone q p :=
  fun t stores loaded => absurd loaded (unloaded t stores)

theorem dequeueAlone_unloaded {q : QueueState np nc} {c : Fin nc}
    (unloaded : ∀ h stores, q.consumers c ≠ .loadedHead h stores) : DequeueAlone q c :=
  fun h stores loaded => absurd loaded (unloaded h stores)

theorem enqueueAlone_outside {q : QueueState np nc} {p : Fin np} (outside : (q.producers p).phase = .outside) :
    EnqueueAlone q p := by
  apply enqueueAlone_unloaded
  intro t stores loaded
  cases outside.symm.trans loaded

theorem dequeueAlone_outside {q : QueueState np nc} {c : Fin nc} (outside : q.consumers c = .outside) :
    DequeueAlone q c := by
  apply dequeueAlone_unloaded
  intro h stores loaded
  cases outside.symm.trans loaded

theorem producer_goes_on {p : Fin np} {queue : QueueState np nc} (loop : s.producers p = .enqueuing)
    (call : enqueueStep s.queue p = some (queue, none)) : producerStep s p = some { s with queue := queue } := by
  simp only [producerStep, loop, call]

theorem producer_returns {p : Fin np} {queue : QueueState np nc} (loop : s.producers p = .enqueuing)
    (call : enqueueStep s.queue p = some (queue, some 1)) :
    producerStep s p = some ({ s with queue := queue }.produce p .counting) := by
  simp only [producerStep, loop, call]

/-- A call of mpmc_enqueue on the empty queue with all other threads outside of it. -/
theorem enqueue_walk {p : Fin np} {item : UInt64} {rest : List UInt64} (loop : s.producers p = .enqueuing)
    (todo : (s.queue.producers p).todo = item :: rest) (empty : s.queue.head = s.queue.tail)
    (within : s.queue.tail < queueSize) (outside : ∀ q, (s.queue.producers q).phase = .outside) :
    Walks n items start s ({ s with queue := { s.queue with
      items := Function.update s.queue.items s.queue.tail item
      tail := next queueSize s.queue.tail
      enqueued := s.queue.enqueued ++ [item] }.enter p rest .outside }.produce p .counting) := by
  let loaded := s.queue.enter p (item :: rest) (.loadedTail s.queue.tail s.queue.enqueued.length)
  let passed := s.queue.enter p (item :: rest) (.passed s.queue.tail)
  let stored := { s.queue with items := Function.update s.queue.items s.queue.tail item }.enter p (item :: rest)
    (.stored s.queue.tail)
  have room : next queueSize s.queue.tail ≠ s.queue.head := by
    simp only [empty]
    exact next_ne within (by decide)
  have load : enqueueStep s.queue p = some (loaded, none) := by
    simp only [enqueueStep, todo, outside p, loaded]
  have pass : enqueueStep loaded p = some (passed, none) := by
    simp only [enqueueStep, loaded, QueueState.enter, Function.update_self, if_neg room, Function.update_idem, passed]
  have store : enqueueStep passed p = some (stored, none) := by
    simp only [enqueueStep, passed, QueueState.enter, Function.update_self, Function.update_idem, stored]
  have alone : EnqueueAlone loaded p := by
    intro t stores phase _
    simp only [loaded, QueueState.enter, Function.update_self, EnqueuePhase.loadedTail.injEq] at phase
    refine ⟨phase.2.symm, fun q => ?_⟩
    rcases eq_or_ne q p with rfl | other
    · simp only [loaded, QueueState.enter, Function.update_self, EnqueuePhase.committed]
    · simp only [loaded, QueueState.enter, Function.update_of_ne other, outside q, EnqueuePhase.committed]
  have first : Walks n items start s { s with queue := loaded } :=
    walk_producer (enqueueAlone_outside (outside p)) (producer_goes_on loop load)
  have second : Walks n items start { s with queue := loaded } { s with queue := passed } :=
    walk_producer alone (producer_goes_on loop pass)
  have third : Walks n items start { s with queue := passed } { s with queue := stored } := by
    refine walk_producer (enqueueAlone_unloaded (fun t stores => ?_)) (producer_goes_on loop store)
    simp only [passed, QueueState.enter, Function.update_self]
    exact EnqueuePhase.noConfusion
  have quiet : EnqueueAlone stored p := by
    refine enqueueAlone_unloaded (fun t stores => ?_)
    simp only [stored, QueueState.enter, Function.update_self]
    exact EnqueuePhase.noConfusion
  refine first.trans (second.trans (third.trans (walk_producer quiet (producer_returns loop ?_))))
  simp only [enqueueStep, stored, QueueState.enter, Function.update_self, Function.update_idem]

/-- A call of mpmc_dequeue of a consumer that polls, with all other threads outside of it. -/
theorem dequeue_walk (items : Nat → UInt64) (start : Fin queueSize) {c : Fin nc} {found : Nat}
    (loop : s.consumers c = .polling found)
    (filled : s.queue.head ≠ s.queue.tail) (outside : ∀ d, s.queue.consumers d = .outside) :
    ∃ found', Walks n items start s ({ s with queue := { s.queue with
      head := next queueSize s.queue.head
      removed := s.queue.removed ++ [s.queue.items s.queue.head] }.turn c .outside }.consume c (.testing found')) := by
  let loaded := s.queue.turn c (.loadedHead s.queue.head s.queue.removed.length)
  let passed := s.queue.turn c (.passed s.queue.head)
  let read := s.queue.turn c (.loadedItem s.queue.head (s.queue.items s.queue.head))
  have load : dequeueStep s.queue c = (loaded, none) := by
    simp only [dequeueStep, outside c, loaded]
  have pass : dequeueStep loaded c = (passed, none) := by
    simp only [dequeueStep, loaded, QueueState.turn, Function.update_self, if_neg filled, Function.update_idem, passed]
  have take : dequeueStep passed c = (read, none) := by
    simp only [dequeueStep, passed, QueueState.turn, Function.update_self, Function.update_idem, read]
  have polls {q t : QueueState np nc} (call : dequeueStep q c = (t, none)) :
      consumerStep (np * n) { s with queue := q } c = some { s with queue := t } := by
    simp only [consumerStep, loop, call]
  have alone : DequeueAlone loaded c := by
    intro h stores phase _
    simp only [loaded, QueueState.turn, Function.update_self, DequeuePhase.loadedHead.injEq] at phase
    refine ⟨phase.2.symm, fun d => ?_⟩
    rcases eq_or_ne d c with rfl | other
    · simp only [loaded, QueueState.turn, Function.update_self, DequeuePhase.committed]
    · simp only [loaded, QueueState.turn, Function.update_of_ne other, outside d, DequeuePhase.committed]
  have first : Walks n items start s { s with queue := loaded } :=
    walk_consumer (dequeueAlone_outside (outside c)) (polls load)
  have second : Walks n items start { s with queue := loaded } { s with queue := passed } :=
    walk_consumer alone (polls pass)
  have third : Walks n items start { s with queue := passed } { s with queue := read } := by
    refine walk_consumer (dequeueAlone_unloaded (fun t stores => ?_)) (polls take)
    simp only [passed, QueueState.turn, Function.update_self]
    exact DequeuePhase.noConfusion
  have quiet : DequeueAlone read c := by
    refine dequeueAlone_unloaded (fun t stores => ?_)
    simp only [read, QueueState.turn, Function.update_self]
    exact DequeuePhase.noConfusion
  have store : dequeueStep read c = ({ s.queue with
      head := next queueSize s.queue.head
      removed := s.queue.removed ++ [s.queue.items s.queue.head] }.turn c .outside,
      some (s.queue.items s.queue.head)) := by
    simp only [dequeueStep, read, QueueState.turn, Function.update_self, Function.update_idem]
  by_cases zero : s.queue.items s.queue.head = 0
  · refine ⟨found, first.trans (second.trans (third.trans (walk_consumer quiet ?_)))⟩
    simp only [consumerStep, loop, store, zero, ne_eq, not_true, if_false]
  · refine ⟨found + 1, first.trans (second.trans (third.trans (walk_consumer quiet ?_)))⟩
    simp only [consumerStep, loop, store, ne_eq, zero, not_false_eq_true, if_true]

/-- Between two items: the queue is empty, and whoever has left the spin loop is at its test. -/
structure Relayed (n : Nat) (s : MpmcCount np nc) : Prop where
  ready : s.ready = true
  empty : s.queue.head = s.queue.tail
  within : s.queue.tail < queueSize
  producers_outside : ∀ p, (s.queue.producers p).phase = .outside
  consumers_outside : ∀ c, s.queue.consumers c = .outside
  rounds : ∀ p, s.producers p = .spinning ∧ (s.queue.producers p).todo ≠ [] ∨
    s.producers p = producerRound (s.queue.producers p).todo
  tests : ∀ c, s.consumers c = .spinning ∨ ∃ found, s.consumers c = .testing found
  produced : s.produced + tally (Producer.left fun _ => true) s.queue.producers = np * n

/-- A consumer comes to its first call. -/
theorem consumer_polls (items : Nat → UInt64) (start : Fin queueSize) {c : Fin nc} (ready : s.ready = true)
    (outside : s.queue.consumers c = .outside)
    (more : s.produced < np * n) (tests : s.consumers c = .spinning ∨ ∃ found, s.consumers c = .testing found) :
    ∃ found, Walks n items start s (s.consume c (.polling found)) := by
  have quiet : DequeueAlone s.queue c := dequeueAlone_outside outside
  rcases tests with spins | ⟨found, tests⟩
  · have leaves : Walks n items start s (s.consume c (.testing 0)) := by
      apply walk_consumer quiet
      simp only [consumerStep, spins, ready, if_true]
    refine ⟨0, leaves.trans (walk_consumer quiet ?_)⟩
    simp only [consumerStep, MpmcCount.consume, Function.update_self, if_pos more, Function.update_idem]
  · refine ⟨found, walk_consumer quiet ?_⟩
    simp only [consumerStep, tests, if_pos more]

/-- A producer with items to come is about to enqueue one. -/
theorem producer_opens {p : Fin np} {item : UInt64} {rest : List UInt64} (ready : s.ready = true)
    (outside : (s.queue.producers p).phase = .outside) (todo : (s.queue.producers p).todo = item :: rest)
    (round : s.producers p = .spinning ∨ s.producers p = producerRound (s.queue.producers p).todo) :
    Walks n items start s (s.produce p .enqueuing) := by
  have quiet : EnqueueAlone s.queue p := enqueueAlone_outside outside
  rcases round with spins | there
  · apply walk_producer quiet
    simp only [producerStep, spins, ready, if_true, todo, producerRound]
  · simp only [todo] at there
    have same : Function.update s.producers p .enqueuing = s.producers := Function.update_eq_self_iff.mpr there.symm
    simp only [MpmcCount.produce, same]
    exact .refl

/-- One item goes through the empty queue. -/
theorem relay_item (items : Nat → UInt64) (start : Fin queueSize) (relayed : Relayed n s) {p : Fin np} {item : UInt64}
    {rest : List UInt64} (todo : (s.queue.producers p).todo = item :: rest) (c : Fin nc) :
    ∃ t, Walks n items start s t ∧ Relayed n t ∧ tally (Producer.left fun _ => true) t.queue.producers + 1 =
      tally (Producer.left fun _ => true) s.queue.producers := by
  obtain ⟨ready, empty, within, producers_outside, consumers_outside, rounds, tests, produced⟩ := relayed
  have own := le_tally (Producer.left fun _ => true) s.queue.producers p
  have moved := tally_move (Producer.left fun _ => true) s.queue.producers p ⟨rest, .outside⟩
  simp only [Producer.left, todo, List.countP_true, List.length_cons] at own moved
  have more : s.produced < np * n := by omega
  obtain ⟨found, polls⟩ := consumer_polls items start ready (consumers_outside c) more (tests c)
  let polling := s.consume c (.polling found)
  let opened := polling.produce p .enqueuing
  have opens : Walks n items start polling opened :=
    producer_opens ready (producers_outside p) todo ((rounds p).imp_left And.left)
  let filled : QueueState np nc := { s.queue with
    items := Function.update s.queue.items s.queue.tail item
    tail := next queueSize s.queue.tail
    enqueued := s.queue.enqueued ++ [item] }.enter p rest .outside
  let counting := { opened with queue := filled }.produce p .counting
  have enqueues : Walks n items start opened counting :=
    enqueue_walk (Function.update_self p _ _) todo empty within producers_outside
  let counted := { counting with produced := s.produced + 1 }.produce p (producerRound rest)
  have filled_own : filled.producers p = ⟨rest, .outside⟩ := Function.update_self p _ _
  have filled_other {q : Fin np} (other : q ≠ p) : filled.producers q = s.queue.producers q :=
    Function.update_of_ne other _ _
  have counts : Walks n items start counting counted := by
    have quiet : EnqueueAlone counting.queue p := enqueueAlone_outside (congrArg Producer.phase filled_own)
    apply walk_producer quiet
    have phase : counting.producers p = .counting := Function.update_self p _ _
    have left : (counting.queue.producers p).todo = rest := congrArg Producer.todo filled_own
    simp only [producerStep, phase, left]
    rfl
  have phase : counted.consumers c = .polling found := Function.update_self c _ _
  have room : filled.head ≠ filled.tail := by
    simp only [filled, QueueState.enter, empty]
    exact (next_ne within (by decide)).symm
  obtain ⟨found', takes⟩ := dequeue_walk items start phase room consumers_outside
  have shorter : tally (Producer.left fun _ => true) filled.producers + 1 =
      tally (Producer.left fun _ => true) s.queue.producers := by
    simp only [filled, QueueState.enter]
    omega
  have others {q : Fin np} (other : q ≠ p) : counted.producers q = s.producers q := by
    simp only [counted, counting, opened, polling, MpmcCount.produce, MpmcCount.consume, Function.update_of_ne other]
  refine ⟨_, polls.trans (opens.trans (enqueues.trans (counts.trans takes))), ?_, shorter⟩
  refine ⟨ready, congrArg (next queueSize) empty, next_lt within, fun q => ?_, fun d => ?_, fun q => ?_, fun d => ?_,
    ?_⟩
  · rcases eq_or_ne q p with rfl | other
    · exact congrArg Producer.phase filled_own
    · exact (congrArg Producer.phase (filled_other other)).trans (producers_outside q)
  · rcases eq_or_ne d c with rfl | other
    · exact Function.update_self d _ _
    · exact (Function.update_of_ne other _ _).trans (consumers_outside d)
  · rcases eq_or_ne q p with rfl | other
    · refine Or.inr ((Function.update_self q _ _).trans ?_)
      exact (congrArg (fun p => producerRound p.todo) filled_own).symm
    · have round := rounds q
      simp only [← others other, ← filled_other other] at round
      exact round
  · rcases eq_or_ne d c with rfl | other
    · exact Or.inr ⟨found', Function.update_self d _ _⟩
    · have same : counted.consumers d = s.consumers d := Function.update_of_ne other _ _
      have test := tests d
      rw [← same] at test
      simpa only [MpmcCount.consume, Function.update_of_ne other] using test
  · have sum : s.produced + 1 + tally (Producer.left fun _ => true) filled.producers = np * n := by omega
    exact sum

/-- All items go through the queue. -/
theorem relay_all (items : Nat → UInt64) (start : Fin queueSize) (c : Fin nc) (k : Nat) (relayed : Relayed n s)
    (left : tally (Producer.left fun _ => true) s.queue.producers = k) :
    ∃ t, Walks n items start s t ∧ Relayed n t ∧ tally (Producer.left fun _ => true) t.queue.producers = 0 := by
  induction k generalizing s with
  | zero => exact ⟨s, .refl, relayed, left⟩
  | succ k ih =>
    obtain ⟨p, item, rest, todo⟩ : ∃ p item rest, (s.queue.producers p).todo = item :: rest := by
      by_contra none_
      have ended : tally (Producer.left fun _ => true) s.queue.producers = Fintype.card (Fin np) * 0 := by
        refine tally_const (fun p => ?_)
        cases todo : (s.queue.producers p).todo with
        | nil => rw [Producer.left, todo]; rfl
        | cons item rest => exact absurd ⟨p, item, rest, todo⟩ none_
      omega
    obtain ⟨next, walk, relayed', fewer⟩ := relay_item items start relayed todo c
    obtain ⟨t, walk', ended⟩ := ih relayed' (by omega)
    exact ⟨t, walk.trans walk', ended⟩

/-- All items are through, and some consumers have finished. -/
structure Drained (n : Nat) (s : MpmcCount np nc) : Prop where
  ready : s.ready = true
  empty : s.queue.head = s.queue.tail
  outside : ∀ c, s.queue.consumers c = .outside
  producers : ∀ p, s.producers p = .finished
  produced : s.produced = np * n
  consumers : ∀ c, s.consumers c = .finished ∨ s.consumers c = .spinning ∨ ∃ found, s.consumers c = .testing found

theorem Relayed.drained (relayed : Relayed n s) (ended : tally (Producer.left fun _ => true) s.queue.producers = 0) :
    Drained n s where
  ready := relayed.ready
  empty := relayed.empty
  outside := relayed.consumers_outside
  producers p := by
    have own := le_tally (Producer.left fun _ => true) s.queue.producers p
    simp only [ended, Producer.left, List.countP_true] at own
    have todo : (s.queue.producers p).todo = [] := List.eq_nil_of_length_eq_zero (Nat.le_zero.mp own)
    rcases relayed.rounds p with ⟨_, more⟩ | round
    · exact absurd todo more
    · simp only [round, todo]
      rfl
  produced := by
    have sum := relayed.produced
    omega
  consumers c := Or.inr (relayed.tests c)

/-- One more consumer finds the queue empty and finishes. -/
theorem consumer_ends (items : Nat → UInt64) (start : Fin queueSize) (drained : Drained n s) (c : Fin nc) :
    ∃ t, Walks n items start s t ∧ Drained n t ∧ t.consumers c = .finished ∧
      ∀ d, d ≠ c → t.consumers d = s.consumers d := by
  obtain ⟨ready, empty, outside, producers, produced, consumers⟩ := drained
  have quiet : DequeueAlone s.queue c := dequeueAlone_outside (outside c)
  have all : ¬ s.produced < np * n := by omega
  rcases consumers c with finished | tests
  · exact ⟨s, .refl, ⟨ready, empty, outside, producers, produced, consumers⟩, finished, fun _ _ => rfl⟩
  · obtain ⟨found, drains⟩ : ∃ found, Walks n items start s (s.consume c (.draining found)) := by
      rcases tests with spins | ⟨found, tests⟩
      · have leaves : Walks n items start s (s.consume c (.testing 0)) := by
          apply walk_consumer quiet
          simp only [consumerStep, spins, ready, if_true]
        refine ⟨0, leaves.trans (walk_consumer quiet ?_)⟩
        simp only [consumerStep, MpmcCount.consume, Function.update_self, if_neg all, Function.update_idem]
      · refine ⟨found, walk_consumer quiet ?_⟩
        simp only [consumerStep, tests, if_neg all]
    let draining := s.consume c (.draining found)
    have phase : draining.consumers c = .draining found := Function.update_self c _ _
    let loaded := s.queue.turn c (.loadedHead s.queue.head s.queue.removed.length)
    have load : dequeueStep s.queue c = (loaded, none) := by
      simp only [dequeueStep, outside c, loaded]
    have refuse : dequeueStep loaded c = (s.queue.turn c .outside, some 0) := by
      simp only [dequeueStep, loaded, QueueState.turn, Function.update_self, empty, if_true, Function.update_idem]
    have loads : Walks n items start draining { draining with queue := loaded } := by
      refine walk_consumer quiet ?_
      have same : draining.queue = s.queue := rfl
      simp only [consumerStep, phase, same, load]
    have alone : DequeueAlone loaded c := by
      intro h stores phase apart
      simp only [loaded, QueueState.turn, Function.update_self, DequeuePhase.loadedHead.injEq] at phase
      exact absurd (phase.1.symm.trans empty) apart
    let adding := { draining with queue := s.queue.turn c .outside }.consume c (.adding found)
    have adds : Walks n items start { draining with queue := loaded } adding := by
      apply walk_consumer alone
      simp only [consumerStep, phase, refuse, ne_eq, not_true, if_false, adding]
    let ended := { adding with consumed := s.consumed + found }.consume c .finished
    have still (d : Fin nc) : ended.queue.consumers d = .outside := by
      rcases eq_or_ne d c with rfl | other
      · exact Function.update_self d _ _
      · exact (Function.update_of_ne other _ _).trans (outside d)
    have ends : Walks n items start adding ended := by
      have quiet : DequeueAlone adding.queue c := dequeueAlone_outside (still c)
      apply walk_consumer quiet
      have phase : adding.consumers c = .adding found := Function.update_self c _ _
      simp only [consumerStep, phase]
      rfl
    have others {d : Fin nc} (other : d ≠ c) : ended.consumers d = s.consumers d := by
      simp only [ended, adding, draining, MpmcCount.consume, Function.update_of_ne other]
    have own : ended.consumers c = .finished := Function.update_self c _ _
    have walk := drains.trans (loads.trans (adds.trans ends))
    refine ⟨ended, walk, ⟨ready, empty, still, producers, produced, fun d => ?_⟩, own, fun d => others⟩
    rcases eq_or_ne d c with rfl | other
    · exact Or.inl own
    · simp only [others other]
      exact consumers d

theorem all_end (items : Nat → UInt64) (start : Fin queueSize) (drained : Drained n s) (k : Nat) (within : k ≤ nc) :
    ∃ t, Walks n items start s t ∧ Drained n t ∧ ∀ c : Fin nc, c < k → t.consumers c = .finished := by
  induction k with
  | zero => exact ⟨s, .refl, drained, fun c below => absurd below (Nat.not_lt_zero c)⟩
  | succ k ih =>
    obtain ⟨t, walk, drained, ended⟩ := ih (by omega)
    obtain ⟨u, walk', drained', last, others⟩ := consumer_ends items start drained ⟨k, by omega⟩
    refine ⟨u, walk.trans walk', drained', fun c below => ?_⟩
    rcases eq_or_ne c ⟨k, by omega⟩ with same | other
    · simp only [same]
      exact last
    · have apart : (c : Nat) ≠ k := fun same => other (Fin.ext same)
      exact (others c other).trans (ended c (by omega))

theorem relayed_start (rounds : 1 ≤ n) (items : Nat → UInt64) (start : Fin queueSize) :
    Relayed n { (mpmcCount np nc n items start).start with ready := true } where
  ready := rfl
  empty := rfl
  within := start.isLt
  producers_outside _ := rfl
  consumers_outside _ := rfl
  rounds p := by
    refine Or.inl ⟨rfl, fun none_ => ?_⟩
    have length : (producerItems n).length = 0 := congrArg List.length none_
    simp only [producerItems_length] at length
    omega
  tests _ := Or.inl rfl
  produced := by
    have counted : Counted n (mpmcCount np nc n items start).start := counted_start items start
    have all := counted.enqueued (fun _ => true)
    simp only [List.countP_true, producerItems_length] at all
    exact all

/-- There is a run in which all threads finish and no call is in the way of another one. -/
theorem alone_terminates (np : Nat) (consumers : 1 ≤ nc) (rounds : 1 ≤ n) (items : Nat → UInt64)
    (start : Fin queueSize) :
    ∃ s : MpmcCount np nc, ((mpmcCount np nc n items start).guarded CallsAlone).Reachable s ∧ s.Finished := by
  have begins : Walks n items start (mpmcCount np nc n items start).start
      { (mpmcCount np nc n items start).start with ready := true } := .single ⟨.main, trivial, rfl⟩
  obtain ⟨t, relay, relayed, left⟩ := relay_all items start ⟨0, consumers⟩ _ (relayed_start rounds items start) rfl
  obtain ⟨u, drain, drained, ended⟩ := all_end items start (relayed.drained left) nc (Nat.le_refl nc)
  exact ⟨u, begins.trans (relay.trans drain), drained.producers, fun c => ended c c.isLt⟩

end Relay

/-- For no number of producers, consumers and items does every run that ends report all items: the
item 0 of each producer counts as the answer of an empty queue. Where no call is in the way of
another one, every run that ends misses at least these. -/
theorem count_falls_short (np nc n : Nat) (producers : 1 ≤ np) (consumers : 1 ≤ nc) (rounds : 1 ≤ n)
    (items : Nat → UInt64) (start : Fin queueSize) :
    (¬ ∀ s : MpmcCount np nc, (mpmcCount np nc n items start).system.Reachable s → s.Finished →
      s.produced = np * n ∧ s.consumed = s.produced ∧ s.queue.contents = []) ∧
    ∀ s : MpmcCount np nc, ((mpmcCount np nc n items start).guarded CallsAlone).Reachable s → s.Finished →
      s.produced = np * n ∧ s.consumed + np ≤ s.produced := by
  refine ⟨fun complete => ?_, fun s reachable finished => finished_missing rounds reachable finished⟩
  obtain ⟨s, reachable, finished⟩ := alone_terminates np consumers rounds items start
  have missing := finished_missing rounds reachable finished
  have all := complete s (Machine.guarded_reachable reachable) finished
  omega

/-- One producer and one consumer, with as many items as the benchmark sends. -/
theorem shipped_count_falls_short :
    ∃ s : MpmcCount 1 1, (mpmcCount 1 1 opsPerProducer (fun _ => 0) 0).system.Reachable s ∧ s.Finished ∧
      s.consumed ≠ s.produced := by
  have rounds : 1 ≤ opsPerProducer := by decide
  obtain ⟨s, reachable, finished⟩ := alone_terminates 1 (Nat.le_refl 1) rounds (fun _ => 0) 0
  have missing := finished_missing rounds reachable finished
  exact ⟨s, Machine.guarded_reachable reachable, finished, by omega⟩

theorem shipped_incomplete : ¬ ∀ s : MpmcCount 1 1,
    (mpmcCount 1 1 opsPerProducer (fun _ => 0) 0).system.Reachable s → s.Finished →
      s.produced = 1 * opsPerProducer ∧ s.consumed = s.produced ∧ s.queue.contents = [] :=
  (count_falls_short 1 1 opsPerProducer (Nat.le_refl 1) (Nat.le_refl 1) (by decide) (fun _ => 0) 0).1

end ServMark
