import ServMark.Library.Ring
import ServMark.Library.Transition

/-! The queue of sync_mpmc.c. Each atomic load and store of mpmc_enqueue and mpmc_dequeue is a
step of its own, and the steps of any number of producers and consumers interleave. -/
namespace ServMark
open Ring Transition

abbrev queueSize : Nat := 1024

/-- Where a call of mpmc_enqueue stands. Beside the loaded tail stands how often tail had been
stored before, which no step reads. -/
inductive EnqueuePhase where
  | outside
  | loadedTail (t stores : Nat)
  | passed (t : Nat)
  | stored (t : Nat)
  deriving DecidableEq

inductive DequeuePhase where
  | outside
  | loadedHead (h stores : Nat)
  | passed (h : Nat)
  | loadedItem (h : Nat) (item : UInt64)
  deriving DecidableEq

/-- A producer and the items it has still to enqueue; the first is retried until it is in. -/
structure Producer where
  todo : List UInt64
  phase : EnqueuePhase

/- The queue with its users. The items of the enqueue calls that returned 1 and those of the
dequeue calls that advanced head are recorded in the order of these stores. -/
structure QueueState (np nc : Nat) where
  items : Nat → UInt64
  head : Nat
  tail : Nat
  producers : Fin np → Producer
  consumers : Fin nc → DequeuePhase
  enqueued : List UInt64
  removed : List UInt64

section Steps
variable {np nc : Nat}

def QueueState.contents (s : QueueState np nc) : List UInt64 := Ring.contents queueSize s.items s.head s.tail

def QueueState.enter (s : QueueState np nc) (p : Fin np) (todo : List UInt64) (phase : EnqueuePhase) :
    QueueState np nc :=
  { s with producers := Function.update s.producers p ⟨todo, phase⟩ }

def QueueState.turn (s : QueueState np nc) (c : Fin nc) (phase : DequeuePhase) : QueueState np nc :=
  { s with consumers := Function.update s.consumers c phase }

/-- The next step of mpmc_enqueue in producer p, and what the call returns if it ends there. -/
def enqueueStep (s : QueueState np nc) (p : Fin np) : Option (QueueState np nc × Option Nat) :=
  match (s.producers p).todo with
  | [] => none
  | item :: rest =>
    match (s.producers p).phase with
    | .outside => some (s.enter p (item :: rest) (.loadedTail s.tail s.enqueued.length), none)
    | .loadedTail t _ =>
      if next queueSize t = s.head then some (s.enter p (item :: rest) .outside, some 0)
      else some (s.enter p (item :: rest) (.passed t), none)
    | .passed t =>
      some ({ s with items := Function.update s.items t item }.enter p (item :: rest) (.stored t), none)
    | .stored t =>
      some ({ s with tail := next queueSize t, enqueued := s.enqueued ++ [item] }.enter p rest .outside, some 1)

/-- The next step of mpmc_dequeue in consumer c, and what the call returns if it ends there. -/
def dequeueStep (s : QueueState np nc) (c : Fin nc) : QueueState np nc × Option UInt64 :=
  match s.consumers c with
  | .outside => (s.turn c (.loadedHead s.head s.removed.length), none)
  | .loadedHead h _ => if h = s.tail then (s.turn c .outside, some 0) else (s.turn c (.passed h), none)
  | .passed h => (s.turn c (.loadedItem h (s.items h)), none)
  | .loadedItem h item =>
    ({ s with head := next queueSize h, removed := s.removed ++ [item] }.turn c .outside, some item)

inductive QueueStep (s : QueueState np nc) : QueueState np nc → Prop
  | enqueue (p : Fin np) {t : QueueState np nc} {ret : Option Nat} (step : enqueueStep s p = some (t, ret)) :
      QueueStep s t
  | dequeue (c : Fin nc) : QueueStep s (dequeueStep s c).1

/-- The empty queue somewhere in the array, as init or earlier rounds leave it, and the lists of
the producers. -/
def emptyQueue (items : Nat → UInt64) (start : Fin queueSize) (lists : Fin np → List UInt64) : QueueState np nc where
  items := items
  head := start
  tail := start
  producers := fun p => ⟨lists p, .outside⟩
  consumers := fun _ => .outside
  enqueued := []
  removed := []

def mpmc (nc : Nat) (items : Nat → UInt64) (start : Fin queueSize) (lists : Fin np → List UInt64) :
    System (QueueState np nc) :=
  ⟨emptyQueue items start lists, QueueStep⟩

/-- Past the test for a full queue, with the store of tail to come. -/
def EnqueuePhase.committed : EnqueuePhase → Bool
  | .outside => false
  | .loadedTail _ _ => false
  | .passed _ => true
  | .stored _ => true

def DequeuePhase.committed : DequeuePhase → Bool
  | .outside => false
  | .loadedHead _ _ => false
  | .passed _ => true
  | .loadedItem _ _ => true

/-- If the next step of p commits its call, no other call is committed and none has stored tail
since p loaded it. -/
def EnqueueAlone (s : QueueState np nc) (p : Fin np) : Prop :=
  ∀ t stores, (s.producers p).phase = .loadedTail t stores → next queueSize t ≠ s.head →
    stores = s.enqueued.length ∧ ∀ q, (s.producers q).phase.committed = false

def DequeueAlone (s : QueueState np nc) (c : Fin nc) : Prop :=
  ∀ h stores, s.consumers c = .loadedHead h stores → h ≠ s.tail →
    stores = s.removed.length ∧ ∀ d, (s.consumers d).committed = false

/-- The steps by which calls that change the queue follow each other. -/
inductive AloneStep (s : QueueState np nc) : QueueState np nc → Prop
  | enqueue (p : Fin np) {t : QueueState np nc} {ret : Option Nat} (alone : EnqueueAlone s p)
      (step : enqueueStep s p = some (t, ret)) : AloneStep s t
  | dequeue (c : Fin nc) (alone : DequeueAlone s c) : AloneStep s (dequeueStep s c).1

def aloneMpmc (nc : Nat) (items : Nat → UInt64) (start : Fin queueSize) (lists : Fin np → List UInt64) :
    System (QueueState np nc) :=
  ⟨emptyQueue items start lists, AloneStep⟩

end Steps

/- What a call that is under way knows of the queue. -/
def EnqueueKnows (items : Nat → UInt64) (head tail stores : Nat) (p : Producer) : Prop :=
  match p.phase with
  | .outside => True
  | .loadedTail t seen => seen ≤ stores ∧ (seen = stores → t = tail)
  | .passed t => t = tail ∧ next queueSize tail ≠ head
  | .stored t => t = tail ∧ next queueSize tail ≠ head ∧ ∀ item ∈ p.todo.head?, items t = item

def DequeueKnows (items : Nat → UInt64) (head tail stores : Nat) : DequeuePhase → Prop
  | .outside => True
  | .loadedHead h seen => seen ≤ stores ∧ (seen = stores → h = head)
  | .passed h => h = head ∧ head ≠ tail
  | .loadedItem h item => h = head ∧ head ≠ tail ∧ items h = item

/-- The queue holds what was enqueued and not yet removed, in order. -/
structure Fifo {np nc : Nat} (s : QueueState np nc) : Prop where
  head_in : s.head < queueSize
  tail_in : s.tail < queueSize
  holds : s.removed ++ s.contents = s.enqueued
  producers : ∀ p, EnqueueKnows s.items s.head s.tail s.enqueued.length (s.producers p)
  consumers : ∀ c, DequeueKnows s.items s.head s.tail s.removed.length (s.consumers c)
  one_producer : ∀ p q, (s.producers p).phase.committed = true → (s.producers q).phase.committed = true → p = q
  one_consumer : ∀ c d, (s.consumers c).committed = true → (s.consumers d).committed = true → c = d

section Moves
variable {np nc : Nat}

/-- What a step of a call of mpmc_enqueue can be. -/
inductive EnqueueMove (s : QueueState np nc) (p : Fin np) (item : UInt64) (rest : List UInt64) :
    QueueState np nc → Option Nat → Prop
  | load (phase : (s.producers p).phase = .outside) :
      EnqueueMove s p item rest (s.enter p (item :: rest) (.loadedTail s.tail s.enqueued.length)) none
  | refuse {t stores : Nat} (phase : (s.producers p).phase = .loadedTail t stores)
      (full : next queueSize t = s.head) : EnqueueMove s p item rest (s.enter p (item :: rest) .outside) (some 0)
  | pass {t stores : Nat} (phase : (s.producers p).phase = .loadedTail t stores)
      (room : next queueSize t ≠ s.head) : EnqueueMove s p item rest (s.enter p (item :: rest) (.passed t)) none
  | write {t : Nat} (phase : (s.producers p).phase = .passed t) : EnqueueMove s p item rest
      ({ s with items := Function.update s.items t item }.enter p (item :: rest) (.stored t)) none
  | publish {t : Nat} (phase : (s.producers p).phase = .stored t) : EnqueueMove s p item rest
      ({ s with tail := next queueSize t, enqueued := s.enqueued ++ [item] }.enter p rest .outside) (some 1)

theorem enqueueStep_move {s t : QueueState np nc} {p : Fin np} {ret : Option Nat}
    (step : enqueueStep s p = some (t, ret)) :
    ∃ item rest, (s.producers p).todo = item :: rest ∧ EnqueueMove s p item rest t ret := by
  unfold enqueueStep at step
  split at step
  · cases step
  · rename_i item rest todo
    refine ⟨item, rest, todo, ?_⟩
    split at step
    · rename_i phase
      cases step
      exact .load phase
    · rename_i t stores phase
      split at step
      · rename_i full
        cases step
        exact .refuse phase full
      · rename_i room
        cases step
        exact .pass phase room
    · rename_i t phase
      cases step
      exact .write phase
    · rename_i t phase
      cases step
      exact .publish phase

/-- What a step of a call of mpmc_dequeue can be. -/
inductive DequeueMove (s : QueueState np nc) (c : Fin nc) : QueueState np nc → Option UInt64 → Prop
  | load (phase : s.consumers c = .outside) :
      DequeueMove s c (s.turn c (.loadedHead s.head s.removed.length)) none
  | refuse {h stores : Nat} (phase : s.consumers c = .loadedHead h stores) (empty : h = s.tail) :
      DequeueMove s c (s.turn c .outside) (some 0)
  | pass {h stores : Nat} (phase : s.consumers c = .loadedHead h stores) (some_ : h ≠ s.tail) :
      DequeueMove s c (s.turn c (.passed h)) none
  | read {h : Nat} (phase : s.consumers c = .passed h) : DequeueMove s c (s.turn c (.loadedItem h (s.items h))) none
  | advance {h : Nat} {item : UInt64} (phase : s.consumers c = .loadedItem h item) : DequeueMove s c
      ({ s with head := next queueSize h, removed := s.removed ++ [item] }.turn c .outside) (some item)

theorem dequeueStep_move (s : QueueState np nc) (c : Fin nc) :
    DequeueMove s c (dequeueStep s c).1 (dequeueStep s c).2 := by
  unfold dequeueStep
  split
  · rename_i phase
    exact .load phase
  · rename_i h stores phase
    split
    · rename_i empty
      exact .refuse phase empty
    · rename_i some_
      exact .pass phase some_
  · rename_i h phase
    exact .read phase
  · rename_i h item phase
    exact .advance phase

end Moves

section Preserved
variable {np nc : Nat} {s : QueueState np nc}

theorem emptyQueue_fifo (items : Nat → UInt64) (start : Fin queueSize) (lists : Fin np → List UInt64) :
    Fifo (emptyQueue items start lists : QueueState np nc) where
  head_in := start.isLt
  tail_in := start.isLt
  holds := (contents_empty items start.isLt).mpr rfl
  producers := fun _ => trivial
  consumers := fun _ => trivial
  one_producer := fun _ _ committed => nomatch committed
  one_consumer := fun _ _ committed => nomatch committed

/-- A producer goes on to what it knows, and commits only while no other producer is. -/
theorem Fifo.enter (fifo : Fifo s) {p : Fin np} {todo : List UInt64} {phase : EnqueuePhase}
    (knows : EnqueueKnows s.items s.head s.tail s.enqueued.length ⟨todo, phase⟩)
    (alone : phase.committed = true → ∀ q, q ≠ p → (s.producers q).phase.committed = false) :
    Fifo (s.enter p todo phase) := by
  refine { fifo with producers := fun q => ?_, one_producer := fun q r first second => ?_ }
  · rcases eq_or_ne q p with rfl | other
    · simpa only [QueueState.enter, Function.update_self] using knows
    · simpa only [QueueState.enter, Function.update_of_ne other] using fifo.producers q
  · rcases eq_or_ne p q with rfl | q_other <;> rcases eq_or_ne p r with rfl | r_other
    · rfl
    · simp only [QueueState.enter, Function.update_self, Function.update_of_ne r_other.symm] at first second
      rw [alone first r r_other.symm] at second
      cases second
    · simp only [QueueState.enter, Function.update_self, Function.update_of_ne q_other.symm] at first second
      rw [alone second q q_other.symm] at first
      cases first
    · simp only [QueueState.enter, Function.update_of_ne q_other.symm] at first
      simp only [QueueState.enter, Function.update_of_ne r_other.symm] at second
      exact fifo.one_producer q r first second

theorem Fifo.turn (fifo : Fifo s) {c : Fin nc} {phase : DequeuePhase}
    (knows : DequeueKnows s.items s.head s.tail s.removed.length phase)
    (alone : phase.committed = true → ∀ d, d ≠ c → (s.consumers d).committed = false) : Fifo (s.turn c phase) := by
  refine { fifo with consumers := fun d => ?_, one_consumer := fun d e first second => ?_ }
  · rcases eq_or_ne d c with rfl | other
    · simpa only [QueueState.turn, Function.update_self] using knows
    · simpa only [QueueState.turn, Function.update_of_ne other] using fifo.consumers d
  · rcases eq_or_ne c d with rfl | d_other <;> rcases eq_or_ne c e with rfl | e_other
    · rfl
    · simp only [QueueState.turn, Function.update_self, Function.update_of_ne e_other.symm] at first second
      rw [alone first e e_other.symm] at second
      cases second
    · simp only [QueueState.turn, Function.update_self, Function.update_of_ne d_other.symm] at first second
      rw [alone second d d_other.symm] at first
      cases first
    · simp only [QueueState.turn, Function.update_of_ne d_other.symm] at first
      simp only [QueueState.turn, Function.update_of_ne e_other.symm] at second
      exact fifo.one_consumer d e first second

/-- A store at tail touches neither the queue nor the cell a consumer has read. -/
theorem Fifo.write (fifo : Fifo s) (x : UInt64) (unwritten : ∀ q t, (s.producers q).phase ≠ .stored t) :
    Fifo { s with items := Function.update s.items s.tail x } := by
  refine { fifo with holds := ?_, producers := fun q => ?_, consumers := fun c => ?_ }
  · have kept := contents_store s.items fifo.head_in fifo.tail_in x
    simpa only [QueueState.contents, kept] using fifo.holds
  · have knows := fifo.producers q
    unfold EnqueueKnows at *
    cases phase : (s.producers q).phase with
    | outside => trivial
    | loadedTail t seen => simpa only [phase] using knows
    | passed t => simpa only [phase] using knows
    | stored t => exact absurd phase (unwritten q t)
  · have knows := fifo.consumers c
    cases phase : s.consumers c with
    | outside => trivial
    | loadedHead h seen => rw [phase] at knows; exact knows
    | passed h => rw [phase] at knows; exact knows
    | loadedItem h item =>
      rw [phase] at knows
      obtain ⟨rfl, apart, read⟩ := knows
      exact ⟨rfl, apart, (Function.update_of_ne apart x s.items).trans read⟩

/-- The store of tail, by a producer that has just left, puts its item into the queue. -/
theorem Fifo.publish (fifo : Fifo s) {x : UInt64} (none_ : ∀ q, (s.producers q).phase.committed = false)
    (room : next queueSize s.tail ≠ s.head) (written : s.items s.tail = x) :
    Fifo { s with tail := next queueSize s.tail, enqueued := s.enqueued ++ [x] } := by
  refine { fifo with tail_in := next_lt fifo.tail_in, holds := ?_, producers := fun q => ?_, consumers := fun c => ?_ }
  · have pushed := contents_push s.items fifo.head_in fifo.tail_in room
    simp only [QueueState.contents, pushed, written]
    rw [← List.append_assoc]
    exact congrArg (· ++ [x]) fifo.holds
  · have knows := fifo.producers q
    have apart := none_ q
    unfold EnqueueKnows at *
    cases phase : (s.producers q).phase with
    | outside => trivial
    | loadedTail t seen =>
      simp only [phase] at knows
      simp only [List.length_append, List.length_singleton]
      exact ⟨by omega, fun eq => absurd eq (by omega)⟩
    | passed t => rw [phase] at apart; cases apart
    | stored t => rw [phase] at apart; cases apart
  · have knows := fifo.consumers c
    cases phase : s.consumers c with
    | outside => trivial
    | loadedHead h seen => rw [phase] at knows; exact knows
    | passed h =>
      rw [phase] at knows
      exact ⟨knows.1, room.symm⟩
    | loadedItem h item =>
      rw [phase] at knows
      exact ⟨knows.1, room.symm, knows.2.2⟩

/-- The store of head, by a consumer that has just left, takes the first item out. -/
theorem Fifo.advance (fifo : Fifo s) {x : UInt64} (none_ : ∀ c, (s.consumers c).committed = false)
    (some_ : s.head ≠ s.tail) (read : s.items s.head = x) :
    Fifo { s with head := next queueSize s.head, removed := s.removed ++ [x] } := by
  refine { fifo with head_in := next_lt fifo.head_in, holds := ?_, producers := fun q => ?_, consumers := fun c => ?_ }
  · have popped := contents_pop s.items fifo.head_in fifo.tail_in some_
    have holds := fifo.holds
    simp only [QueueState.contents, popped, read] at holds
    simpa only [QueueState.contents, List.append_assoc, List.singleton_append] using holds
  · have knows := fifo.producers q
    have apart : next queueSize s.tail ≠ next queueSize s.head := by
      rw [ne_eq, next_inj fifo.tail_in fifo.head_in]
      exact some_.symm
    unfold EnqueueKnows at *
    cases phase : (s.producers q).phase with
    | outside => trivial
    | loadedTail t seen => simpa only [phase] using knows
    | passed t =>
      simp only [phase] at knows
      exact ⟨knows.1, apart⟩
    | stored t =>
      simp only [phase] at knows
      exact ⟨knows.1, apart, knows.2.2⟩
  · have knows := fifo.consumers c
    have outside := none_ c
    cases phase : s.consumers c with
    | outside => trivial
    | loadedHead h seen =>
      simp only [phase, DequeueKnows] at knows
      simp only [DequeueKnows, List.length_append, List.length_singleton]
      exact ⟨by omega, fun eq => absurd eq (by omega)⟩
    | passed h => rw [phase] at outside; cases outside
    | loadedItem h item => rw [phase] at outside; cases outside

theorem Fifo.only_producer (fifo : Fifo s) {p : Fin np} (committed : (s.producers p).phase.committed = true)
    (q : Fin np) (other : q ≠ p) : (s.producers q).phase.committed = false := by
  cases both : (s.producers q).phase.committed with
  | false => rfl
  | true => exact absurd (fifo.one_producer q p both committed) other

theorem Fifo.only_consumer (fifo : Fifo s) {c : Fin nc} (committed : (s.consumers c).committed = true)
    (d : Fin nc) (other : d ≠ c) : (s.consumers d).committed = false := by
  cases both : (s.consumers d).committed with
  | false => rfl
  | true => exact absurd (fifo.one_consumer d c both committed) other

theorem fifo_enqueue (fifo : Fifo s) {p : Fin np} {t : QueueState np nc} {ret : Option Nat}
    (alone : EnqueueAlone s p) (step : enqueueStep s p = some (t, ret)) : Fifo t := by
  obtain ⟨item, rest, todo, move⟩ := enqueueStep_move step
  have knows := fifo.producers p
  unfold EnqueueKnows at knows
  cases move with
  | load phase => exact fifo.enter ⟨Nat.le_refl _, fun _ => rfl⟩ (fun committed => nomatch committed)
  | refuse phase full => exact fifo.enter trivial (fun committed => nomatch committed)
  | pass phase room =>
    obtain ⟨current, others⟩ := alone _ _ phase room
    simp only [phase] at knows
    have at_tail := knows.2 current
    exact fifo.enter ⟨at_tail, at_tail ▸ room⟩ (fun _ q _ => others q)
  | write phase =>
    have committed : (s.producers p).phase.committed = true := by rw [phase]; rfl
    simp only [phase] at knows
    obtain ⟨rfl, room⟩ := knows
    have unwritten : ∀ q t, (s.producers q).phase ≠ .stored t := by
      intro q t stored
      have same : q = p := fifo.one_producer q p (by rw [stored]; rfl) committed
      rw [same, phase] at stored
      cases stored
    refine (fifo.write item unwritten).enter ⟨rfl, room, fun x first => ?_⟩ (fun _ => fifo.only_producer committed)
    cases first
    exact Function.update_self s.tail item s.items
  | publish phase =>
    have committed : (s.producers p).phase.committed = true := by rw [phase]; rfl
    simp only [phase, todo] at knows
    obtain ⟨rfl, room, written⟩ := knows
    have left : Fifo (s.enter p rest .outside) := fifo.enter trivial (fun committed => nomatch committed)
    refine left.publish (fun q => ?_) room (written item rfl)
    rcases eq_or_ne q p with rfl | other
    · simp only [QueueState.enter, Function.update_self, EnqueuePhase.committed]
    · simpa only [QueueState.enter, Function.update_of_ne other] using fifo.only_producer committed q other

theorem fifo_dequeue (fifo : Fifo s) {c : Fin nc} {t : QueueState np nc} {ret : Option UInt64}
    (alone : DequeueAlone s c) (move : DequeueMove s c t ret) : Fifo t := by
  have knows := fifo.consumers c
  cases move with
  | load phase => exact fifo.turn ⟨Nat.le_refl _, fun _ => rfl⟩ (fun committed => nomatch committed)
  | refuse phase empty => exact fifo.turn trivial (fun committed => nomatch committed)
  | pass phase some_ =>
    obtain ⟨current, others⟩ := alone _ _ phase some_
    rw [phase] at knows
    have at_head := knows.2 current
    exact fifo.turn ⟨at_head, at_head ▸ some_⟩ (fun _ d _ => others d)
  | read phase =>
    have committed : (s.consumers c).committed = true := by rw [phase]; rfl
    rw [phase] at knows
    exact fifo.turn ⟨knows.1, knows.2, rfl⟩ (fun _ => fifo.only_consumer committed)
  | advance phase =>
    have committed : (s.consumers c).committed = true := by rw [phase]; rfl
    rw [phase] at knows
    obtain ⟨rfl, some_, read⟩ := knows
    have left : Fifo (s.turn c .outside) := fifo.turn trivial (fun committed => nomatch committed)
    refine left.advance (fun d => ?_) some_ read
    rcases eq_or_ne d c with rfl | other
    · simp only [QueueState.turn, Function.update_self, DequeuePhase.committed]
    · simpa only [QueueState.turn, Function.update_of_ne other] using fifo.only_consumer committed d other

/-- Where the calls that change the queue follow each other, it is first in, first out. -/
theorem alone_fifo {items : Nat → UInt64} {start : Fin queueSize} {lists : Fin np → List UInt64}
    (reachable : (aloneMpmc nc items start lists).Reachable s) : Fifo s := by
  refine System.invariant _ Fifo (emptyQueue_fifo items start lists) (fun s t fifo step => ?_) reachable
  cases step with
  | enqueue p alone step => exact fifo_enqueue fifo alone step
  | dequeue c alone => exact fifo_dequeue fifo alone (dequeueStep_move s c)

/-- Nothing is lost and nothing comes twice in runs where no call stores behind a full or an
empty test that another call has made out of date. -/
theorem alone_conserves {items : Nat → UInt64} {start : Fin queueSize} {lists : Fin np → List UInt64}
    (reachable : (aloneMpmc nc items start lists).Reachable s) :
    (s.enqueued : Multiset UInt64) = (s.removed : Multiset UInt64) + (s.contents : Multiset UInt64) := by
  rw [Multiset.coe_add, (alone_fifo reachable).holds]

end Preserved

/-- With one producer and one consumer nobody else stores what a call has loaded. -/
structure Sole (list : List UInt64) (s : QueueState 1 1) : Prop where
  fifo : Fifo s
  tail_known : ∀ t stores, (s.producers 0).phase = .loadedTail t stores → stores = s.enqueued.length
  head_known : ∀ h stores, s.consumers 0 = .loadedHead h stores → stores = s.removed.length
  order : s.enqueued ++ (s.producers 0).todo = list

section Sole
variable {list : List UInt64} {s : QueueState 1 1}

theorem Sole.enqueueAlone (sole : Sole list s) : EnqueueAlone s 0 := by
  intro t stores phase _
  refine ⟨sole.tail_known t stores phase, fun q => ?_⟩
  rw [Subsingleton.elim q 0, phase]
  rfl

theorem Sole.dequeueAlone (sole : Sole list s) : DequeueAlone s 0 := by
  intro h stores phase _
  refine ⟨sole.head_known h stores phase, fun d => ?_⟩
  rw [Subsingleton.elim d 0, phase]
  rfl

theorem sole_enqueue (sole : Sole list s) {t : QueueState 1 1} {ret : Option Nat}
    (step : enqueueStep s 0 = some (t, ret)) : Sole list t := by
  have fifo := fifo_enqueue sole.fifo sole.enqueueAlone step
  obtain ⟨item, rest, todo, move⟩ := enqueueStep_move step
  have order := sole.order
  rw [todo] at order
  cases move with
  | load phase =>
    refine ⟨fifo, fun u n loaded => ?_, sole.head_known, by simpa [QueueState.enter] using order⟩
    simp only [QueueState.enter, Function.update_self, EnqueuePhase.loadedTail.injEq] at loaded
    exact loaded.2.symm
  | refuse phase full =>
    refine ⟨fifo, fun u n loaded => ?_, sole.head_known, by simpa [QueueState.enter] using order⟩
    simp [QueueState.enter] at loaded
  | pass phase room =>
    refine ⟨fifo, fun u n loaded => ?_, sole.head_known, by simpa [QueueState.enter] using order⟩
    simp [QueueState.enter] at loaded
  | write phase =>
    refine ⟨fifo, fun u n loaded => ?_, sole.head_known, by simpa [QueueState.enter] using order⟩
    simp [QueueState.enter] at loaded
  | publish phase =>
    refine ⟨fifo, fun u n loaded => ?_, sole.head_known, by simpa [QueueState.enter] using order⟩
    simp [QueueState.enter] at loaded

theorem sole_dequeue (sole : Sole list s) {t : QueueState 1 1} {ret : Option UInt64}
    (move : DequeueMove s 0 t ret) : Sole list t := by
  have fifo := fifo_dequeue sole.fifo sole.dequeueAlone move
  cases move with
  | load phase =>
    refine ⟨fifo, sole.tail_known, fun u n loaded => ?_, sole.order⟩
    simp only [QueueState.turn, Function.update_self, DequeuePhase.loadedHead.injEq] at loaded
    exact loaded.2.symm
  | refuse phase empty =>
    refine ⟨fifo, sole.tail_known, fun u n loaded => ?_, sole.order⟩
    simp [QueueState.turn] at loaded
  | pass phase some_ =>
    refine ⟨fifo, sole.tail_known, fun u n loaded => ?_, sole.order⟩
    simp [QueueState.turn] at loaded
  | read phase =>
    refine ⟨fifo, sole.tail_known, fun u n loaded => ?_, sole.order⟩
    simp [QueueState.turn] at loaded
  | advance phase =>
    refine ⟨fifo, sole.tail_known, fun u n loaded => ?_, sole.order⟩
    simp [QueueState.turn] at loaded

theorem mpmc_sole {items : Nat → UInt64} {start : Fin queueSize} {list : List UInt64}
    (reachable : (mpmc 1 items start (fun _ : Fin 1 => list)).Reachable s) : Sole list s := by
  refine System.invariant _ (Sole list) ?_ (fun s t sole step => ?_) reachable
  · exact ⟨emptyQueue_fifo items start _, fun _ _ loaded => (nomatch loaded), fun _ _ loaded => (nomatch loaded), rfl⟩
  · cases step with
    | enqueue p step =>
      rw [Subsingleton.elim p 0] at step
      exact sole_enqueue sole step
    | dequeue c =>
      rw [Subsingleton.elim c 0]
      exact sole_dequeue sole (dequeueStep_move s 0)

theorem Sole.refused (sole : Sole list s) {t : QueueState 1 1} (step : enqueueStep s 0 = some (t, some 0)) :
    s.contents.length = queueSize - 1 := by
  obtain ⟨item, rest, todo, move⟩ := enqueueStep_move step
  cases move with
  | refuse phase full =>
    have knows := sole.fifo.producers 0
    simp only [EnqueueKnows, phase] at knows
    rw [knows.2 (sole.tail_known _ _ phase)] at full
    exact (contents_full s.items sole.fifo.head_in sole.fifo.tail_in).mpr full

theorem Sole.found_empty (sole : Sole list s) {t : QueueState 1 1} {v : UInt64}
    (move : DequeueMove s 0 t (some v)) (stays : t.head = s.head) : s.contents = [] := by
  have knows := sole.fifo.consumers 0
  cases move with
  | refuse phase empty =>
    rw [phase] at knows
    have at_head := knows.2 (sole.head_known _ _ phase)
    exact (contents_empty s.items sole.fifo.head_in).mpr (at_head.symm.trans empty)
  | advance phase =>
    rw [phase] at knows
    obtain ⟨rfl, _, _⟩ := knows
    exact absurd stays (next_ne sole.fifo.head_in (by decide))

theorem Sole.enqueue_fifo (sole : Sole list s) {t : QueueState 1 1} {ret : Option Nat}
    (step : enqueueStep s 0 = some (t, ret)) : FifoStep (queueSize - 1) s.contents t.contents := by
  obtain ⟨item, rest, todo, move⟩ := enqueueStep_move step
  have head_in := sole.fifo.head_in
  have tail_in := sole.fifo.tail_in
  have knows := sole.fifo.producers 0
  unfold EnqueueKnows at knows
  cases move with
  | load phase => exact .stay s.contents
  | refuse phase full => exact .stay s.contents
  | pass phase room => exact .stay s.contents
  | write phase =>
    simp only [phase] at knows
    obtain ⟨rfl, _⟩ := knows
    have kept := contents_store s.items head_in tail_in item
    have same : ({ s with items := Function.update s.items s.tail item }.enter 0 (item :: rest)
        (.stored s.tail)).contents = s.contents := kept
    rw [same]
    exact .stay s.contents
  | publish phase =>
    simp only [phase, todo] at knows
    obtain ⟨rfl, room, written⟩ := knows
    have pushed : Ring.contents queueSize s.items s.head (next queueSize s.tail) = s.contents ++ [item] := by
      rw [contents_push s.items head_in tail_in room, written item rfl]
      rfl
    have below := contents_length s.items head_in tail_in
    have gap : s.contents.length ≠ queueSize - 1 := fun full => room ((contents_full s.items head_in tail_in).mp full)
    have grown := FifoStep.push s.contents item (Nat.lt_of_le_of_ne (Nat.le_sub_one_of_lt below) gap)
    rw [← pushed] at grown
    exact grown

theorem Sole.dequeue_fifo (sole : Sole list s) {t : QueueState 1 1} {ret : Option UInt64}
    (move : DequeueMove s 0 t ret) : FifoStep (queueSize - 1) s.contents t.contents := by
  have knows := sole.fifo.consumers 0
  cases move with
  | load phase => exact .stay s.contents
  | refuse phase empty => exact .stay s.contents
  | pass phase some_ => exact .stay s.contents
  | read phase => exact .stay s.contents
  | advance phase =>
    rw [phase] at knows
    obtain ⟨rfl, some_, read⟩ := knows
    have popped := contents_pop s.items sole.fifo.head_in sole.fifo.tail_in some_
    rw [read] at popped
    have shrunk : FifoStep (queueSize - 1) (Ring.contents queueSize s.items s.head s.tail)
        (Ring.contents queueSize s.items (next queueSize s.head) s.tail) := by
      rw [popped]
      exact .pop _ _
    exact shrunk

/-- One producer and one consumer see a bounded queue that is first in, first out. -/
theorem spsc_refines_fifo {items : Nat → UInt64} {start : Fin queueSize}
    (reachable : (mpmc 1 items start (fun _ : Fin 1 => list)).Reachable s) :
    s.enqueued ++ (s.producers 0).todo = list ∧ s.removed <+: s.enqueued ∧
      s.removed ++ s.contents = s.enqueued ∧ s.contents.length ≤ queueSize - 1 ∧
      (∀ t, QueueStep s t → FifoStep (queueSize - 1) s.contents t.contents) ∧
      (∀ t, enqueueStep s 0 = some (t, some 0) → s.contents.length = queueSize - 1) ∧
      ∀ t v, dequeueStep s 0 = (t, some v) → t.head = s.head → s.contents = [] := by
  have sole := mpmc_sole reachable
  refine ⟨sole.order, ⟨s.contents, sole.fifo.holds⟩, sole.fifo.holds, ?_, fun t step => ?_,
    fun t step => sole.refused step, fun t v step stays => ?_⟩
  · exact Nat.le_sub_one_of_lt (contents_length s.items sole.fifo.head_in sole.fifo.tail_in)
  · cases step with
    | enqueue p step =>
      rw [Subsingleton.elim p 0] at step
      exact sole.enqueue_fifo step
    | dequeue c =>
      rw [Subsingleton.elim c 0]
      exact sole.dequeue_fifo (dequeueStep_move s 0)
  · have move := dequeueStep_move s 0
    rw [step] at move
    exact sole.found_empty move stays

/-- Their runs never leave the condition under which nothing is lost. -/
theorem mpmc_alone {items : Nat → UInt64} {start : Fin queueSize}
    (reachable : (mpmc 1 items start (fun _ : Fin 1 => list)).Reachable s) :
    (aloneMpmc 1 items start (fun _ : Fin 1 => list)).Reachable s := by
  induction reachable with
  | refl => exact .refl
  | tail before step ih =>
    have sole := mpmc_sole before
    refine ih.tail ?_
    cases step with
    | enqueue p step =>
      rw [Subsingleton.elim p 0] at step
      exact .enqueue 0 sole.enqueueAlone step
    | dequeue c =>
      rw [Subsingleton.elim c 0]
      exact .dequeue 0 sole.dequeueAlone

end Sole

/-- The steps of these producers and consumers, one after the other. -/
def schedule {np nc : Nat} (s : QueueState np nc) : List (Fin np ⊕ Fin nc) → Option (QueueState np nc)
  | [] => some s
  | .inl p :: rest =>
    match enqueueStep s p with
    | none => none
    | some (t, _) => schedule t rest
  | .inr c :: rest => schedule (dequeueStep s c).1 rest

theorem schedule_steps {np nc : Nat} {s t : QueueState np nc} (threads : List (Fin np ⊕ Fin nc))
    (run : schedule s threads = some t) : Relation.ReflTransGen QueueStep s t := by
  induction threads generalizing s with
  | nil =>
    cases run
    exact .refl
  | cons thread rest ih =>
    unfold schedule at run
    cases thread with
    | inl p =>
      cases step : enqueueStep s p with
      | none => simp only [step] at run; cases run
      | some result =>
        simp only [step] at run
        exact .head (.enqueue p step) (ih run)
    | inr c => exact .head (.dequeue c) (ih run)

/- Three items come into a queue of one producer and one consumer, and two of them are taken out. -/
def throughStart : QueueState 1 1 := emptyQueue (fun _ => 0) 0 (fun _ => [7, 8, 9])

def throughThreads : List (Fin 1 ⊕ Fin 1) :=
  [.inl 0, .inr 0, .inl 0, .inl 0, .inr 0, .inl 0, .inr 0, .inr 0, .inl 0, .inl 0, .inr 0, .inr 0, .inl 0, .inl 0,
    .inr 0, .inr 0, .inr 0, .inr 0, .inl 0, .inl 0, .inl 0, .inl 0]

def throughEnd : QueueState 1 1 := (schedule throughStart throughThreads).getD throughStart

theorem through_reachable : (mpmc 1 (fun _ => 0) 0 (fun _ : Fin 1 => [7, 8, 9])).Reachable throughEnd :=
  schedule_steps throughThreads rfl

theorem through_refines_fifo : throughEnd.enqueued ++ (throughEnd.producers 0).todo = [7, 8, 9] ∧
    throughEnd.removed <+: throughEnd.enqueued ∧ throughEnd.removed ++ throughEnd.contents = throughEnd.enqueued ∧
    throughEnd.removed = [7, 8] ∧ throughEnd.contents = [9] := by
  obtain ⟨order, front, holds, _⟩ := spsc_refines_fifo through_reachable
  exact ⟨order, front, holds, by decide, by decide⟩

/- The condition can be tested on a state. -/

def EnqueuePhase.seen : EnqueuePhase → Option (Nat × Nat)
  | .loadedTail t stores => some (t, stores)
  | _ => none

def DequeuePhase.seen : DequeuePhase → Option (Nat × Nat)
  | .loadedHead h stores => some (h, stores)
  | _ => none

instance {np nc : Nat} (s : QueueState np nc) (p : Fin np) : Decidable (EnqueueAlone s p) :=
  decidable_of_iff (∀ l ∈ (s.producers p).phase.seen, next queueSize l.1 ≠ s.head →
    l.2 = s.enqueued.length ∧ ∀ q, (s.producers q).phase.committed = false) (by
      unfold EnqueueAlone
      cases (s.producers p).phase <;> simp [EnqueuePhase.seen])

instance {np nc : Nat} (s : QueueState np nc) (c : Fin nc) : Decidable (DequeueAlone s c) :=
  decidable_of_iff (∀ l ∈ (s.consumers c).seen, l.1 ≠ s.tail →
    l.2 = s.removed.length ∧ ∀ d, (s.consumers d).committed = false) (by
      unfold DequeueAlone
      cases s.consumers c <;> simp [DequeuePhase.seen])

/-- The steps one after the other, as long as each meets the condition. -/
def aloneSchedule {np nc : Nat} (s : QueueState np nc) : List (Fin np ⊕ Fin nc) → Option (QueueState np nc)
  | [] => some s
  | .inl p :: rest =>
    if EnqueueAlone s p then
      match enqueueStep s p with
      | none => none
      | some (t, _) => aloneSchedule t rest
    else none
  | .inr c :: rest => if DequeueAlone s c then aloneSchedule (dequeueStep s c).1 rest else none

theorem aloneSchedule_steps {np nc : Nat} {s t : QueueState np nc} (threads : List (Fin np ⊕ Fin nc))
    (run : aloneSchedule s threads = some t) : Relation.ReflTransGen AloneStep s t := by
  induction threads generalizing s with
  | nil =>
    cases run
    exact .refl
  | cons thread rest ih =>
    unfold aloneSchedule at run
    cases thread with
    | inl p =>
      dsimp only at run
      split at run
      · rename_i alone
        cases step : enqueueStep s p with
        | none => simp only [step] at run; cases run
        | some result =>
          simp only [step] at run
          exact .head (.enqueue p alone step) (ih run)
      · cases run
    | inr c =>
      dsimp only at run
      split at run
      · rename_i alone
        exact .head (.dequeue c alone) (ih run)
      · cases run

/- Two producers and two consumers whose steps interleave. -/
def busyLists (p : Fin 2) : List UInt64 := if p = 0 then [1, 3] else [2, 4]

def busyStart : QueueState 2 2 := emptyQueue (fun _ => 0) 0 busyLists

def busyThreads : List (Fin 2 ⊕ Fin 2) :=
  [.inl 0, .inr 1, .inl 0, .inl 0, .inl 0, .inr 1, .inl 1, .inr 1, .inl 1, .inr 1, .inl 1, .inl 1, .inl 0, .inr 0,
    .inl 0, .inr 0, .inl 0, .inr 0, .inl 0, .inr 0, .inl 1, .inl 1, .inl 1, .inl 1]

def busyEnd : QueueState 2 2 := (aloneSchedule busyStart busyThreads).getD busyStart

theorem busy_conserves : (busyEnd.enqueued : Multiset UInt64) =
    (busyEnd.removed : Multiset UInt64) + (busyEnd.contents : Multiset UInt64) ∧
    busyEnd.enqueued = [1, 2, 3, 4] ∧ busyEnd.removed = [1, 2] := by
  have reachable : (aloneMpmc 2 (fun _ => 0) 0 busyLists).Reachable busyEnd := aloneSchedule_steps busyThreads rfl
  exact ⟨alone_conserves reachable, by decide, by decide⟩

/- Two producers load the same tail, and both calls return 1. -/
def raceStart : QueueState 2 1 := emptyQueue (fun _ => 0) 0 (fun p => if p = 0 then [1] else [2])

def raceThreads : List (Fin 2 ⊕ Fin 1) := [.inl 0, .inl 1, .inl 0, .inl 1, .inl 0, .inl 1, .inl 0, .inl 1]

def raceEnd : QueueState 2 1 := (schedule raceStart raceThreads).getD raceStart

theorem race_loses_item :
    (mpmc 1 (fun _ => 0) 0 (fun p : Fin 2 => if p = 0 then [1] else [2])).Reachable raceEnd ∧
      (∀ p, (raceEnd.producers p).phase = .outside) ∧ (∀ c, raceEnd.consumers c = .outside) ∧
      ¬ (raceEnd.enqueued : Multiset UInt64) =
        (raceEnd.removed : Multiset UInt64) + (raceEnd.contents : Multiset UInt64) := by
  refine ⟨schedule_steps raceThreads rfl, by decide, by decide, fun same => ?_⟩
  have sizes := congrArg Multiset.card same
  exact absurd sizes (by decide)

end ServMark
