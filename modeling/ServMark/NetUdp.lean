import ServMark.Library.Transition

/-! net_udp.c: any number of calls of nu_measure on one socket, with udp_receiver and the kernel,
which puts each datagram into the buffer of the socket at some time or loses it. -/
namespace ServMark
open Transition

/-- NUM_MSGS of the file. -/
def udpMsgs : Nat := 100000

/-- Where nu_measure stands. -/
inductive UdpMain where
  | starting
  | spinning
  | sending (i : Nat)
  | joining
  | joined
  deriving DecidableEq

/-- Where udp_receiver stands; gone if no such thread runs. -/
inductive UdpReceiver where
  | gone
  | created
  | testing
  | receiving
  | counting
  deriving DecidableEq

inductive UdpEvent where
  | main
  | receiver
  | deliver (i : Nat)
  | lose (i : Nat)

/-- A datagram stands for the call that sent it, which no step of the two threads reads. What was
delivered of each call and what was received in this one are recorded. -/
structure NetUdp where
  call : Nat
  main : UdpMain
  receiver : UdpReceiver
  ready : Bool
  done : Bool
  packets : Nat
  inFlight : List Nat
  buffer : List Nat
  received : List Nat
  delivered : Nat → Nat

/-- nu_measure with so many datagrams in each of k calls. -/
def udpMainStep (sends : Nat → Nat) (k : Nat) (s : NetUdp) : Option NetUdp :=
  match s.main with
  | .starting =>
    some { s with ready := false, packets := 0, done := false, received := [], receiver := .created, main := .spinning }
  | .spinning => if s.ready then some { s with main := .sending 0 } else some s
  | .sending i =>
    if i < sends s.call then some { s with inFlight := s.inFlight ++ [s.call], main := .sending (i + 1) }
    else some { s with done := true, main := .joining }
  | .joining => if s.receiver = .gone then some { s with main := .joined } else none
  | .joined => if s.call + 1 < k then some { s with call := s.call + 1, main := .starting } else none

/-- recvfrom takes the first datagram, or returns after its timeout. -/
def udpReceiverStep (s : NetUdp) : Option NetUdp :=
  match s.receiver with
  | .gone => none
  | .created => some { s with ready := true, receiver := .testing }
  | .testing => if s.done then some { s with receiver := .gone } else some { s with receiver := .receiving }
  | .receiving =>
    match s.buffer with
    | [] => some { s with receiver := .testing }
    | d :: rest => some { s with buffer := rest, received := s.received ++ [d], receiver := .counting }
  | .counting => some { s with packets := s.packets + 1, receiver := .testing }

def udpDeliver (i : Nat) (s : NetUdp) : Option NetUdp :=
  match s.inFlight[i]? with
  | none => none
  | some d => some { s with
      inFlight := s.inFlight.eraseIdx i
      buffer := s.buffer ++ [d]
      delivered := Function.update s.delivered d (s.delivered d + 1) }

def udpLose (i : Nat) (s : NetUdp) : Option NetUdp :=
  if i < s.inFlight.length then some { s with inFlight := s.inFlight.eraseIdx i } else none

def netUdp (sends : Nat → Nat) (k : Nat) : Machine UdpEvent NetUdp where
  start := ⟨0, .starting, .gone, false, false, 0, [], [], [], fun _ => 0⟩
  step
    | .main => udpMainStep sends k
    | .receiver => udpReceiverStep
    | .deliver i => udpDeliver i
    | .lose i => udpLose i

/-- Where a call has joined its receiver, packets is what was delivered of the call, nothing is left
in the buffer and nothing of another call was received. -/
def CountsOwn (s : NetUdp) : Prop :=
  s.main = .joined → s.packets = s.delivered s.call ∧ s.buffer = [] ∧ ∀ d ∈ s.received, d = s.call

/-- udp_receiver sees done only with an empty buffer, and a datagram is delivered only while the
receiver of its own call runs. -/
def InTime (event : UdpEvent) (s : NetUdp) : Prop :=
  match event with
  | .main => True
  | .receiver => s.receiver = .testing → s.done = true → s.buffer = []
  | .deliver i => ∀ d ∈ s.inFlight[i]?, d = s.call ∧ s.receiver ≠ .gone
  | .lose _ => True

instance (event : UdpEvent) (s : NetUdp) : Decidable (InTime event s) :=
  match event with
  | .main => inferInstanceAs (Decidable True)
  | .receiver => inferInstanceAs (Decidable (s.receiver = .testing → s.done = true → s.buffer = []))
  | .deliver i => inferInstanceAs (Decidable (∀ d ∈ s.inFlight[i]?, d = s.call ∧ s.receiver ≠ .gone))
  | .lose _ => inferInstanceAs (Decidable True)

def UdpReceiver.pending : UdpReceiver → Nat
  | .gone => 0
  | .created => 0
  | .testing => 0
  | .receiving => 0
  | .counting => 1

/-- Only datagrams of this call are delivered, and all of these are received or in the buffer. -/
structure OwnCounted (s : NetUdp) : Prop where
  buffer : ∀ d ∈ s.buffer, d = s.call
  received : s.main ≠ .starting → ∀ d ∈ s.received, d = s.call
  later : ∀ j, s.call < j → s.delivered j = 0
  fresh : s.main = .starting → s.delivered s.call = 0 ∧ s.receiver = .gone
  delivered : s.main ≠ .starting → s.delivered s.call = s.received.length + s.buffer.length
  counted : s.main ≠ .starting → s.packets + s.receiver.pending = s.received.length
  gone : s.receiver = .gone → s.buffer = []
  joined : s.main = .joined → s.receiver = .gone

section Preserved
variable {sends : Nat → Nat} {k : Nat} {s t : NetUdp}

theorem ownCounted_start : OwnCounted (netUdp sends k).start where
  buffer _ member := nomatch member
  received started := absurd rfl started
  later _ _ := rfl
  fresh _ := ⟨rfl, rfl⟩
  delivered started := absurd rfl started
  counted started := absurd rfl started
  gone _ := rfl
  joined ended := nomatch ended

/-- The main thread goes on within its call. -/
theorem OwnCounted.advance (inv : OwnCounted s) (started : s.main ≠ .starting) {main : UdpMain} {done : Bool}
    {inFlight : List Nat} (goes : main ≠ .starting) (ended : main = .joined → s.receiver = .gone) :
    OwnCounted { s with main := main, done := done, inFlight := inFlight } where
  buffer := inv.buffer
  received _ := inv.received started
  later := inv.later
  fresh eq := absurd eq goes
  delivered _ := inv.delivered started
  counted _ := inv.counted started
  gone := inv.gone
  joined := ended

theorem ownCounted_main (inv : OwnCounted s) (step : udpMainStep sends k s = some t) : OwnCounted t := by
  unfold udpMainStep at step
  cases phase : s.main with
  | starting =>
    simp only [phase] at step
    obtain rfl := Option.some.inj step
    obtain ⟨none_, gone⟩ := inv.fresh phase
    have empty := inv.gone gone
    exact {
      buffer := inv.buffer
      received := fun _ _ member => nomatch member
      later := inv.later
      fresh := UdpMain.noConfusion
      delivered := fun _ => by simp only [none_, empty, List.length_nil, Nat.add_zero]
      counted := fun _ => rfl
      gone := UdpReceiver.noConfusion
      joined := UdpMain.noConfusion }
  | spinning =>
    have started : s.main ≠ .starting := by simp [phase]
    simp only [phase] at step
    split_ifs at step
    · obtain rfl := Option.some.inj step
      exact inv.advance started UdpMain.noConfusion UdpMain.noConfusion
    · obtain rfl := Option.some.inj step
      exact inv
  | sending i =>
    have started : s.main ≠ .starting := by simp [phase]
    simp only [phase] at step
    split_ifs at step
    · obtain rfl := Option.some.inj step
      exact inv.advance started UdpMain.noConfusion UdpMain.noConfusion
    · obtain rfl := Option.some.inj step
      exact inv.advance started UdpMain.noConfusion UdpMain.noConfusion
  | joining =>
    have started : s.main ≠ .starting := by simp [phase]
    simp only [phase] at step
    split_ifs at step with gone
    obtain rfl := Option.some.inj step
    exact inv.advance started UdpMain.noConfusion (fun _ => gone)
  | joined =>
    have gone := inv.joined phase
    have empty := inv.gone gone
    simp only [phase] at step
    split_ifs at step
    obtain rfl := Option.some.inj step
    exact {
      buffer := fun d member => by rw [empty] at member; cases member
      received := fun started => absurd rfl started
      later := fun j after => inv.later j (Nat.lt_of_succ_lt after)
      fresh := fun _ => ⟨inv.later _ (Nat.lt_succ_self _), gone⟩
      delivered := fun started => absurd rfl started
      counted := fun started => absurd rfl started
      gone := fun _ => empty
      joined := UdpMain.noConfusion }

theorem OwnCounted.alive (inv : OwnCounted s) (runs : s.receiver ≠ .gone) : s.main ≠ .starting ∧ s.main ≠ .joined :=
  ⟨fun eq => runs (inv.fresh eq).2, fun eq => runs (inv.joined eq)⟩

/-- The receiver goes on without a datagram, or has counted one. -/
theorem OwnCounted.turn (inv : OwnCounted s) (runs : s.receiver ≠ .gone) {ready : Bool} {packets : Nat}
    {receiver : UdpReceiver} (counted : packets + receiver.pending = s.packets + s.receiver.pending)
    (gone : receiver = .gone → s.buffer = []) :
    OwnCounted { s with ready := ready, packets := packets, receiver := receiver } :=
  have alive := inv.alive runs
  { inv with
    fresh := fun eq => absurd eq alive.1
    counted := fun started => counted.trans (inv.counted started)
    gone := gone
    joined := fun eq => absurd eq alive.2 }

theorem ownCounted_receiver (inv : OwnCounted s) (inTime : InTime .receiver s) (step : udpReceiverStep s = some t) :
    OwnCounted t := by
  unfold udpReceiverStep at step
  cases phase : s.receiver with
  | gone => simp only [phase] at step; cases step
  | created =>
    simp only [phase] at step
    obtain rfl := Option.some.inj step
    exact inv.turn (by simp [phase]) (by rw [phase]; rfl) UdpReceiver.noConfusion
  | testing =>
    simp only [phase] at step
    split_ifs at step with done
    · obtain rfl := Option.some.inj step
      exact inv.turn (by simp [phase]) (by rw [phase]; rfl) (fun _ => inTime phase done)
    · obtain rfl := Option.some.inj step
      exact inv.turn (by simp [phase]) (by rw [phase]; rfl) UdpReceiver.noConfusion
  | receiving =>
    obtain ⟨started, running⟩ := inv.alive (by simp [phase])
    simp only [phase] at step
    cases bytes : s.buffer with
    | nil =>
      simp only [bytes] at step
      obtain rfl := Option.some.inj step
      exact bytes ▸ inv.turn (by simp [phase]) (by rw [phase]; rfl) UdpReceiver.noConfusion
    | cons d rest =>
      simp only [bytes] at step
      obtain rfl := Option.some.inj step
      have own := inv.buffer
      have delivered := inv.delivered started
      have counted := inv.counted started
      simp only [bytes] at own delivered
      simp only [phase] at counted
      refine { inv with
        buffer := fun e member => own e (List.mem_cons_of_mem d member)
        received := fun _ e member => ?_
        fresh := fun eq => absurd eq started
        delivered := fun _ => ?_
        counted := fun _ => ?_
        gone := UdpReceiver.noConfusion
        joined := fun eq => absurd eq running }
      · rcases List.mem_append.mp member with before | last
        · exact inv.received started e before
        · simp only [List.mem_singleton.mp last]
          exact own d List.mem_cons_self
      · simp only [List.length_append, List.length_cons, List.length_nil] at delivered ⊢
        omega
      · simp only [UdpReceiver.pending, List.length_append, List.length_singleton] at counted ⊢
        omega
  | counting =>
    simp only [phase] at step
    obtain rfl := Option.some.inj step
    exact inv.turn (by simp [phase]) (by rw [phase]; rfl) UdpReceiver.noConfusion

theorem ownCounted_deliver (inv : OwnCounted s) {i : Nat} (inTime : InTime (.deliver i) s)
    (step : udpDeliver i s = some t) : OwnCounted t := by
  unfold udpDeliver at step
  cases entry : s.inFlight[i]? with
  | none => simp only [entry] at step; cases step
  | some d =>
    simp only [entry] at step
    obtain rfl := Option.some.inj step
    obtain ⟨rfl, runs⟩ := inTime d entry
    obtain ⟨started, running⟩ := inv.alive runs
    have delivered := inv.delivered started
    refine { inv with
      buffer := fun e member => ?_
      later := fun j after => ?_
      fresh := fun eq => absurd eq started
      delivered := fun _ => ?_
      gone := fun eq => absurd eq runs }
    · rcases List.mem_append.mp member with before | last
      · exact inv.buffer e before
      · exact List.mem_singleton.mp last
    · simp only [Function.update_of_ne (Nat.ne_of_gt after)]
      exact inv.later j after
    · simp only [Function.update_self, List.length_append, List.length_singleton]
      omega

theorem ownCounted_reachable (reachable : ((netUdp sends k).guarded InTime).Reachable s) : OwnCounted s := by
  refine Machine.guarded_invariant OwnCounted ownCounted_start (fun event s t inv inTime step => ?_) reachable
  cases event with
  | main => exact ownCounted_main inv step
  | receiver => exact ownCounted_receiver inv inTime step
  | deliver i => exact ownCounted_deliver inv inTime step
  | lose i =>
    have step : udpLose i s = some t := step
    unfold udpLose at step
    split_ifs at step
    obtain rfl := Option.some.inj step
    exact { inv with }

theorem ownCounted_counts (inv : OwnCounted s) : CountsOwn s := by
  intro joined
  have started : s.main ≠ .starting := by simp [joined]
  have gone := inv.joined joined
  have empty := inv.gone gone
  have delivered := inv.delivered started
  have counted := inv.counted started
  simp only [gone] at counted
  simp only [empty] at delivered
  exact ⟨counted.trans delivered.symm, empty, inv.received started⟩

end Preserved

/- What the flags and the datagrams in flight say of the place of nu_measure, in every run. -/
structure UdpPhased (s : NetUdp) : Prop where
  opens : s.main = .spinning → s.receiver = .created ∨ s.ready = true
  runs : s.main = .spinning ∨ (∃ i, s.main = .sending i) → s.done = false ∧ s.receiver ≠ .gone
  ends : s.main = .joining → s.done = true
  flight : ∀ d ∈ s.inFlight, d ≤ s.call
  earlier : s.main = .starting → ∀ d ∈ s.inFlight, d ≠ s.call

section Phased
variable {sends : Nat → Nat} {k : Nat} {s t : NetUdp}

theorem phased_start : UdpPhased (netUdp sends k).start where
  opens eq := nomatch eq
  runs early := by
    obtain eq | ⟨_, eq⟩ := early
    · cases eq
    · cases eq
  ends eq := nomatch eq
  flight _ member := nomatch member
  earlier _ _ member := nomatch member

theorem phased_main (inv : UdpPhased s) (step : udpMainStep sends k s = some t) : UdpPhased t := by
  unfold udpMainStep at step
  cases phase : s.main with
  | starting =>
    simp only [phase] at step
    obtain rfl := Option.some.inj step
    exact ⟨fun _ => Or.inl rfl, fun _ => ⟨rfl, UdpReceiver.noConfusion⟩, UdpMain.noConfusion, inv.flight,
      UdpMain.noConfusion⟩
  | spinning =>
    have runs := inv.runs (Or.inl phase)
    simp only [phase] at step
    split_ifs at step
    · obtain rfl := Option.some.inj step
      exact ⟨UdpMain.noConfusion, fun _ => runs, UdpMain.noConfusion, inv.flight, UdpMain.noConfusion⟩
    · obtain rfl := Option.some.inj step
      exact inv
  | sending i =>
    have runs := inv.runs (Or.inr ⟨i, phase⟩)
    simp only [phase] at step
    split_ifs at step
    · obtain rfl := Option.some.inj step
      refine ⟨UdpMain.noConfusion, fun _ => runs, UdpMain.noConfusion, fun d member => ?_, UdpMain.noConfusion⟩
      rcases List.mem_append.mp member with before | last
      · exact inv.flight d before
      · exact Nat.le_of_eq (List.mem_singleton.mp last)
    · obtain rfl := Option.some.inj step
      refine ⟨UdpMain.noConfusion, fun early => ?_, fun _ => rfl, inv.flight, UdpMain.noConfusion⟩
      obtain eq | ⟨_, eq⟩ := early
      · cases eq
      · cases eq
  | joining =>
    simp only [phase] at step
    split_ifs at step
    obtain rfl := Option.some.inj step
    refine ⟨UdpMain.noConfusion, fun early => ?_, UdpMain.noConfusion, inv.flight, UdpMain.noConfusion⟩
    obtain eq | ⟨_, eq⟩ := early
    · cases eq
    · cases eq
  | joined =>
    simp only [phase] at step
    split_ifs at step
    obtain rfl := Option.some.inj step
    refine ⟨UdpMain.noConfusion, fun early => ?_, UdpMain.noConfusion, fun d member => ?_, fun _ d member => ?_⟩
    · obtain eq | ⟨_, eq⟩ := early
      · cases eq
      · cases eq
    · exact Nat.le_succ_of_le (inv.flight d member)
    · exact Nat.ne_of_lt (Nat.lt_succ_of_le (inv.flight d member))

/-- The receiver goes on, and leaves only behind the flag. -/
theorem UdpPhased.turn (inv : UdpPhased s) {ready : Bool} {packets : Nat} {buffer received : List Nat}
    {receiver : UdpReceiver} (opens : s.main = .spinning → receiver = .created ∨ ready = true)
    (left : receiver = .gone → s.done = true) :
    UdpPhased { s with
      ready := ready, packets := packets, buffer := buffer, received := received, receiver := receiver } :=
  { inv with
    opens := opens
    runs := fun early =>
      have unset := (inv.runs early).1
      ⟨unset, fun gone => Bool.false_ne_true (unset.symm.trans (left gone))⟩ }

theorem phased_receiver (inv : UdpPhased s) (step : udpReceiverStep s = some t) : UdpPhased t := by
  have opens (past : s.receiver ≠ .created) (main : s.main = .spinning) : s.ready = true :=
    (inv.opens main).resolve_left past
  unfold udpReceiverStep at step
  cases phase : s.receiver with
  | gone => simp only [phase] at step; cases step
  | created =>
    simp only [phase] at step
    obtain rfl := Option.some.inj step
    exact inv.turn (fun _ => Or.inr rfl) UdpReceiver.noConfusion
  | testing =>
    simp only [phase] at step
    split_ifs at step with done
    · obtain rfl := Option.some.inj step
      exact inv.turn (fun main => Or.inr (opens (by simp [phase]) main)) (fun _ => done)
    · obtain rfl := Option.some.inj step
      exact inv.turn (fun main => Or.inr (opens (by simp [phase]) main)) UdpReceiver.noConfusion
  | receiving =>
    simp only [phase] at step
    split at step
    · obtain rfl := Option.some.inj step
      exact inv.turn (fun main => Or.inr (opens (by simp [phase]) main)) UdpReceiver.noConfusion
    · obtain rfl := Option.some.inj step
      exact inv.turn (fun main => Or.inr (opens (by simp [phase]) main)) UdpReceiver.noConfusion
  | counting =>
    simp only [phase] at step
    obtain rfl := Option.some.inj step
    exact inv.turn (fun main => Or.inr (opens (by simp [phase]) main)) UdpReceiver.noConfusion

theorem phased_erase (inv : UdpPhased s) (i : Nat) (buffer : List Nat) (delivered : Nat → Nat) :
    UdpPhased { s with inFlight := s.inFlight.eraseIdx i, buffer := buffer, delivered := delivered } :=
  { inv with
    flight := fun d member => inv.flight d (List.mem_of_mem_eraseIdx member)
    earlier := fun eq d member => inv.earlier eq d (List.mem_of_mem_eraseIdx member) }

theorem phased_deliver (inv : UdpPhased s) {i : Nat} (step : udpDeliver i s = some t) : UdpPhased t := by
  unfold udpDeliver at step
  split at step
  · cases step
  · obtain rfl := Option.some.inj step
    exact phased_erase inv i _ _

theorem phased_reachable (reachable : (netUdp sends k).system.Reachable s) : UdpPhased s := by
  refine Machine.invariant UdpPhased phased_start (fun event s t inv step => ?_) reachable
  cases event with
  | main => exact phased_main inv step
  | receiver => exact phased_receiver inv step
  | deliver i => exact phased_deliver inv step
  | lose i =>
    have step : udpLose i s = some t := step
    unfold udpLose at step
    split_ifs at step
    obtain rfl := Option.some.inj step
    exact phased_erase inv i s.buffer s.delivered

end Phased

/- How a call can go on without the kernel until it has joined its receiver. -/
section Finish
variable {sends : Nat → Nat} {k : Nat} {s t u : NetUdp}

def Leads (sends : Nat → Nat) (k : Nat) (s t : NetUdp) : Prop :=
  Relation.ReflTransGen (netUdp sends k).system.step s t

theorem lead_main (step : udpMainStep sends k s = some t) : Leads sends k s t := .single ⟨.main, step⟩

theorem lead_receiver (step : udpReceiverStep s = some t) : Leads sends k s t := .single ⟨.receiver, step⟩

/-- The call is over, and what was received or in the buffer still is. -/
structure Finishes (sends : Nat → Nat) (k : Nat) (s t : NetUdp) : Prop where
  leads : Leads sends k s t
  joined : t.main = .joined
  call : t.call = s.call
  kept : t.received ++ t.buffer = s.received ++ s.buffer

theorem Finishes.before (leads : Leads sends k s t) (call : t.call = s.call)
    (kept : t.received ++ t.buffer = s.received ++ s.buffer) (finishes : Finishes sends k t u) :
    Finishes sends k s u where
  leads := leads.trans finishes.leads
  joined := finishes.joined
  call := finishes.call.trans call
  kept := finishes.kept.trans kept

theorem testing_leaves (testing : s.receiver = .testing) (done : s.done = true) :
    Leads sends k s { s with receiver := .gone } :=
  lead_receiver (by simp only [udpReceiverStep, testing, if_pos done])

theorem gone_joins (main : s.main = .joining) (gone : s.receiver = .gone) :
    Leads sends k s { s with main := .joined } :=
  lead_main (by simp only [udpMainStep, main, if_pos gone])

variable (sends k)

theorem sends_all (left i : Nat) (main : s.main = .sending i) (rest : sends s.call - i = left) :
    ∃ inFlight, Leads sends k s { s with inFlight := inFlight, done := true, main := .joining } := by
  induction left generalizing i s with
  | zero =>
    have last : ¬ i < sends s.call := by omega
    exact ⟨s.inFlight, lead_main (by simp only [udpMainStep, main, if_neg last])⟩
  | succ left ih =>
    have more : i < sends s.call := by omega
    let next : NetUdp := { s with inFlight := s.inFlight ++ [s.call], main := .sending (i + 1) }
    have one : Leads sends k s next := lead_main (by simp only [udpMainStep, main, if_pos more, next])
    obtain ⟨inFlight, leads⟩ := ih (i + 1) (s := next) rfl (by simp only [next]; omega)
    exact ⟨inFlight, one.trans leads⟩

theorem joining_finishes (main : s.main = .joining) (done : s.done = true) : ∃ t, Finishes sends k s t := by
  have tests (t : NetUdp) (testing : t.receiver = .testing) (main : t.main = .joining) (done : t.done = true) :
      Finishes sends k t { t with receiver := .gone, main := .joined } :=
    ⟨(testing_leaves testing done).trans (gone_joins main rfl), rfl, rfl, rfl⟩
  cases phase : s.receiver with
  | gone => exact ⟨_, gone_joins main phase, rfl, rfl, rfl⟩
  | created =>
    have step : udpReceiverStep s = some { s with ready := true, receiver := .testing } := by
      simp only [udpReceiverStep, phase]
    exact ⟨_, Finishes.before (lead_receiver step) rfl rfl (tests _ rfl main done)⟩
  | testing => exact ⟨_, tests s phase main done⟩
  | receiving =>
    cases bytes : s.buffer with
    | nil =>
      have step : udpReceiverStep s = some { s with receiver := .testing } := by
        simp only [udpReceiverStep, phase, bytes]
      exact ⟨_, Finishes.before (lead_receiver step) rfl rfl (tests _ rfl main done)⟩
    | cons d rest =>
      let taken : NetUdp := { s with buffer := rest, received := s.received ++ [d], receiver := .counting }
      have takes : udpReceiverStep s = some taken := by simp only [udpReceiverStep, phase, bytes, taken]
      have counts : udpReceiverStep taken = some { taken with packets := taken.packets + 1, receiver := .testing } := by
        simp only [udpReceiverStep, taken]
      have kept : (s.received ++ [d]) ++ rest = s.received ++ s.buffer := by
        simp only [bytes, List.append_assoc, List.singleton_append]
      exact ⟨_, Finishes.before ((lead_receiver takes).trans (lead_receiver counts)) rfl kept (tests _ rfl main done)⟩
  | counting =>
    have step : udpReceiverStep s = some { s with packets := s.packets + 1, receiver := .testing } := by
      simp only [udpReceiverStep, phase]
    exact ⟨_, Finishes.before (lead_receiver step) rfl rfl (tests _ rfl main done)⟩

theorem sending_finishes {i : Nat} (main : s.main = .sending i) : ∃ t, Finishes sends k s t := by
  obtain ⟨inFlight, leads⟩ := sends_all sends k _ i main rfl
  obtain ⟨t, finishes⟩ := joining_finishes sends k
    (s := { s with inFlight := inFlight, done := true, main := .joining }) rfl rfl
  exact ⟨t, finishes.before leads rfl rfl⟩

theorem spinning_finishes (main : s.main = .spinning) (opens : s.receiver = .created ∨ s.ready = true) :
    ∃ t, Finishes sends k s t := by
  have starts {t : NetUdp} (main : t.main = .spinning) (ready : t.ready = true) : ∃ u, Finishes sends k t u := by
    have step : udpMainStep sends k t = some { t with main := .sending 0 } := by
      simp only [udpMainStep, main, if_pos ready]
    obtain ⟨u, finishes⟩ := sending_finishes sends k (s := { t with main := .sending 0 }) rfl
    exact ⟨u, finishes.before (lead_main step) rfl rfl⟩
  rcases opens with created | ready
  · have step : udpReceiverStep s = some { s with ready := true, receiver := .testing } := by
      simp only [udpReceiverStep, created]
    obtain ⟨u, finishes⟩ := starts (t := { s with ready := true, receiver := .testing }) main rfl
    exact ⟨u, finishes.before (lead_receiver step) rfl rfl⟩
  · exact starts main ready

theorem started_finishes (phased : UdpPhased s) (started : s.main ≠ .starting) : ∃ t, Finishes sends k s t := by
  cases phase : s.main with
  | starting => exact absurd phase started
  | spinning => exact spinning_finishes sends k phase (phased.opens phase)
  | sending i => exact sending_finishes sends k phase
  | joining => exact joining_finishes sends k phase (phased.ends phase)
  | joined => exact ⟨s, .refl, phase, rfl, rfl⟩

/-- A datagram of another call spoils the call that it comes into. -/
theorem stray_spoils (phased : UdpPhased s) {d : Nat} (stray : d ∈ s.buffer) (other : d ≠ s.call) :
    ∃ t, Leads sends k s t ∧ ¬ CountsOwn t := by
  have spoils {t u : NetUdp} (there : d ∈ t.received ++ t.buffer) (same : t.call = s.call)
      (finishes : Finishes sends k t u) : ¬ CountsOwn u := by
    intro counts
    obtain ⟨_, empty, own⟩ := counts finishes.joined
    simp only [← finishes.kept, empty, List.append_nil] at there
    exact other ((own d there).trans (finishes.call.trans same))
  by_cases starts : s.main = .starting
  · let next : NetUdp :=
      { s with ready := false, packets := 0, done := false, received := [], receiver := .created, main := .spinning }
    have step : udpMainStep sends k s = some next := by simp only [udpMainStep, starts, next]
    obtain ⟨u, finishes⟩ := spinning_finishes sends k (s := next) rfl (Or.inl rfl)
    exact ⟨u, (lead_main step).trans finishes.leads, spoils (t := next) stray rfl finishes⟩
  · obtain ⟨u, finishes⟩ := started_finishes sends k phased starts
    exact ⟨u, finishes.leads, spoils (List.mem_append_right _ stray) rfl finishes⟩

theorem left_spoils (main : s.main = .joining) (gone : s.receiver = .gone) (left : s.buffer ≠ []) :
    ∃ t, Leads sends k s t ∧ ¬ CountsOwn t :=
  ⟨_, gone_joins main gone, fun counts => left (counts rfl).2.1⟩

/-- From the first exit or delivery that is not in time on, a call can miscount. -/
theorem untimely_spoils (reachable : ((netUdp sends k).guarded InTime).Reachable s) {event : UdpEvent}
    (untimely : ¬ InTime event s) : ∃ t, Leads sends k s t ∧ ¬ CountsOwn t := by
  have own := ownCounted_reachable reachable
  have phased := phased_reachable (Machine.guarded_reachable reachable)
  cases event with
  | main => exact absurd trivial untimely
  | receiver =>
    simp only [InTime, not_forall] at untimely
    obtain ⟨testing, done, left⟩ := untimely
    have running := own.alive (by simp [testing])
    have main : s.main = .joining := by
      have late (early : s.main = .spinning ∨ ∃ i, s.main = .sending i) : False :=
        Bool.false_ne_true ((phased.runs early).1.symm.trans done)
      cases phase : s.main with
      | starting => exact absurd phase running.1
      | spinning => exact (late (Or.inl phase)).elim
      | sending i => exact (late (Or.inr ⟨i, phase⟩)).elim
      | joining => rfl
      | joined => exact absurd phase running.2
    obtain ⟨t, leads, spoilt⟩ := left_spoils sends k (s := { s with receiver := .gone }) main rfl left
    exact ⟨t, (testing_leaves testing done).trans leads, spoilt⟩
  | deliver i =>
    simp only [InTime, not_forall] at untimely
    obtain ⟨d, entry, foreign⟩ := untimely
    have flies : d ∈ s.inFlight := List.mem_of_getElem? entry
    let next : NetUdp := { s with
      inFlight := s.inFlight.eraseIdx i
      buffer := s.buffer ++ [d]
      delivered := Function.update s.delivered d (s.delivered d + 1) }
    have step : udpDeliver i s = some next := by
      have entry : s.inFlight[i]? = some d := entry
      simp only [udpDeliver, entry, next]
    have delivers : Leads sends k s next := .single ⟨.deliver i, step⟩
    have left : next.buffer ≠ [] := List.append_ne_nil_of_right_ne_nil _ (List.cons_ne_nil d [])
    have there : d ∈ next.buffer := List.mem_append_right _ (List.mem_singleton.mpr rfl)
    have strays (other : d ≠ s.call) : ∃ t, Leads sends k s t ∧ ¬ CountsOwn t := by
      obtain ⟨t, leads, spoilt⟩ := stray_spoils sends k (phased_deliver phased step) there other
      exact ⟨t, delivers.trans leads, spoilt⟩
    cases phase : s.main with
    | starting => exact strays (phased.earlier phase d flies)
    | spinning => exact strays (fun same => foreign ⟨same, (phased.runs (Or.inl phase)).2⟩)
    | sending j => exact strays (fun same => foreign ⟨same, (phased.runs (Or.inr ⟨j, phase⟩)).2⟩)
    | joining =>
      by_cases gone : s.receiver = .gone
      · obtain ⟨t, leads, spoilt⟩ := left_spoils sends k (s := next) phase gone left
        exact ⟨t, delivers.trans leads, spoilt⟩
      · exact strays (fun same => foreign ⟨same, gone⟩)
    | joined => exact ⟨next, delivers, fun counts => left (counts phase).2.1⟩
  | lose i => exact absurd trivial untimely

end Finish

/-- As long as no receiver leaves with datagrams in the buffer and each datagram comes in time for
its own receiver, every call counts what was delivered of it and nothing else. The first step that
is not in time can spoil a count. -/
theorem packets_own_iff {sends : Nat → Nat} {k : Nat} {s : NetUdp}
    (reachable : ((netUdp sends k).guarded InTime).Reachable s) :
    CountsOwn s ∧ ∀ event, ¬ InTime event s →
      ∃ t, Relation.ReflTransGen (netUdp sends k).system.step s t ∧ ¬ CountsOwn t :=
  ⟨ownCounted_counts (ownCounted_reachable reachable), fun _ untimely => untimely_spoils sends k reachable untimely⟩

/- Two calls of two and of three datagrams; of each call one is lost. -/
def udpTwo : Machine UdpEvent NetUdp := netUdp (fun call => call + 2) 2

def udpTwoEvents : List UdpEvent :=
  [.main, .receiver, .main, .main, .main, .deliver 0, .receiver, .receiver, .lose 0, .receiver, .main, .receiver, .main,
    .main, .main, .receiver, .main, .main, .main, .deliver 1, .main, .receiver, .deliver 0, .receiver, .receiver,
    .receiver, .receiver, .lose 0, .receiver, .main, .receiver, .main]

def udpTwoEnd : NetUdp := (udpTwo.guardedPlay InTime udpTwo.start udpTwoEvents).getD udpTwo.start

theorem two_calls_counted : udpTwoEnd.packets = udpTwoEnd.delivered 1 ∧ udpTwoEnd.buffer = [] ∧
    (∀ d ∈ udpTwoEnd.received, d = 1) ∧ udpTwoEnd.packets = 2 ∧ udpTwoEnd.delivered 0 = 1 := by
  have reachable : (udpTwo.guarded InTime).Reachable udpTwoEnd := Machine.guardedPlay_steps udpTwoEvents rfl
  obtain ⟨packets, empty, own⟩ := (packets_own_iff reachable).1 rfl
  exact ⟨packets, empty, own, rfl, rfl⟩

/-- With the shipped number of datagrams: the first one is delivered, and the receiver, which is at
its test all the time, sees done before it calls recvfrom. -/
theorem udp_leaves_datagram : ∃ s, (netUdp (fun _ => udpMsgs) 1).system.Reachable s ∧ s.main = .joined ∧
    s.packets = 0 ∧ s.delivered 0 = 1 ∧ s.buffer = [0] := by
  have more : 0 < udpMsgs := by decide
  let first : NetUdp :=
    ⟨0, .sending 1, .testing, true, false, 0, [], [0], [], Function.update (fun _ => 0) 0 1⟩
  have played : (netUdp (fun _ => udpMsgs) 1).play (netUdp (fun _ => udpMsgs) 1).start
      [.main, .receiver, .main, .main, .deliver 0] = some first := by
    simp only [Machine.play, netUdp, udpMainStep, udpReceiverStep, udpDeliver, if_true, if_pos more, List.nil_append,
      List.getElem?_cons_zero, first]
    rfl
  obtain ⟨inFlight, sends⟩ := sends_all (fun _ => udpMsgs) 1 _ 1 (s := first) rfl rfl
  have reached := (Machine.play_steps _ played).trans sends
  exact ⟨_, reached.trans ((testing_leaves rfl rfl).trans (gone_joins rfl rfl)), rfl, rfl, rfl, rfl⟩

end ServMark
