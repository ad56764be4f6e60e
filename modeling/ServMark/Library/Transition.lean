import Mathlib.Logic.Relation
import Mathlib.Tactic

/-! Transition systems over any state type: reachable states, inductive invariants,
freedom from deadlock and a bound on the length of runs. A machine is a system made of threads
or events that each have at most one next step. -/
namespace Transition

structure System (σ : Type) where
  start : σ
  step : σ → σ → Prop

variable {σ : Type}

def System.Reachable (m : System σ) (s : σ) : Prop := Relation.ReflTransGen m.step m.start s

/-- A state is reached after exactly this many steps. -/
inductive System.ReachedIn (m : System σ) : Nat → σ → Prop
  | start : m.ReachedIn 0 m.start
  | step {n : Nat} {s t : σ} : m.ReachedIn n s → m.step s t → m.ReachedIn (n + 1) t

/-- What holds at the start and survives every step holds in every reachable state. -/
theorem System.invariant (m : System σ) (inv : σ → Prop) (initial : inv m.start)
    (preserved : ∀ s t, inv s → m.step s t → inv t) {s : σ} (reachable : m.Reachable s) : inv s := by
  induction reachable with
  | refl => exact initial
  | tail _ step ih => exact preserved _ _ ih step

theorem System.ReachedIn.reachable {m : System σ} {n : Nat} {s : σ} (run : m.ReachedIn n s) :
    m.Reachable s := by
  induction run with
  | start => exact .refl
  | step _ step ih => exact .tail ih step

def System.DeadlockFree (m : System σ) (done : σ → Prop) : Prop :=
  ∀ s, m.Reachable s → ¬ done s → ∃ t, m.step s t

theorem System.deadlockFree (m : System σ) (inv done : σ → Prop) (initial : inv m.start)
    (preserved : ∀ s t, inv s → m.step s t → inv t)
    (progress : ∀ s, inv s → ¬ done s → ∃ t, m.step s t) : m.DeadlockFree done :=
  fun s reachable => progress s (m.invariant inv initial preserved reachable)

/-- A rank that every step lowers where the invariant holds bounds the length of runs. -/
theorem System.run_bounded (m : System σ) (inv : σ → Prop) (rank : σ → Nat) (initial : inv m.start)
    (preserved : ∀ s t, inv s → m.step s t → inv t)
    (lowers : ∀ s t, inv s → m.step s t → rank t < rank s) {n : Nat} {s : σ}
    (run : m.ReachedIn n s) : n + rank s ≤ rank m.start := by
  induction run with
  | start => omega
  | step before step ih =>
    have lower := lowers _ _ (m.invariant inv initial preserved before.reachable) step
    omega

/-- No run hangs or goes on for ever, and every run can still be brought to its end. -/
structure System.Ends (m : System σ) (done : σ → Prop) (steps : Nat) : Prop where
  free : m.DeadlockFree done
  bounded : ∀ k s, m.ReachedIn k s → k ≤ steps
  ends : ∀ s, m.Reachable s → ∃ t, Relation.ReflTransGen m.step s t ∧ done t

/-- Progress in every state of an invariant, and a rank that every step lowers there. -/
theorem System.ends_of_rank (m : System σ) (inv done : σ → Prop) (rank : σ → Nat) (initial : inv m.start)
    (preserved : ∀ s t, inv s → m.step s t → inv t) (progress : ∀ s, inv s → ¬ done s → ∃ t, m.step s t)
    (lowers : ∀ s t, inv s → m.step s t → rank t < rank s) : m.Ends done (rank m.start) := by
  have free := m.deadlockFree inv done initial preserved progress
  refine ⟨free, fun k s run => ?_, ?_⟩
  · have bound := m.run_bounded inv rank initial preserved lowers run
    omega
  · intro s reachable
    induction left : rank s using Nat.strong_induction_on generalizing s with
    | _ left_ ih =>
      subst left
      by_cases ended : done s
      · exact ⟨s, .refl, ended⟩
      · obtain ⟨t, step⟩ := free s reachable ended
        have lower := lowers s t (m.invariant inv initial preserved reachable) step
        obtain ⟨u, run, ended⟩ := ih (rank t) lower t (.tail reachable step) rfl
        exact ⟨u, .head step run, ended⟩

inductive Run {ℓ : Type} (step : ℓ → σ → σ → Prop) : List ℓ → σ → σ → Prop
  | nil (s : σ) : Run step [] s s
  | cons {l : ℓ} {rest : List ℓ} {s t u : σ} (first : step l s t) (tail : Run step rest t u) :
      Run step (l :: rest) s u

theorem Run.split {ℓ : Type} {step : ℓ → σ → σ → Prop} {front back : List ℓ} {s u : σ}
    (run : Run step (front ++ back) s u) : ∃ t, Run step front s t ∧ Run step back t u := by
  induction front generalizing s with
  | nil => exact ⟨s, .nil s, run⟩
  | cons l front ih =>
    cases run with
    | cons first tail =>
      obtain ⟨t, before, after⟩ := ih tail
      exact ⟨t, .cons first before, after⟩

structure Machine (ι σ : Type) where
  start : σ
  step : ι → σ → Option σ

section Machine
variable {ι : Type}

/-- The runs whose every step meets the guard. -/
def Machine.guarded (m : Machine ι σ) (guard : ι → σ → Prop) : System σ :=
  ⟨m.start, fun s t => ∃ i, guard i s ∧ m.step i s = some t⟩

def Machine.system (m : Machine ι σ) : System σ := ⟨m.start, fun s t => ∃ i, m.step i s = some t⟩

theorem Machine.guarded_invariant {m : Machine ι σ} {guard : ι → σ → Prop} (inv : σ → Prop) (initial : inv m.start)
    (preserved : ∀ i s t, inv s → guard i s → m.step i s = some t → inv t) {s : σ}
    (reachable : (m.guarded guard).Reachable s) : inv s := by
  refine System.invariant _ inv initial (fun s t holds step => ?_) reachable
  obtain ⟨i, allowed, step⟩ := step
  exact preserved i s t holds allowed step

theorem Machine.invariant {m : Machine ι σ} (inv : σ → Prop) (initial : inv m.start)
    (preserved : ∀ i s t, inv s → m.step i s = some t → inv t) {s : σ} (reachable : m.system.Reachable s) : inv s := by
  refine System.invariant _ inv initial (fun s t holds step => ?_) reachable
  obtain ⟨i, step⟩ := step
  exact preserved i s t holds step

/-- The steps of these threads, one after the other. -/
def Machine.play (m : Machine ι σ) (s : σ) : List ι → Option σ
  | [] => some s
  | i :: rest =>
    match m.step i s with
    | none => none
    | some t => m.play t rest

theorem Machine.play_steps {m : Machine ι σ} (threads : List ι) {s t : σ} (played : m.play s threads = some t) :
    Relation.ReflTransGen m.system.step s t := by
  induction threads generalizing s with
  | nil =>
    cases played
    exact .refl
  | cons i rest ih =>
    unfold Machine.play at played
    cases step : m.step i s with
    | none => simp only [step] at played; cases played
    | some next =>
      simp only [step] at played
      exact .head ⟨i, step⟩ (ih played)

/-- The same with a guard, which each of the steps has to meet. -/
def Machine.guardedPlay (m : Machine ι σ) (guard : ι → σ → Prop) [∀ i s, Decidable (guard i s)] (s : σ) :
    List ι → Option σ
  | [] => some s
  | i :: rest =>
    if guard i s then
      match m.step i s with
      | none => none
      | some t => m.guardedPlay guard t rest
    else none

theorem Machine.guardedPlay_steps {m : Machine ι σ} {guard : ι → σ → Prop} [∀ i s, Decidable (guard i s)]
    (threads : List ι) {s t : σ} (played : m.guardedPlay guard s threads = some t) :
    Relation.ReflTransGen (m.guarded guard).step s t := by
  induction threads generalizing s with
  | nil =>
    cases played
    exact .refl
  | cons i rest ih =>
    unfold Machine.guardedPlay at played
    split_ifs at played with allowed
    cases step : m.step i s with
    | none => simp only [step] at played; cases played
    | some next =>
      simp only [step] at played
      exact .head ⟨i, allowed, step⟩ (ih played)

theorem Machine.guarded_reachable {m : Machine ι σ} {guard : ι → σ → Prop} {s : σ}
    (reachable : (m.guarded guard).Reachable s) : m.system.Reachable s := by
  induction reachable with
  | refl => exact .refl
  | tail _ step ih =>
    obtain ⟨i, _, step⟩ := step
    exact .tail ih ⟨i, step⟩

end Machine

end Transition
