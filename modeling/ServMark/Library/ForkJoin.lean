import Mathlib.Algebra.BigOperators.Fin
import ServMark.Library.Transition

/-! A thread that creates workers one after the other, opens a gate for them and joins them in the
same order. The workers share one state, and each has at most one next step. -/
namespace ForkJoin
open Transition

/-- What the workers do. A worker that waits has no step, nor has one that has ended. -/
structure Program (n : Nat) (φ σ : Type) where
  first : Fin n → φ
  step : Fin n → φ → σ → Option (φ × σ)
  ended : φ → Bool
  opened : σ → σ
  rest : ∀ w x d, ended x = true → step w x d = none

inductive Leader where
  | creating (t : Nat)
  | joining (t : Nat)
  | joined
  deriving DecidableEq

/-- The workers that are not created yet are none. -/
structure Team (n : Nat) (φ σ : Type) where
  leader : Leader
  shared : σ
  workers : Fin n → Option φ

variable {n : Nat} {φ σ : Type}

def leaderStep (p : Program n φ σ) (s : Team n φ σ) : Option (Team n φ σ) :=
  match s.leader with
  | .creating t =>
    if lt : t < n then
      some { s with leader := .creating (t + 1), workers := Function.update s.workers ⟨t, lt⟩ (some (p.first ⟨t, lt⟩)) }
    else some { s with leader := .joining 0, shared := p.opened s.shared }
  | .joining t =>
    if lt : t < n then if (s.workers ⟨t, lt⟩).any p.ended then some { s with leader := .joining (t + 1) } else none
    else some { s with leader := .joined }
  | .joined => none

def workerStep (p : Program n φ σ) (s : Team n φ σ) (w : Fin n) : Option (Team n φ σ) :=
  match s.workers w with
  | none => none
  | some x =>
    match p.step w x s.shared with
    | none => none
    | some (y, d) => some { s with shared := d, workers := Function.update s.workers w (some y) }

def Program.team (p : Program n φ σ) (start : σ) : Machine (Option (Fin n)) (Team n φ σ) where
  start := ⟨.creating 0, start, fun _ => none⟩
  step
    | none => leaderStep p
    | some w => fun s => workerStep p s w

/- What one step of a team does. -/
inductive Move (p : Program n φ σ) (s : Team n φ σ) : Team n φ σ → Prop
  | creates {t : Nat} (at_ : s.leader = .creating t) (lt : t < n) : Move p s { s with
      leader := .creating (t + 1), workers := Function.update s.workers ⟨t, lt⟩ (some (p.first ⟨t, lt⟩)) }
  | opens {t : Nat} (at_ : s.leader = .creating t) (all : n ≤ t) :
      Move p s { s with leader := .joining 0, shared := p.opened s.shared }
  | joins {t : Nat} (at_ : s.leader = .joining t) (lt : t < n) (ended : (s.workers ⟨t, lt⟩).any p.ended = true) :
      Move p s { s with leader := .joining (t + 1) }
  | leaves {t : Nat} (at_ : s.leader = .joining t) (all : n ≤ t) : Move p s { s with leader := .joined }
  | works {w : Fin n} {x y : φ} {d : σ} (at_ : s.workers w = some x) (step : p.step w x s.shared = some (y, d)) :
      Move p s { s with shared := d, workers := Function.update s.workers w (some y) }

section Steps
variable {p : Program n φ σ} {start : σ} {s t : Team n φ σ}

theorem move_of_step {i : Option (Fin n)} (step : (p.team start).step i s = some t) : Move p s t := by
  cases i with
  | none =>
    have step : leaderStep p s = some t := step
    unfold leaderStep at step
    cases at_ : s.leader with
    | creating k =>
      simp only [at_] at step
      split at step
      · rename_i lt
        cases step
        exact .creates at_ lt
      · rename_i all
        cases step
        exact .opens at_ (not_lt.mp all)
    | joining k =>
      simp only [at_] at step
      split at step
      · rename_i lt
        split at step
        · rename_i ended
          cases step
          exact .joins at_ lt ended
        · cases step
      · rename_i all
        cases step
        exact .leaves at_ (not_lt.mp all)
    | joined =>
      simp only [at_] at step
      cases step
  | some w =>
    have step : workerStep p s w = some t := step
    unfold workerStep at step
    cases at_ : s.workers w with
    | none =>
      simp only [at_] at step
      cases step
    | some x =>
      cases next : p.step w x s.shared with
      | none =>
        simp only [at_, next] at step
        cases step
      | some q =>
        simp only [at_, next] at step
        cases step
        exact .works at_ next

theorem step_of_move (move : Move p s t) : (p.team start).system.step s t := by
  cases move with
  | creates at_ lt => exact ⟨none, by simp only [Program.team, leaderStep, at_, dif_pos lt]⟩
  | opens at_ all => exact ⟨none, by simp only [Program.team, leaderStep, at_, dif_neg (not_lt.mpr all)]⟩
  | joins at_ lt ended => exact ⟨none, by simp only [Program.team, leaderStep, at_, dif_pos lt, ended, if_true]⟩
  | leaves at_ all => exact ⟨none, by simp only [Program.team, leaderStep, at_, dif_neg (not_lt.mpr all)]⟩
  | @works w x y d at_ step => exact ⟨some w, by simp only [Program.team, workerStep, at_, step]⟩

end Steps

/-- The workers that the leader has joined. -/
def Leader.past (n : Nat) : Leader → Nat
  | .creating _ => 0
  | .joining t => t
  | .joined => n

/-- The workers there are, and that those joined have ended. -/
structure Formed (p : Program n φ σ) (s : Team n φ σ) : Prop where
  fresh : ∀ t, s.leader = .creating t → ∀ w : Fin n, t ≤ w → s.workers w = none
  there : ∀ w, s.workers w = none → ∃ t, s.leader = .creating t ∧ t ≤ w
  joined : ∀ w : Fin n, w < s.leader.past n → (s.workers w).any p.ended = true

section Formed
variable {p : Program n φ σ} {start : σ} {s t : Team n φ σ}

theorem formed_start : Formed p (p.team start).start where
  fresh _ _ _ _ := rfl
  there w _ := ⟨0, rfl, Nat.zero_le w⟩
  joined w before := absurd before (Nat.not_lt_zero w)

theorem formed_move (formed : Formed p s) (move : Move p s t) : Formed p t := by
  cases move with
  | @creates k at_ lt =>
    refine ⟨fun u eq w later => ?_, fun w gone => ?_, fun w before => absurd before (Nat.not_lt_zero w)⟩
    · cases eq
      have other : w ≠ ⟨k, lt⟩ := fun same => by rw [same] at later; exact absurd later (Nat.not_succ_le_self k)
      exact (Function.update_of_ne other _ _).trans (formed.fresh k at_ w (by omega))
    · have gone : Function.update s.workers ⟨k, lt⟩ (some (p.first ⟨k, lt⟩)) w = none := gone
      rcases eq_or_ne w ⟨k, lt⟩ with rfl | other
      · rw [Function.update_self] at gone
        cases gone
      · rw [Function.update_of_ne other] at gone
        obtain ⟨u, eq, later⟩ := formed.there w gone
        obtain rfl : k = u := Leader.creating.inj (at_.symm.trans eq)
        have apart : (w : Nat) ≠ k := fun same => other (Fin.ext same)
        exact ⟨k + 1, rfl, by omega⟩
  | opens at_ all =>
    refine ⟨nofun, fun w gone => ?_, fun w before => absurd before (Nat.not_lt_zero w)⟩
    obtain ⟨u, eq, later⟩ := formed.there w gone
    obtain rfl := Leader.creating.inj (at_.symm.trans eq)
    exact absurd w.isLt (by omega)
  | @joins k at_ lt ended =>
    refine ⟨nofun, fun w gone => ?_, fun w before => ?_⟩
    · obtain ⟨u, eq, _⟩ := formed.there w gone
      rw [at_] at eq
      cases eq
    · have before : (w : Nat) < k + 1 := before
      rcases Nat.lt_succ_iff_lt_or_eq.mp before with earlier | same
      · exact formed.joined w (by rw [at_]; exact earlier)
      · obtain rfl : w = ⟨k, lt⟩ := Fin.ext same
        exact ended
  | leaves at_ all =>
    refine ⟨nofun, fun w gone => ?_, fun w _ => ?_⟩
    · obtain ⟨u, eq, _⟩ := formed.there w gone
      rw [at_] at eq
      cases eq
    · exact formed.joined w (by rw [at_]; exact lt_of_lt_of_le w.isLt all)
  | @works v x y d at_ step =>
    refine ⟨fun u eq w later => ?_, fun w gone => ?_, fun w before => ?_⟩
    · have absent := formed.fresh u eq w later
      have other : w ≠ v := fun same => by rw [same, at_] at absent; cases absent
      exact (Function.update_of_ne other _ _).trans absent
    · have gone : Function.update s.workers v (some y) w = none := gone
      rcases eq_or_ne w v with rfl | other
      · rw [Function.update_self] at gone
        cases gone
      · rw [Function.update_of_ne other] at gone
        exact formed.there w gone
    · have done := formed.joined w before
      have other : w ≠ v := by
        rintro rfl
        rw [at_] at done
        rw [p.rest w x s.shared done] at step
        cases step
      have same : Function.update s.workers v (some y) w = s.workers w := Function.update_of_ne other _ _
      exact (congrArg (Option.any p.ended) same).trans done

theorem team_formed (reachable : (p.team start).system.Reachable s) : Formed p s :=
  Machine.invariant (Formed p) formed_start (fun _ _ _ formed step => formed_move formed (move_of_step step)) reachable

/-- What holds at the start and survives every move of a formed team holds throughout. -/
theorem team_invariant (inv : Team n φ σ → Prop) (initial : inv (p.team start).start)
    (preserved : ∀ s t, Formed p s → inv s → Move p s t → inv t) (reachable : (p.team start).system.Reachable s) :
    inv s := by
  have both : Formed p s ∧ inv s := by
    refine Machine.invariant (fun s => Formed p s ∧ inv s) ⟨formed_start, initial⟩ (fun i s t holds step => ?_) reachable
    have move := move_of_step step
    exact ⟨formed_move holds.1 move, preserved s t holds.1 holds.2 move⟩
  exact both.2

/-- Behind the last join every worker has ended. -/
theorem Formed.all_ended (formed : Formed p s) (joined : s.leader = .joined) (w : Fin n) :
    ∃ x, s.workers w = some x ∧ p.ended x = true := by
  have done := formed.joined w (by rw [joined]; exact w.isLt)
  exact (Option.any_eq_true _ _).mp done

end Formed

/- A weight summed over the workers. -/
section Load
variable (weight : Fin n → Option φ → Nat) (workers : Fin n → Option φ)

def load : Nat := ∑ w, weight w (workers w)

theorem load_move (w : Fin n) (x : Option φ) :
    load weight (Function.update workers w x) + weight w (workers w) = load weight workers + weight w x := by
  have others : ∑ v ∈ Finset.univ.erase w, weight v (Function.update workers w x v) =
      ∑ v ∈ Finset.univ.erase w, weight v (workers v) :=
    Finset.sum_congr rfl (fun v member => by rw [Function.update_of_ne (Finset.ne_of_mem_erase member)])
  unfold load
  rw [← Finset.add_sum_erase _ _ (Finset.mem_univ w), ← Finset.add_sum_erase _ (fun v => weight v (workers v))
    (Finset.mem_univ w), others, Function.update_self]
  omega

theorem load_none (absent : ∀ w, weight w none = 0) : load weight (fun _ => none) = 0 :=
  Finset.sum_eq_zero (fun w _ => absent w)

/-- Two workers weigh no more than all. -/
theorem load_pair {v w : Fin n} (apart : v ≠ w) :
    weight v (workers v) + weight w (workers w) ≤ load weight workers := by
  have pair := Finset.sum_le_sum_of_subset (f := fun u => weight u (workers u)) (Finset.subset_univ {v, w})
  rwa [Finset.sum_pair apart] at pair

theorem load_single (w : Fin n) : weight w (workers w) ≤ load weight workers :=
  Finset.single_le_sum (f := fun v => weight v (workers v)) (fun _ _ => Nat.zero_le _) (Finset.mem_univ w)

end Load

def Leader.rank (n : Nat) : Leader → Nat
  | .creating t => (n - t) + (n + 2)
  | .joining t => (n - t) + 1
  | .joined => 0

section Progress
variable {p : Program n φ σ} {start : σ} {inv : Team n φ σ → Prop}

/-- A worker that is not created yet counts as one at its beginning. -/
def Team.rank (p : Program n φ σ) (left : Fin n → φ → Nat) (s : Team n φ σ) : Nat :=
  s.leader.rank n + load (fun w x => left w (x.getD (p.first w))) s.workers

theorem move_lowers {left : Fin n → φ → Nat} {s t : Team n φ σ} (formed : Formed p s)
    (lowers : ∀ w x y d, s.workers w = some x → p.step w x s.shared = some (y, d) → left w y < left w x)
    (move : Move p s t) : t.rank p left < s.rank p left := by
  unfold Team.rank
  have moved := load_move (fun w x => left w (x.getD (p.first w))) s.workers
  cases move with
  | @creates k at_ lt =>
    have same := moved ⟨k, lt⟩ (some (p.first ⟨k, lt⟩))
    rw [formed.fresh k at_ ⟨k, lt⟩ le_rfl] at same
    simp only [Option.getD_none, Option.getD_some] at same
    simp only [at_, Leader.rank]
    omega
  | opens at_ all =>
    simp only [at_, Leader.rank]
    omega
  | joins at_ lt ended =>
    simp only [at_, Leader.rank]
    omega
  | leaves at_ all =>
    simp only [at_, Leader.rank]
    omega
  | @works w x y d at_ step =>
    have lower := lowers w x y d at_ step
    have same := moved w (some y)
    rw [at_] at same
    simp only [Option.getD_some] at same
    simp only
    omega

/-- Where a worker can go on as long as one is left, a team that is not joined has a step. -/
theorem formed_progress {s : Team n φ σ} (formed : Formed p s) (unfinished : s.leader ≠ .joined)
    (progress : (∀ t, s.leader ≠ .creating t) → ∀ w x, s.workers w = some x → p.ended x = false →
      ∃ v y q, s.workers v = some y ∧ p.step v y s.shared = some q) :
    ∃ t, (p.team start).system.step s t := by
  cases at_ : s.leader with
  | creating t =>
    by_cases lt : t < n
    · exact ⟨_, step_of_move (.creates at_ lt)⟩
    · exact ⟨_, step_of_move (.opens at_ (not_lt.mp lt))⟩
  | joining t =>
    by_cases lt : t < n
    · cases there : s.workers ⟨t, lt⟩ with
      | none =>
        obtain ⟨u, eq, _⟩ := formed.there _ there
        rw [at_] at eq
        cases eq
      | some x =>
        cases ended : p.ended x with
        | true => exact ⟨_, step_of_move (.joins at_ lt (by rw [there]; exact ended))⟩
        | false =>
          have past : ∀ u, s.leader ≠ .creating u := fun u eq => by rw [at_] at eq; cases eq
          obtain ⟨v, y, q, own, step⟩ := progress past _ x there ended
          exact ⟨_, step_of_move (.works own step)⟩
    · exact ⟨_, step_of_move (.leaves at_ (not_lt.mp lt))⟩
  | joined => exact absurd at_ unfinished

variable {left : Fin n → φ → Nat}

/-- What a team owes to come to its end: its workers go on, and each step takes something off what is left. -/
structure Finishing (p : Program n φ σ) (start : σ) (inv : Team n φ σ → Prop) (left : Fin n → φ → Nat) : Prop where
  initial : inv (p.team start).start
  preserved : ∀ s t, Formed p s → inv s → Move p s t → inv t
  progress : ∀ s, inv s → (∀ t, s.leader ≠ .creating t) → ∀ w x, s.workers w = some x → p.ended x = false →
    ∃ v y q, s.workers v = some y ∧ p.step v y s.shared = some q
  lowers : ∀ w x y c d, p.step w x c = some (y, d) → left w y < left w x

/-- A team comes to its end on every run. -/
theorem Finishing.ends (finishing : Finishing p start inv left) :
    (p.team start).system.Ends (fun s => s.leader = .joined) (2 * n + 2 + ∑ w, left w (p.first w)) := by
  have ends := (p.team start).system.ends_of_rank (fun s => Formed p s ∧ inv s)
    (fun s => s.leader = .joined) (Team.rank p left) ⟨formed_start, finishing.initial⟩ (fun s t holds step => ?_)
    (fun s holds unfinished => formed_progress holds.1 unfinished (finishing.progress s holds.2)) (fun s t holds step => ?_)
  · have top : (p.team start).system.start.rank p left = 2 * n + 2 + ∑ w, left w (p.first w) := by
      show n + (n + 2) + ∑ w, left w (p.first w) = _
      omega
    rwa [top] at ends
  all_goals
    obtain ⟨i, step⟩ := step
    have move := move_of_step step
  · exact ⟨formed_move holds.1 move, finishing.preserved s t holds.1 holds.2 move⟩
  · exact move_lowers holds.1 (fun w x y d _ step => finishing.lowers w x y _ d step) move

end Progress

end ForkJoin
