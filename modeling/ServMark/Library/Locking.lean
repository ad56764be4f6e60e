import ServMark.Library.ForkJoin

/-! Workers that take a lock in each round of a loop, shared or exclusive. The lock stores how many
hold it shared and whether it is held exclusive, not by whom. -/
namespace Locking
open ForkJoin Transition

inductive Mode where
  | shared
  | exclusive
  deriving DecidableEq

structure Lock where
  readers : Nat
  writer : Bool
  deriving DecidableEq

def Lock.acquire (l : Lock) : Mode → Option Lock
  | .shared => if l.writer then none else some { l with readers := l.readers + 1 }
  | .exclusive => if l.writer ∨ 0 < l.readers then none else some { l with writer := true }

/-- Gives up what is held, in either mode. -/
def Lock.release (l : Lock) : Lock :=
  if l.writer then { l with writer := false } else { l with readers := l.readers - 1 }

/-- The mode of each worker, its number of rounds and what it does under the lock. -/
structure Loop (n : Nat) (σ : Type) where
  mode : Fin n → Mode
  rounds : Fin n → Nat
  act : Fin n → σ → σ

inductive Phase where
  | spinning
  | top (i : Nat)
  | inside (i : Nat)
  | leaving (i : Nat)
  | ended
  deriving DecidableEq

structure Guarded (σ : Type) where
  ready : Bool
  lock : Lock
  data : σ

variable {n : Nat} {σ : Type}

/-- A worker spins until the gate is open; the turns that find it shut change nothing and are no steps. -/
def Loop.step (m : Loop n σ) (w : Fin n) (phase : Phase) (g : Guarded σ) : Option (Phase × Guarded σ) :=
  match phase with
  | .spinning => if g.ready then some (.top 0, g) else none
  | .top i =>
    if i < m.rounds w then
      match g.lock.acquire (m.mode w) with
      | none => none
      | some lock => some (.inside i, { g with lock := lock })
    else some (.ended, g)
  | .inside i => some (.leaving i, { g with data := m.act w g.data })
  | .leaving i => some (.top (i + 1), { g with lock := g.lock.release })
  | .ended => none

def Phase.over : Phase → Bool
  | .ended => true
  | _ => false

theorem step_over (m : Loop n σ) (w : Fin n) (x : Phase) (g : Guarded σ) (last : x.over = true) :
    m.step w x g = none := by
  cases x <;> first | rfl | cases last

def Loop.program (m : Loop n σ) : Program n Phase (Guarded σ) where
  first _ := .spinning
  step := m.step
  ended := Phase.over
  opened g := { g with ready := true }
  rest := step_over m

/- What one turn of a worker does. -/
inductive Turn (m : Loop n σ) (w : Fin n) : Phase → Guarded σ → Phase → Guarded σ → Prop
  | goes {g : Guarded σ} (ready : g.ready = true) : Turn m w .spinning g (.top 0) g
  | takes {i : Nat} {g : Guarded σ} {lock : Lock} (more : i < m.rounds w)
      (free : g.lock.acquire (m.mode w) = some lock) : Turn m w (.top i) g (.inside i) { g with lock := lock }
  | ends {i : Nat} {g : Guarded σ} (all : m.rounds w ≤ i) : Turn m w (.top i) g .ended g
  | acts {i : Nat} {g : Guarded σ} : Turn m w (.inside i) g (.leaving i) { g with data := m.act w g.data }
  | releases {i : Nat} {g : Guarded σ} :
      Turn m w (.leaving i) g (.top (i + 1)) { g with lock := g.lock.release }

theorem turn_of_step {m : Loop n σ} {w : Fin n} {x y : Phase} {g d : Guarded σ} (step : m.step w x g = some (y, d)) :
    Turn m w x g y d := by
  unfold Loop.step at step
  cases x with
  | spinning =>
    simp only at step
    split at step
    · rename_i ready
      cases step
      exact .goes ready
    · cases step
  | top i =>
    simp only at step
    split at step
    · rename_i more
      cases free : g.lock.acquire (m.mode w) with
      | none =>
        simp only [free] at step
        cases step
      | some lock =>
        simp only [free] at step
        cases step
        exact .takes more free
    · rename_i all
      cases step
      exact .ends (not_lt.mp all)
  | inside i =>
    cases step
    exact .acts
  | leaving i =>
    cases step
    exact .releases
  | ended => cases step

def Phase.holds : Phase → Bool
  | .inside _ => true
  | .leaving _ => true
  | _ => false

/-- One for a worker of this mode that holds the lock. -/
def Loop.holding (m : Loop n σ) (mode : Mode) (w : Fin n) (x : Option Phase) : Nat :=
  if m.mode w = mode then (x.any Phase.holds).toNat else 0

/-- The rounds in which a worker has acted. -/
def Phase.acted (rounds : Nat) : Phase → Nat
  | .spinning => 0
  | .top i => i
  | .inside i => i
  | .leaving i => i + 1
  | .ended => rounds

def Phase.within (rounds : Nat) : Phase → Prop
  | .top i => i ≤ rounds
  | .inside i => i < rounds
  | .leaving i => i < rounds
  | _ => True

/-- The lock counts those that hold it, and nobody shares it with a writer. -/
structure Held (m : Loop n σ) (s : Team n Phase (Guarded σ)) : Prop where
  readers : s.shared.lock.readers = load (m.holding .shared) s.workers
  writer : s.shared.lock.writer.toNat = load (m.holding .exclusive) s.workers
  apart : s.shared.lock.writer = true → s.shared.lock.readers = 0
  ready : (∀ t, s.leader ≠ .creating t) → s.shared.ready = true
  within : ∀ w x, s.workers w = some x → x.within (m.rounds w)

section Held
variable {m : Loop n σ} {s t : Team n Phase (Guarded σ)}

theorem holding_absent (m : Loop n σ) (mode : Mode) (w : Fin n) : m.holding mode w none = 0 := ite_self 0

theorem held_start {d : σ} : Held m ((m.program.team ⟨false, ⟨0, false⟩, d⟩).start) where
  readers := (load_none _ (holding_absent m .shared)).symm
  writer := (load_none _ (holding_absent m .exclusive)).symm
  apart := nofun
  ready others := absurd rfl (others 0)
  within := nofun

theorem Held.within_update (held : Held m s) {w : Fin n} {y : Phase} (within : y.within (m.rounds w)) :
    ∀ v z, Function.update s.workers w (some y) v = some z → z.within (m.rounds v) := by
  intro v z there
  rcases eq_or_ne v w with rfl | other
  · rw [Function.update_self] at there
    cases there
    exact within
  · rw [Function.update_of_ne other] at there
    exact held.within v z there

/-- A step that leaves the lock alone and neither takes nor gives it up. -/
theorem Held.keeps (held : Held m s) {w : Fin n} {x : Option Phase} {y : Phase} {g : Guarded σ} {leader : Leader}
    (at_ : s.workers w = x) (same : x.any Phase.holds = y.holds) (lock : g.lock = s.shared.lock)
    (ready : (∀ t, leader ≠ .creating t) → g.ready = true) (within : y.within (m.rounds w)) :
    Held m ⟨leader, g, Function.update s.workers w (some y)⟩ := by
  have stays (mode : Mode) : load (m.holding mode) (Function.update s.workers w (some y)) =
      load (m.holding mode) s.workers := by
    have moved := load_move (m.holding mode) s.workers w (some y)
    have equal : m.holding mode w (some y) = m.holding mode w (s.workers w) := by
      simp only [Loop.holding, at_, same, Option.any_some]
    omega
  refine ⟨?_, ?_, ?_, ready, held.within_update within⟩
  · rw [stays, lock]
    exact held.readers
  · rw [stays, lock]
    exact held.writer
  · rw [lock]
    exact held.apart

theorem holding_own {w : Fin n} {mode : Mode} (own : m.mode w = mode) (x : Phase) :
    m.holding mode w (some x) = x.holds.toNat := if_pos own

theorem holding_other {w : Fin n} {mode : Mode} (other : m.mode w ≠ mode) (x : Option Phase) :
    m.holding mode w x = 0 := if_neg other

/-- A worker of the mode changes its count, and the count of the other mode stays. -/
theorem holding_move {w : Fin n} {x : Phase} (at_ : s.workers w = some x) (y : Phase) {mode : Mode}
    (own : m.mode w = mode) : load (m.holding mode) (Function.update s.workers w (some y)) + x.holds.toNat =
      load (m.holding mode) s.workers + y.holds.toNat ∧
    ∀ other, other ≠ mode →
      load (m.holding other) (Function.update s.workers w (some y)) = load (m.holding other) s.workers := by
  have moved (mode : Mode) := load_move (m.holding mode) s.workers w (some y)
  constructor
  · have same := moved mode
    rwa [at_, holding_own own, holding_own own] at same
  · intro other apart
    have same := moved other
    rwa [holding_other (fun eq => apart (eq.symm.trans own)), holding_other (fun eq => apart (eq.symm.trans own)),
      Nat.add_zero, Nat.add_zero] at same

theorem acquire_cases {l lock : Lock} {mode : Mode} (free : l.acquire mode = some lock) :
    l.writer = false ∧ (mode = .shared ∧ lock = { l with readers := l.readers + 1 } ∨
      mode = .exclusive ∧ l.readers = 0 ∧ lock = { l with writer := true }) := by
  cases mode with
  | shared =>
    simp only [Lock.acquire] at free
    split at free
    · cases free
    · rename_i open_
      cases free
      exact ⟨Bool.eq_false_of_not_eq_true open_, Or.inl ⟨rfl, rfl⟩⟩
  | exclusive =>
    simp only [Lock.acquire] at free
    split at free
    · cases free
    · rename_i open_
      cases free
      obtain ⟨unset, none_⟩ := not_or.mp open_
      exact ⟨Bool.eq_false_of_not_eq_true unset, Or.inr ⟨rfl, Nat.eq_zero_of_not_pos none_, rfl⟩⟩

theorem Held.takes (held : Held m s) {w : Fin n} {i : Nat} {lock : Lock} (at_ : s.workers w = some (.top i))
    (more : i < m.rounds w) (free : s.shared.lock.acquire (m.mode w) = some lock) :
    Held m ⟨s.leader, { s.shared with lock := lock }, Function.update s.workers w (some (.inside i))⟩ := by
  have readers := held.readers
  have writer := held.writer
  obtain ⟨off, ⟨mode, rfl⟩ | ⟨mode, none_, rfl⟩⟩ := acquire_cases free
  · obtain ⟨shared, others⟩ := holding_move at_ (.inside i) mode
    have exclusive := others .exclusive (by decide)
    simp only [Phase.holds, Bool.toNat_false, Bool.toNat_true] at shared
    refine ⟨?_, ?_, fun set => absurd (off.symm.trans set) (by decide), held.ready, held.within_update more⟩
    · simp only
      omega
    · simp only
      omega
  · obtain ⟨exclusive, others⟩ := holding_move at_ (.inside i) mode
    have shared := others .shared (by decide)
    simp only [Phase.holds, Bool.toNat_false, Bool.toNat_true] at exclusive
    rw [off, Bool.toNat_false] at writer
    refine ⟨?_, ?_, fun _ => none_, held.ready, held.within_update more⟩
    · simp only
      omega
    · simp only [Bool.toNat_true]
      omega

/-- Whoever holds the lock is counted. -/
theorem Held.counts (held : Held m s) {w : Fin n} {x : Phase} (at_ : s.workers w = some x) (holds : x.holds = true) :
    (m.mode w = .shared → 0 < s.shared.lock.readers ∧ s.shared.lock.writer = false) ∧
    (m.mode w = .exclusive → s.shared.lock.writer = true) := by
  have single (mode : Mode) (own : m.mode w = mode) : 1 ≤ load (m.holding mode) s.workers := by
    have one := load_single (m.holding mode) s.workers w
    rwa [at_, holding_own own, holds] at one
  refine ⟨fun mode => ?_, fun mode => ?_⟩
  · have some_ := single .shared mode
    rw [← held.readers] at some_
    refine ⟨some_, ?_⟩
    cases set : s.shared.lock.writer with
    | false => rfl
    | true =>
      have none_ := held.apart set
      omega
  · have some_ := single .exclusive mode
    rw [← held.writer] at some_
    cases set : s.shared.lock.writer with
    | false =>
      rw [set, Bool.toNat_false] at some_
      omega
    | true => rfl

theorem Held.releases (held : Held m s) {w : Fin n} {i : Nat} (at_ : s.workers w = some (.leaving i)) :
    Held m ⟨s.leader, { s.shared with lock := s.shared.lock.release },
      Function.update s.workers w (some (.top (i + 1)))⟩ := by
  have readers := held.readers
  have writer := held.writer
  have within : i < m.rounds w := held.within w _ at_
  have counts := held.counts at_ rfl
  cases mode : m.mode w with
  | shared =>
    obtain ⟨some_, off⟩ := counts.1 mode
    have released : s.shared.lock.release = { s.shared.lock with readers := s.shared.lock.readers - 1 } := by
      rw [Lock.release, if_neg (by rw [off]; decide)]
    obtain ⟨shared, others⟩ := holding_move at_ (.top (i + 1)) mode
    have exclusive := others .exclusive (by decide)
    simp only [Phase.holds, Bool.toNat_false, Bool.toNat_true] at shared
    rw [released]
    refine ⟨?_, ?_, fun set => absurd (off.symm.trans set) (by decide), held.ready, held.within_update within⟩
    · simp only
      omega
    · simp only
      omega
  | exclusive =>
    have set := counts.2 mode
    have released : s.shared.lock.release = { s.shared.lock with writer := false } := by rw [Lock.release, if_pos set]
    obtain ⟨exclusive, others⟩ := holding_move at_ (.top (i + 1)) mode
    have shared := others .shared (by decide)
    simp only [Phase.holds, Bool.toNat_false, Bool.toNat_true] at exclusive
    rw [set, Bool.toNat_true] at writer
    rw [released]
    refine ⟨?_, ?_, nofun, held.ready, held.within_update within⟩
    · simp only
      omega
    · simp only [Bool.toNat_false]
      omega

theorem held_move (formed : Formed m.program s) (held : Held m s) (move : Move m.program s t) : Held m t := by
  cases move with
  | @creates k at_ lt =>
    have absent := formed.fresh k at_ ⟨k, lt⟩ le_rfl
    exact held.keeps absent rfl rfl (fun others => absurd rfl (others (k + 1))) trivial
  | @opens k at_ all => exact ⟨held.readers, held.writer, held.apart, fun _ => rfl, held.within⟩
  | @joins k at_ lt ended =>
    exact ⟨held.readers, held.writer, held.apart,
      fun _ => held.ready (fun u eq => by rw [at_] at eq; cases eq), held.within⟩
  | @leaves k at_ all =>
    exact ⟨held.readers, held.writer, held.apart,
      fun _ => held.ready (fun u eq => by rw [at_] at eq; cases eq), held.within⟩
  | @works w x y d at_ step =>
    cases turn_of_step step with
    | goes ready => exact held.keeps at_ rfl rfl held.ready (Nat.zero_le _)
    | takes more free => exact held.takes at_ more free
    | ends all => exact held.keeps at_ rfl rfl held.ready trivial
    | acts =>
      have within := held.within w _ at_
      exact held.keeps at_ rfl rfl held.ready within
    | releases => exact held.releases at_

theorem team_held {d : σ} (reachable : (m.program.team ⟨false, ⟨0, false⟩, d⟩).system.Reachable s) : Held m s :=
  team_invariant (Held m) held_start (fun _ _ formed held move => held_move formed held move) reachable

/-- Two workers under the lock at once both share it. -/
theorem Held.exclusive (held : Held m s) {v w : Fin n} (apart : v ≠ w) {x y : Phase} (at_v : s.workers v = some x)
    (at_w : s.workers w = some y) (holds_v : x.holds = true) (holds_w : y.holds = true) :
    m.mode v = .shared := by
  cases mode_v : m.mode v with
  | shared => rfl
  | exclusive =>
    have set := (held.counts at_v holds_v).2 mode_v
    cases mode_w : m.mode w with
    | shared =>
      have off := ((held.counts at_w holds_w).1 mode_w).2
      rw [set] at off
      cases off
    | exclusive =>
      have pair := load_pair (m.holding .exclusive) s.workers apart
      rw [at_v, at_w, holding_own mode_v, holding_own mode_w, holds_v, holds_w, ← held.writer, set] at pair
      exact absurd pair (by decide)

/-- The lock of a team whose workers have all ended is free. -/
theorem Held.free (held : Held m s) (ended : ∀ w, s.workers w = some .ended) : s.shared.lock = ⟨0, false⟩ := by
  have none_ (mode : Mode) : load (m.holding mode) s.workers = 0 :=
    Finset.sum_eq_zero (fun w _ => by rw [ended w]; exact ite_self 0)
  have readers := held.readers.trans (none_ .shared)
  have writer := held.writer.trans (none_ .exclusive)
  cases eq : s.shared.lock with
  | mk r wr =>
    rw [eq] at readers writer
    obtain rfl : r = 0 := readers
    cases wr with
    | false => rfl
    | true => cases writer

end Held

/- What the workers have added to a measure of the data. -/
section Counted
variable {m : Loop n σ} {s t : Team n Phase (Guarded σ)} (measure : σ → Nat) (gain : Fin n → Nat)

def Loop.gained (m : Loop n σ) (gain : Fin n → Nat) (w : Fin n) (x : Option Phase) : Nat :=
  x.elim 0 (fun x => gain w * x.acted (m.rounds w))

variable {measure gain} (adds : ∀ w d, measure (m.act w d) = measure d + gain w)
include adds

theorem counted_move {before : Nat} (formed : Formed m.program s) (held : Held m s)
    (counted : measure s.shared.data = before + load (m.gained gain) s.workers) (move : Move m.program s t) :
    measure t.shared.data = before + load (m.gained gain) t.workers := by
  have moved (w : Fin n) (y : Phase) := load_move (m.gained gain) s.workers w (some y)
  cases move with
  | @creates k at_ lt =>
    have same := moved ⟨k, lt⟩ .spinning
    rw [formed.fresh k at_ ⟨k, lt⟩ le_rfl] at same
    exact counted.trans (congrArg (before + ·) same.symm)
  | opens at_ all => exact counted
  | joins at_ lt ended => exact counted
  | leaves at_ all => exact counted
  | @works w x y d at_ step =>
    have same := moved w y
    rw [at_] at same
    have within := held.within w x at_
    cases turn_of_step step with
    | goes ready => exact counted.trans (congrArg (before + ·) same.symm)
    | takes more free => exact counted.trans (congrArg (before + ·) (Nat.add_right_cancel same).symm)
    | @ends i _ all =>
      have last : i = m.rounds w := le_antisymm within all
      rw [last] at same
      exact counted.trans (congrArg (before + ·) (Nat.add_right_cancel same).symm)
    | @acts i _ =>
      have more : gain w * (i + 1) = gain w * i + gain w := Nat.mul_succ _ _
      have one := adds w s.shared.data
      simp only [Loop.gained, Option.elim_some, Phase.acted] at same
      simp only
      omega
    | releases => exact counted.trans (congrArg (before + ·) (Nat.add_right_cancel same).symm)

theorem team_counted {d : σ} (reachable : (m.program.team ⟨false, ⟨0, false⟩, d⟩).system.Reachable s) :
    measure s.shared.data = measure d + load (m.gained gain) s.workers := by
  have both : Held m s ∧ measure s.shared.data = measure d + load (m.gained gain) s.workers := by
    refine team_invariant (fun s => Held m s ∧ measure s.shared.data = measure d + load (m.gained gain) s.workers)
      ⟨held_start, ?_⟩ (fun _ _ formed holds move => ⟨held_move formed holds.1 move,
      counted_move adds formed holds.1 holds.2 move⟩) reachable
    exact congrArg (measure d + ·) (load_none _ (fun _ => rfl)).symm
  exact both.2

/-- Behind the last join every worker has acted in all its rounds. -/
theorem joined_counted {d : σ} (reachable : (m.program.team ⟨false, ⟨0, false⟩, d⟩).system.Reachable s)
    (ended : ∀ w, s.workers w = some .ended) :
    measure s.shared.data = measure d + ∑ w, gain w * m.rounds w := by
  rw [team_counted adds reachable]
  exact congrArg (measure d + ·) (Finset.sum_congr rfl (fun w _ => by rw [ended w]; rfl))

end Counted

theorem joined_ended {m : Loop n σ} {s : Team n Phase (Guarded σ)} (formed : Formed m.program s)
    (joined : s.leader = .joined) (w : Fin n) : s.workers w = some .ended := by
  obtain ⟨x, there, ended⟩ := formed.all_ended joined w
  cases x with
  | ended => exact there
  | _ => cases ended

/-- The turns that a worker has left. -/
def Phase.left (rounds : Nat) : Phase → Nat
  | .spinning => 3 * rounds + 2
  | .top i => 3 * (rounds - i) + 1
  | .inside i => 3 * (rounds - (i + 1)) + 3
  | .leaving i => 3 * (rounds - (i + 1)) + 2
  | .ended => 0

section Ends
variable {m : Loop n σ} {s : Team n Phase (Guarded σ)}

theorem step_lowers {w : Fin n} {x y : Phase} {g d : Guarded σ} (step : m.step w x g = some (y, d)) :
    y.left (m.rounds w) < x.left (m.rounds w) := by
  cases turn_of_step step <;> simp only [Phase.left] <;> omega

/-- A lock that cannot be taken is held by someone. -/
theorem Held.holder (held : Held m s) {mode : Mode} (blocked : s.shared.lock.acquire mode = none) :
    ∃ v y, s.workers v = some y ∧ y.holds = true := by
  have found (mode : Mode) (some_ : load (m.holding mode) s.workers ≠ 0) :
      ∃ v y, s.workers v = some y ∧ y.holds = true := by
    obtain ⟨v, _, weighs⟩ := Finset.exists_ne_zero_of_sum_ne_zero some_
    have any : (s.workers v).any Phase.holds = true := by
      by_contra none_
      rw [Loop.holding, Bool.eq_false_of_not_eq_true none_, Bool.toNat_false, ite_self] at weighs
      exact weighs rfl
    exact ⟨v, (Option.any_eq_true _ _).mp any⟩
  have writes : s.shared.lock.writer = true → ∃ v y, s.workers v = some y ∧ y.holds = true := by
    intro set
    apply found .exclusive
    rw [← held.writer, set]
    decide
  cases mode with
  | shared =>
    simp only [Lock.acquire] at blocked
    split at blocked
    · rename_i set
      exact writes set
    · cases blocked
  | exclusive =>
    simp only [Lock.acquire] at blocked
    split at blocked
    · rename_i busy
      rcases busy with set | some_
      · exact writes set
      · exact found .shared (by rw [← held.readers]; exact some_.ne')
    · cases blocked

theorem Held.progress (held : Held m s) (created : ∀ t, s.leader ≠ .creating t) {w : Fin n} {x : Phase}
    (at_ : s.workers w = some x) (unfinished : x.over = false) :
    ∃ v y q, s.workers v = some y ∧ m.step v y s.shared = some q := by
  cases x with
  | spinning => exact ⟨w, _, _, at_, if_pos (held.ready created)⟩
  | top i =>
    by_cases more : i < m.rounds w
    · cases free : s.shared.lock.acquire (m.mode w) with
      | some lock =>
        exact ⟨w, _, (.inside i, { s.shared with lock := lock }), at_, by simp only [Loop.step, if_pos more, free]⟩
      | none =>
        obtain ⟨v, y, there, holds⟩ := held.holder free
        cases y with
        | inside j => exact ⟨v, _, _, there, rfl⟩
        | leaving j => exact ⟨v, _, _, there, rfl⟩
        | spinning => cases holds
        | top j => cases holds
        | ended => cases holds
    · exact ⟨w, _, _, at_, if_neg more⟩
  | inside i => exact ⟨w, _, _, at_, rfl⟩
  | leaving i => exact ⟨w, _, _, at_, rfl⟩
  | ended => cases unfinished

theorem loop_finishing (m : Loop n σ) (d : σ) : Finishing m.program ⟨false, ⟨0, false⟩, d⟩ (Held m)
    (fun w x => x.left (m.rounds w)) where
  initial := held_start
  preserved _ _ formed held move := held_move formed held move
  progress _ held created _ _ at_ unfinished := held.progress created at_ unfinished
  lowers _ _ _ _ _ step := step_lowers step

end Ends

end Locking
