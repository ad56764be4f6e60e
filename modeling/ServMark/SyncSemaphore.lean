import ServMark.Library.Tally
import ServMark.Library.Transition

/-! sync_semaphore.c: the thread that posts and any number of waiters. Each call of sem_post and
sem_wait and each access to a flag is a step of its own. -/
namespace ServMark
open Tally Transition

/-- SEM_VALUE_MAX of the library, also the greatest int. -/
def semValueMax : Nat := 2147483647

/-- sem_post, which fails where the value is the greatest. -/
def semPost (value : Nat) : Nat := if value < semValueMax then value + 1 else value

inductive WaiterPhase where
  | absent
  | spinning
  | testing
  | waiting
  | ended
  deriving DecidableEq

/-- Where sync_semaphore_measure stands behind the stores that reset the flags. -/
inductive PosterPhase where
  | creating (t : Nat)
  | posting (i : Nat)
  | counting (i : Nat)
  | closing (t : Nat)
  | joining (t : Nat)
  | joined
  deriving DecidableEq

structure Semaphore (n : Nat) where
  value : Nat
  ready : Bool
  done : Bool
  wakeups : Nat
  poster : PosterPhase
  waiters : Fin n → WaiterPhase

section Steps
variable {n : Nat}

def Semaphore.turn (s : Semaphore n) (w : Fin n) (phase : WaiterPhase) : Semaphore n :=
  { s with waiters := Function.update s.waiters w phase }

theorem turn_self (s : Semaphore n) (w : Fin n) (phase : WaiterPhase) : (s.turn w phase).waiters w = phase := by
  simp only [Semaphore.turn, Function.update_self]

theorem turn_other (s : Semaphore n) {v w : Fin n} (other : v ≠ w) (phase : WaiterPhase) :
    (s.turn w phase).waiters v = s.waiters v := by
  simp only [Semaphore.turn, Function.update_of_ne other]

/-- The thread that measures, with m posts before the flag is set. -/
def posterStep (m : Nat) (s : Semaphore n) : Option (Semaphore n) :=
  match s.poster with
  | .creating t =>
    if lt : t < n then some { s.turn ⟨t, lt⟩ .spinning with poster := .creating (t + 1) }
    else some { s with ready := true, poster := .posting 0 }
  | .posting i =>
    if i < m then some { s with value := semPost s.value, poster := .counting i }
    else some { s with done := true, poster := .closing 0 }
  | .counting i => some { s with wakeups := s.wakeups + 1, poster := .posting (i + 1) }
  | .closing t =>
    if t < n then some { s with value := semPost s.value, poster := .closing (t + 1) }
    else some { s with poster := .joining 0 }
  | .joining t =>
    if lt : t < n then if s.waiters ⟨t, lt⟩ = .ended then some { s with poster := .joining (t + 1) } else none
    else some { s with poster := .joined }
  | .joined => none

/-- sem_waiter. A call of sem_wait takes one from the value or waits for it. -/
def waiterStep (s : Semaphore n) (w : Fin n) : Option (Semaphore n) :=
  match s.waiters w with
  | .absent => none
  | .spinning => if s.ready then some (s.turn w .testing) else some s
  | .testing => if s.done then some (s.turn w .ended) else some (s.turn w .waiting)
  | .waiting => if 0 < s.value then some { s.turn w .testing with value := s.value - 1 } else none
  | .ended => none

/-- One call of sync_semaphore_measure on a semaphore with that value; none is the thread that posts. -/
def semaphoreRun (n m value : Nat) : Machine (Option (Fin n)) (Semaphore n) where
  start := ⟨value, false, false, 0, .creating 0, fun _ => .absent⟩
  step
    | none => posterStep m
    | some w => fun s => waiterStep s w

/-- All posts are made. -/
def Semaphore.Posted (s : Semaphore n) : Prop :=
  (∃ t, n ≤ t ∧ s.poster = .closing t) ∨ (∃ t, s.poster = .joining t) ∨ s.poster = .joined

end Steps

def WaiterPhase.waits : WaiterPhase → Nat
  | .waiting => 1
  | _ => 0

/-- The posts that are still made behind the flag, of n. -/
def PosterPhase.left (n : Nat) : PosterPhase → Nat
  | .closing t => n - t
  | _ => 0

def PosterPhase.closes : PosterPhase → Bool
  | .creating _ => false
  | .posting _ => false
  | .counting _ => false
  | .closing _ => true
  | .joining _ => true
  | .joined => true

/-- Behind the flag there is a post for each waiter in sem_wait. -/
structure Supplied {n : Nat} (s : Semaphore n) : Prop where
  flag : s.done = s.poster.closes
  started : ∀ t, s.poster = .creating t → s.ready = false ∧ t ≤ n ∧ ∀ w : Fin n, t ≤ w → s.waiters w = .absent
  born : ∀ w : Fin n, s.waiters w = .absent → ∃ t, s.poster = .creating t ∧ t ≤ w
  opened : (∀ t, s.poster ≠ .creating t) → s.ready = true
  posts : s.done = true → tally WaiterPhase.waits s.waiters ≤ s.value + s.poster.left n
  joined : ∀ w : Fin n, (∃ t, s.poster = .joining t ∧ w < t) ∨ s.poster = .joined → s.waiters w = .ended

section Preserved
variable {n m value : Nat} {s t : Semaphore n}

theorem supplied_start : Supplied (semaphoreRun n m value).start where
  flag := rfl
  started t eq := by
    cases eq
    exact ⟨rfl, Nat.zero_le n, fun _ _ => rfl⟩
  born w _ := ⟨0, rfl, Nat.zero_le w⟩
  opened other := absurd rfl (other 0)
  posts set := nomatch set
  joined w ended := by
    obtain ⟨t, eq, _⟩ | eq := ended
    · cases eq
    · cases eq

/-- A waiter goes on from its phase to another one with a value that is still enough. -/
theorem Supplied.turn (inv : Supplied s) {w : Fin n} {phase : WaiterPhase} {value : Nat}
    (there : s.waiters w ≠ .absent) (alive : s.waiters w ≠ .ended) (stays : phase ≠ .absent)
    (posts : s.done = true → tally WaiterPhase.waits (Function.update s.waiters w phase) ≤ value + s.poster.left n) :
    Supplied { s.turn w phase with value := value } := by
  refine { inv with started := fun t eq => ?_, born := fun v gone => ?_, posts := posts, joined := fun v ended => ?_ }
  · obtain ⟨closed, within, absent⟩ := inv.started t eq
    refine ⟨closed, within, fun v later => ?_⟩
    have other : v ≠ w := fun same => there (same ▸ absent v later)
    exact (turn_other s other phase).trans (absent v later)
  · rcases eq_or_ne v w with rfl | other
    · exact absurd ((turn_self s v phase).symm.trans gone) stays
    · exact inv.born v ((turn_other s other phase).symm.trans gone)
  · have before := inv.joined v ended
    have other : v ≠ w := fun same => alive (same ▸ before)
    exact (turn_other s other phase).trans before

theorem supplied_waiter (inv : Supplied s) {w : Fin n} (step : waiterStep s w = some t) : Supplied t := by
  unfold waiterStep at step
  have moved (phase : WaiterPhase) := tally_move WaiterPhase.waits s.waiters w phase
  cases phase : s.waiters w with
  | absent => simp only [phase] at step; cases step
  | spinning =>
    simp only [phase] at step moved
    split at step
    · obtain rfl := Option.some.inj step
      refine inv.turn (by simp [phase]) (by simp [phase]) (by simp) (fun set => ?_)
      have before := inv.posts set
      have moved := moved .testing
      simp only [WaiterPhase.waits] at moved
      omega
    · obtain rfl := Option.some.inj step
      exact inv
  | testing =>
    simp only [phase] at step moved
    split at step
    · obtain rfl := Option.some.inj step
      refine inv.turn (by simp [phase]) (by simp [phase]) (by simp) (fun set => ?_)
      have before := inv.posts set
      have moved := moved .ended
      simp only [WaiterPhase.waits] at moved
      omega
    · rename_i unset
      obtain rfl := Option.some.inj step
      exact inv.turn (by simp [phase]) (by simp [phase]) (by simp) (fun set => absurd set unset)
  | waiting =>
    simp only [phase] at step moved
    split at step
    · rename_i positive
      obtain rfl := Option.some.inj step
      refine inv.turn (by simp [phase]) (by simp [phase]) (by simp) (fun set => ?_)
      have before := inv.posts set
      have moved := moved .testing
      simp only [WaiterPhase.waits] at moved
      omega
    · cases step
  | ended => simp only [phase] at step; cases step

theorem tally_waits (waiters : Fin n → WaiterPhase) : tally WaiterPhase.waits waiters ≤ n := by
  have most := tally_le WaiterPhase.waits (c := 1) (fun phase => by cases phase <;> decide) waiters
  simpa only [Fintype.card_fin, Nat.mul_one] using most

/-- The thread that posts goes on behind the creation of the waiters. -/
theorem Supplied.advance (inv : Supplied s) {value wakeups : Nat} {done : Bool} {poster : PosterPhase}
    (past : ∀ u, s.poster ≠ .creating u) (goes : ∀ u, poster ≠ .creating u) (flag : done = poster.closes)
    (posts : done = true → tally WaiterPhase.waits s.waiters ≤ value + poster.left n)
    (joined : ∀ w : Fin n, (∃ u, poster = .joining u ∧ w < u) ∨ poster = .joined → s.waiters w = .ended) :
    Supplied { s with value := value, wakeups := wakeups, done := done, poster := poster } where
  flag := flag
  started u eq := absurd eq (goes u)
  born w gone := by
    obtain ⟨u, eq, _⟩ := inv.born w gone
    exact absurd eq (past u)
  opened _ := inv.opened past
  posts := posts
  joined := joined

/-- The next waiter is created. -/
theorem Supplied.creates (inv : Supplied s) {u : Nat} (phase : s.poster = .creating u) (lt : u < n) :
    Supplied { s.turn ⟨u, lt⟩ .spinning with poster := .creating (u + 1) } := by
  obtain ⟨closed, within, absent⟩ := inv.started u phase
  have flag : s.done = false := by rw [inv.flag, phase, PosterPhase.closes]
  refine ⟨flag, fun v eq => ?_, fun w gone => ?_, fun other => absurd rfl (other (u + 1)), fun set => ?_, fun w ended => ?_⟩
  · cases eq
    refine ⟨closed, lt, fun w later => ?_⟩
    have other : w ≠ ⟨u, lt⟩ := fun same => absurd (congrArg Fin.val same) (by simp only; omega)
    exact (turn_other s other .spinning).trans (absent w (by omega))
  · refine ⟨u + 1, rfl, ?_⟩
    have other : w ≠ ⟨u, lt⟩ := by
      rintro rfl
      cases (turn_self s ⟨u, lt⟩ .spinning).symm.trans gone
    obtain ⟨v, eq, later⟩ := inv.born w ((turn_other s other .spinning).symm.trans gone)
    simp only [phase] at eq
    cases eq
    have apart : (w : Nat) ≠ u := fun same => other (Fin.ext same)
    omega
  · exact absurd (flag.symm.trans set) Bool.false_ne_true
  · obtain ⟨v, eq, _⟩ | eq := ended
    · cases eq
    · cases eq

/-- All waiters are there, and may start. -/
theorem Supplied.opens (inv : Supplied s) {u : Nat} (phase : s.poster = .creating u) (last : ¬ u < n) :
    Supplied { s with ready := true, poster := .posting 0 } := by
  have flag : s.done = false := by rw [inv.flag, phase, PosterPhase.closes]
  refine ⟨flag, fun v eq => (nomatch eq), fun w gone => ?_, fun _ => rfl, fun set => ?_, fun w ended => ?_⟩
  · obtain ⟨v, eq, later⟩ := inv.born w gone
    simp only [phase] at eq
    cases eq
    have below := w.isLt
    omega
  · exact absurd (flag.symm.trans set) Bool.false_ne_true
  · obtain ⟨v, eq, _⟩ | eq := ended
    · cases eq
    · cases eq

/-- One more waiter has been joined. -/
theorem Supplied.joins (inv : Supplied s) {u : Nat} (phase : s.poster = .joining u) (lt : u < n)
    (ended : s.waiters ⟨u, lt⟩ = .ended) : Supplied { s with poster := .joining (u + 1) } := by
  have past : ∀ u, s.poster ≠ .creating u := by simp [phase]
  have flag := inv.flag
  have posts := inv.posts
  simp only [phase, PosterPhase.closes, PosterPhase.left] at flag posts
  refine inv.advance past nofun flag posts ?_
  rintro w (⟨v, eq, early⟩ | eq)
  · cases eq
    rcases Nat.lt_succ_iff_lt_or_eq.mp early with before | same
    · exact inv.joined w (Or.inl ⟨u, phase, before⟩)
    · rwa [show w = ⟨u, lt⟩ from Fin.ext same]
  · cases eq

theorem supplied_poster (fits : n ≤ semValueMax) (inv : Supplied s) (step : posterStep m s = some t) :
    Supplied t := by
  have most := tally_waits s.waiters
  have flag := inv.flag
  have posts := inv.posts
  unfold posterStep at step
  cases phase : s.poster with
  | creating u =>
    simp only [phase] at step
    split at step
    · rename_i lt
      obtain rfl := Option.some.inj step
      exact inv.creates phase lt
    · rename_i last
      obtain rfl := Option.some.inj step
      exact inv.opens phase last
  | posting i =>
    have past : ∀ u, s.poster ≠ .creating u := by simp [phase]
    simp only [phase, PosterPhase.closes] at step flag
    split at step
    · obtain rfl := Option.some.inj step
      exact inv.advance past nofun flag (fun set => nomatch flag.symm.trans set)
        (by rintro w (⟨u, eq, _⟩ | eq) <;> cases eq)
    · obtain rfl := Option.some.inj step
      exact inv.advance past nofun rfl (fun _ => by simp only [PosterPhase.left]; omega)
        (by rintro w (⟨u, eq, _⟩ | eq) <;> cases eq)
  | counting i =>
    have past : ∀ u, s.poster ≠ .creating u := by simp [phase]
    simp only [phase, PosterPhase.closes] at step flag
    obtain rfl := Option.some.inj step
    exact inv.advance past nofun flag (fun set => nomatch flag.symm.trans set)
      (by rintro w (⟨u, eq, _⟩ | eq) <;> cases eq)
  | closing u =>
    have past : ∀ u, s.poster ≠ .creating u := by simp [phase]
    simp only [phase, PosterPhase.closes, PosterPhase.left] at step flag posts
    split at step
    · obtain rfl := Option.some.inj step
      refine inv.advance past nofun flag (fun set => ?_) (by rintro w (⟨u, eq, _⟩ | eq) <;> cases eq)
      have before := posts set
      simp only [PosterPhase.left, semPost]
      split <;> omega
    · rename_i last
      obtain rfl := Option.some.inj step
      refine inv.advance past nofun flag (fun set => ?_) ?_
      · have before := posts set
        simp only [PosterPhase.left]
        omega
      · rintro w (⟨u, eq, early⟩ | eq)
        · cases eq
          omega
        · cases eq
  | joining u =>
    have past : ∀ u, s.poster ≠ .creating u := by simp [phase]
    simp only [phase, PosterPhase.closes, PosterPhase.left] at step flag posts
    split at step
    · rename_i lt
      split at step
      · rename_i ended
        obtain rfl := Option.some.inj step
        exact inv.joins phase lt ended
      · cases step
    · rename_i last
      obtain rfl := Option.some.inj step
      exact inv.advance past nofun flag posts (fun w _ => inv.joined w (Or.inl ⟨u, phase, by omega⟩))
  | joined => simp only [phase] at step; cases step

theorem supplied_reachable (fits : n ≤ semValueMax) (reachable : (semaphoreRun n m value).system.Reachable s) :
    Supplied s := by
  refine Machine.invariant Supplied supplied_start (fun thread s t inv step => ?_) reachable
  cases thread with
  | none => exact supplied_poster fits inv step
  | some w => exact supplied_waiter inv step

end Preserved

/- The way to the end once all posts are made. -/
section Posted
variable {n m value : Nat} {s t : Semaphore n}

theorem Semaphore.Posted.closes (posted : s.Posted) : s.poster.closes = true ∧ s.poster.left n = 0 := by
  rcases posted with ⟨t, last, eq⟩ | ⟨t, eq⟩ | eq
  · simp only [eq]
    exact ⟨rfl, Nat.sub_eq_zero_of_le last⟩
  · simp only [eq]
    exact ⟨rfl, rfl⟩
  · simp only [eq]
    exact ⟨rfl, rfl⟩

theorem waiter_supplied (inv : Supplied s) (posted : s.Posted) {w : Fin n} (waits : s.waiters w = .waiting) :
    0 < s.value := by
  obtain ⟨closes, left⟩ := posted.closes
  have posts := inv.posts (inv.flag.trans closes)
  have own := le_tally WaiterPhase.waits s.waiters w
  simp only [waits, WaiterPhase.waits] at own
  omega

def WaiterPhase.stepsLeft : WaiterPhase → Nat
  | .absent => 0
  | .spinning => 3
  | .waiting => 2
  | .testing => 1
  | .ended => 0

def PosterPhase.stepsLeft (n : Nat) : PosterPhase → Nat
  | .joining t => n - t + 1
  | .joined => 0
  | _ => n + 2

def Semaphore.stepsLeft (s : Semaphore n) : Nat :=
  tally WaiterPhase.stepsLeft s.waiters + s.poster.stepsLeft n

theorem posted_waiter (inv : Supplied s) (posted : s.Posted) {w : Fin n} (step : waiterStep s w = some t) :
    t.Posted ∧ t.stepsLeft < s.stepsLeft := by
  obtain ⟨closes, _⟩ := posted.closes
  have set : s.done = true := inv.flag.trans closes
  have opened : s.ready = true := by
    refine inv.opened (fun u eq => ?_)
    simp only [eq] at closes
    cases closes
  have moved (phase : WaiterPhase) := tally_move WaiterPhase.stepsLeft s.waiters w phase
  unfold waiterStep at step
  cases phase : s.waiters w with
  | absent => simp only [phase] at step; cases step
  | spinning =>
    simp only [phase, opened, if_true] at step moved
    obtain rfl := Option.some.inj step
    have moved := moved .testing
    simp only [WaiterPhase.stepsLeft] at moved
    refine ⟨posted, ?_⟩
    simp only [Semaphore.stepsLeft, Semaphore.turn]
    omega
  | testing =>
    simp only [phase, set, if_true] at step moved
    obtain rfl := Option.some.inj step
    have moved := moved .ended
    simp only [WaiterPhase.stepsLeft] at moved
    refine ⟨posted, ?_⟩
    simp only [Semaphore.stepsLeft, Semaphore.turn]
    omega
  | waiting =>
    simp only [phase, waiter_supplied inv posted phase, if_true] at step moved
    obtain rfl := Option.some.inj step
    have moved := moved .testing
    simp only [WaiterPhase.stepsLeft] at moved
    refine ⟨posted, ?_⟩
    simp only [Semaphore.stepsLeft, Semaphore.turn]
    omega
  | ended => simp only [phase] at step; cases step

theorem posted_poster (posted : s.Posted) (step : posterStep m s = some t) : t.Posted ∧ t.stepsLeft < s.stepsLeft := by
  unfold posterStep at step
  rcases posted with ⟨u, last, eq⟩ | ⟨u, eq⟩ | eq
  · simp only [eq, if_neg (Nat.not_lt.mpr last)] at step
    obtain rfl := Option.some.inj step
    refine ⟨Or.inr (Or.inl ⟨0, rfl⟩), ?_⟩
    simp only [Semaphore.stepsLeft, eq, PosterPhase.stepsLeft]
    omega
  · simp only [eq] at step
    split at step
    · rename_i lt
      split at step
      · obtain rfl := Option.some.inj step
        refine ⟨Or.inr (Or.inl ⟨u + 1, rfl⟩), ?_⟩
        simp only [Semaphore.stepsLeft, eq, PosterPhase.stepsLeft]
        omega
      · cases step
    · obtain rfl := Option.some.inj step
      refine ⟨Or.inr (Or.inr rfl), ?_⟩
      simp only [Semaphore.stepsLeft, eq, PosterPhase.stepsLeft]
      omega
  · simp only [eq] at step
    cases step

/-- Where nobody can go on, all waiters have ended and are joined. -/
theorem posted_stuck (inv : Supplied s) (posted : s.Posted)
    (stuck : ∀ thread, (semaphoreRun n m value).step thread s = none) :
    s.poster = .joined ∧ ∀ w, s.waiters w = .ended := by
  obtain ⟨closes, _⟩ := posted.closes
  have set : s.done = true := inv.flag.trans closes
  have past : ∀ u, s.poster ≠ .creating u := by
    intro u eq
    simp only [eq] at closes
    cases closes
  have ended : ∀ w, s.waiters w = .ended := by
    intro w
    have none : waiterStep s w = none := stuck (some w)
    unfold waiterStep at none
    cases phase : s.waiters w with
    | absent =>
      obtain ⟨u, eq, _⟩ := inv.born w phase
      exact absurd eq (past u)
    | spinning => simp [phase, inv.opened past] at none
    | testing => simp [phase, set] at none
    | waiting => simp [phase, waiter_supplied inv posted phase] at none
    | ended => rfl
  have none : posterStep m s = none := stuck none
  unfold posterStep at none
  refine ⟨?_, ended⟩
  rcases posted with ⟨u, last, eq⟩ | ⟨u, eq⟩ | eq
  · simp [eq, Nat.not_lt.mpr last] at none
  · simp only [eq, ended, if_true] at none
    split at none <;> cases none
  · exact eq

end Posted

/-- Once all posts are made no waiter is left in sem_wait without a post, every run from there ends
within 4 n + 2 steps, and it ends with all waiters joined. -/
theorem semaphore_shuts_down {n m value : Nat} (fits : n ≤ semValueMax) {s : Semaphore n}
    (reachable : (semaphoreRun n m value).system.Reachable s) (posted : s.Posted) :
    (∀ w, s.waiters w = .waiting → 0 < s.value) ∧
      (∀ k t, System.ReachedIn ⟨s, (semaphoreRun n m value).system.step⟩ k t → k ≤ 4 * n + 2) ∧
      ∀ t, Relation.ReflTransGen (semaphoreRun n m value).system.step s t →
        (∀ thread, (semaphoreRun n m value).step thread t = none) → t.poster = .joined ∧ ∀ w, t.waiters w = .ended := by
  let after : System (Semaphore n) := ⟨s, (semaphoreRun n m value).system.step⟩
  let Inv : Semaphore n → Prop := fun u => Supplied u ∧ u.Posted
  have inv := supplied_reachable fits reachable
  have both : ∀ u v, Inv u → after.step u v → Inv v ∧ v.stepsLeft < u.stepsLeft := by
    rintro u v ⟨inv, posted⟩ ⟨thread, step⟩
    cases thread with
    | none =>
      obtain ⟨posted', lower⟩ := posted_poster posted step
      exact ⟨⟨supplied_poster fits inv step, posted'⟩, lower⟩
    | some w =>
      obtain ⟨posted', lower⟩ := posted_waiter inv posted step
      exact ⟨⟨supplied_waiter inv step, posted'⟩, lower⟩
  refine ⟨fun w => waiter_supplied inv posted, fun k t run => ?_, fun t run stuck => ?_⟩
  · have bound := after.run_bounded Inv Semaphore.stepsLeft ⟨inv, posted⟩ (fun u v own step => (both u v own step).1)
      (fun u v own step => (both u v own step).2) run
    have waiters := tally_le WaiterPhase.stepsLeft (c := 3) (fun phase => by cases phase <;> decide) s.waiters
    have poster : s.poster.stepsLeft n ≤ n + 2 := by
      cases s.poster <;> simp only [PosterPhase.stepsLeft] <;> omega
    simp only [Fintype.card_fin] at waiters
    have start : after.start.stepsLeft = tally WaiterPhase.stepsLeft s.waiters + s.poster.stepsLeft n := rfl
    omega
  · obtain ⟨inv, posted⟩ := after.invariant Inv ⟨inv, posted⟩ (fun u v own step => (both u v own step).1) run
    exact posted_stuck inv posted stuck

/- One waiter, one post; the waiter calls sem_wait before the flag is set. -/
def oneWaiter : Machine (Option (Fin 1)) (Semaphore 1) := semaphoreRun 1 1 0

def soleWaiter : Fin 1 := ⟨0, Nat.one_pos⟩

def oneWaiterThreads : List (Option (Fin 1)) := [none, none, none, some soleWaiter, some soleWaiter, none, none, none]

def oneWaiterPosted : Semaphore 1 := (oneWaiter.play oneWaiter.start oneWaiterThreads).getD oneWaiter.start

theorem one_waiter_served : oneWaiterPosted.waiters soleWaiter = .waiting ∧ 0 < oneWaiterPosted.value := by
  have reachable : (semaphoreRun 1 1 0).system.Reachable oneWaiterPosted := Machine.play_steps oneWaiterThreads rfl
  have served := (semaphore_shuts_down (by decide) reachable (Or.inl ⟨1, Nat.le_refl 1, rfl⟩)).1
  exact ⟨rfl, served soleWaiter rfl⟩

end ServMark
