import ServMark.Types
import ServMark.Library.Transition

/-! The pipe protocol of harness_run_parallel: forked children that run, write one record
and exit or die, and a parent that forks them, then waits for and reads each in turn.
The steps of the parent and of the children interleave in any order. -/
namespace ServMark

/-- The record a child writes: 256 bytes, any content. -/
structure ChildResult (α : Type) where
  ret : Int
  iter : Int
  values : Vector α ssbMaxIterations

/-- sizeof(child_result_t): two ints and the array of doubles. -/
def sizeofChildResult : Nat := 4 + 4 + ssbMaxIterations * 8

def ChildResult.zeroed (α : Type) [Zero α] : ChildResult α :=
  ⟨0, 0, Vector.replicate ssbMaxIterations 0⟩

/-- How a child ends: by _exit after its record, or abnormally before or after it. -/
inductive ChildFate (ρ : Type) where
  | exits (record : ρ)
  | diesBefore
  | diesAfter (record : ρ)

namespace ChildFate
variable {ρ : Type}

def written : ChildFate ρ → Option ρ
  | exits record => some record
  | diesBefore => none
  | diesAfter record => some record

/-- WIFEXITED of the status that waitpid stores. -/
def exited : ChildFate ρ → Bool
  | exits _ => true
  | _ => false

def map {ρ' : Type} (f : ρ → ρ') : ChildFate ρ → ChildFate ρ'
  | exits record => exits (f record)
  | diesBefore => diesBefore
  | diesAfter record => diesAfter (f record)

end ChildFate

variable {α : Type}

/-- Normal exit after a full record with ret == 0. -/
def Delivered (fate : ChildFate (ChildResult α)) : Prop := ∃ r, fate = .exits r ∧ r.ret = 0

inductive Phase where
  | unborn | running | ran | wrote
  | gone (exited : Bool)

/- A child and its own pipe. The write blocks until the whole record fits. No other process
holds the write end: the parent closes its copy before it forks the next child. -/
inductive ChildStep (capacity : Nat) (fate : ChildFate (ChildResult α)) :
    Phase → List (ChildResult α) → Phase → List (ChildResult α) → Prop
  | run (p : List (ChildResult α)) : ChildStep capacity fate .running p .ran p
  | write (p : List (ChildResult α)) (r : ChildResult α) (content : fate.written = some r)
      (fits : (p.length + 1) * sizeofChildResult ≤ capacity) :
      ChildStep capacity fate .ran p .wrote (p ++ [r])
  | exit (p : List (ChildResult α)) (r : ChildResult α) (normal : fate = .exits r) :
      ChildStep capacity fate .wrote p (.gone true) p
  | crashRunning (p : List (ChildResult α)) (early : fate = .diesBefore) :
      ChildStep capacity fate .running p (.gone false) p
  | crashRan (p : List (ChildResult α)) (early : fate = .diesBefore) :
      ChildStep capacity fate .ran p (.gone false) p
  | crashWrote (p : List (ChildResult α)) (r : ChildResult α) (late : fate = .diesAfter r) :
      ChildStep capacity fate .wrote p (.gone false) p

inductive Parent where
  | forking (i : Nat)
  | waiting (i : Nat)
  | reading (i : Nat) (exited : Bool)
  | returned (ret : Int)

structure World (α : Type) where
  parent : Parent
  phase : Nat → Phase
  pipe : Nat → List (ChildResult α)
  results : Nat → ChildResult α
  anyFailed : Bool

/- One step of the parent or of child i. A read of an empty pipe ends with 0 bytes only
when its writer is gone, and blocks otherwise. -/
inductive CollectStep (n capacity : Nat) (fate : Nat → ChildFate (ChildResult α)) :
    World α → World α → Prop
  | child (s : World α) (i : Nat) (phase : Phase) (pipe : List (ChildResult α))
      (step : ChildStep capacity (fate i) (s.phase i) (s.pipe i) phase pipe) :
      CollectStep n capacity fate s
        { s with phase := Function.update s.phase i phase, pipe := Function.update s.pipe i pipe }
  | fork (s : World α) (i : Nat) (at_ : s.parent = .forking i) (more : i < n) :
      CollectStep n capacity fate s
        { s with parent := .forking (i + 1), phase := Function.update s.phase i .running }
  | forked (s : World α) (at_ : s.parent = .forking n) :
      CollectStep n capacity fate s { s with parent := .waiting 0 }
  | waitpid (s : World α) (i : Nat) (exited : Bool) (at_ : s.parent = .waiting i) (more : i < n)
      (dead : s.phase i = .gone exited) :
      CollectStep n capacity fate s { s with parent := .reading i exited }
  | read (s : World α) (i : Nat) (exited : Bool) (r : ChildResult α) (rest : List (ChildResult α))
      (at_ : s.parent = .reading i exited) (content : s.pipe i = r :: rest) :
      CollectStep n capacity fate s
        { s with parent := .waiting (i + 1), pipe := Function.update s.pipe i rest,
                 results := Function.update s.results i r,
                 anyFailed := if r.ret ≠ 0 ∨ exited = false then true else s.anyFailed }
  | readEof (s : World α) (i : Nat) (exited dead : Bool) (at_ : s.parent = .reading i exited)
      (content : s.pipe i = []) (writer : s.phase i = .gone dead) :
      CollectStep n capacity fate s { s with parent := .waiting (i + 1), anyFailed := true }
  | finish (s : World α) (at_ : s.parent = .waiting n) :
      CollectStep n capacity fate s { s with parent := .returned (if s.anyFailed then -1 else 0) }

/-- The protocol for n instances, from before the first fork. -/
def collection [Zero α] (n capacity : Nat) (fate : Nat → ChildFate (ChildResult α)) :
    Transition.System (World α) where
  start := ⟨.forking 0, fun _ => .unborn, fun _ => [], fun _ => .zeroed α, false⟩
  step := CollectStep n capacity fate

/- The invariant of one child whose pipe the parent has not read yet. -/
def ChildSound (fate : ChildFate (ChildResult α)) : Phase → List (ChildResult α) → Prop
  | .unborn, p => p = []
  | .running, p => p = []
  | .ran, p => p = []
  | .wrote, p => ∃ r, fate.written = some r ∧ p = [r]
  | .gone exited, p => exited = fate.exited ∧ p = fate.written.toList

theorem childStep_sound {capacity : Nat} {fate : ChildFate (ChildResult α)} {phase phase' : Phase}
    {p p' : List (ChildResult α)} (sound : ChildSound fate phase p)
    (step : ChildStep capacity fate phase p phase' p') : ChildSound fate phase' p' := by
  cases step with
  | run => exact sound
  | write _ r content fits =>
    have empty : p = [] := sound
    exact ⟨r, content, by rw [empty]; rfl⟩
  | exit _ r normal =>
    obtain ⟨r', content, rfl⟩ := sound
    exact ⟨by rw [normal]; rfl, by rw [content]; rfl⟩
  | crashRunning _ early =>
    have empty : p = [] := sound
    exact ⟨by rw [early]; rfl, by rw [empty, early]; rfl⟩
  | crashRan _ early =>
    have empty : p = [] := sound
    exact ⟨by rw [early]; rfl, by rw [empty, early]; rfl⟩
  | crashWrote _ r late =>
    obtain ⟨r', content, rfl⟩ := sound
    exact ⟨by rw [late]; rfl, by rw [content]; rfl⟩

theorem childStep_phases {capacity : Nat} {fate : ChildFate (ChildResult α)} {phase phase' : Phase}
    {p p' : List (ChildResult α)} (step : ChildStep capacity fate phase p phase' p') :
    phase ≠ .unborn ∧ (∀ exited, phase ≠ .gone exited) ∧ phase' ≠ .unborn := by
  cases step <;> simp

/-- A pipe that holds one record never blocks a living child. -/
theorem child_progress {capacity : Nat} (room : sizeofChildResult ≤ capacity)
    {fate : ChildFate (ChildResult α)} {phase : Phase} {p : List (ChildResult α)}
    (sound : ChildSound fate phase p) (born : phase ≠ .unborn) (alive : ∀ exited, phase ≠ .gone exited) :
    ∃ phase' p', ChildStep capacity fate phase p phase' p' := by
  cases phase with
  | unborn => exact absurd rfl born
  | running => exact ⟨_, _, .run p⟩
  | ran =>
    have empty : p = [] := sound
    have fits : (p.length + 1) * sizeofChildResult ≤ capacity := by simpa [empty] using room
    cases fate with
    | exits r => exact ⟨_, _, .write p r rfl fits⟩
    | diesBefore => exact ⟨_, _, .crashRan p rfl⟩
    | diesAfter r => exact ⟨_, _, .write p r rfl fits⟩
  | wrote =>
    obtain ⟨r', content, _⟩ := sound
    cases fate with
    | exits r => exact ⟨_, _, .exit p r rfl⟩
    | diesBefore => cases content
    | diesAfter r => exact ⟨_, _, .crashWrote p r rfl⟩
  | gone exited => exact absurd rfl (alive exited)

/-- The number of children whose records the parent has dealt with. -/
def Parent.collected (n : Nat) : Parent → Nat
  | .forking _ => 0
  | .waiting i => i
  | .reading i _ => i
  | .returned _ => n

def Parent.forked (n : Nat) : Parent → Nat
  | .forking i => i
  | _ => n

structure Collecting [Zero α] (n : Nat) (fate : Nat → ChildFate (ChildResult α)) (s : World α) : Prop where
  bound : s.parent.collected n ≤ n ∧ s.parent.forked n ≤ n
  born : ∀ i, i < s.parent.forked n → s.phase i ≠ .unborn
  unborn : ∀ i, s.parent.forked n ≤ i → s.phase i = .unborn
  pending : ∀ i, s.parent.collected n ≤ i → ChildSound (fate i) (s.phase i) (s.pipe i)
  ended : ∀ i, i < s.parent.collected n → ∃ exited, s.phase i = .gone exited
  results : ∀ i, i < s.parent.collected n → s.results i = (fate i).written.getD (.zeroed α)
  untouched : ∀ i, s.parent.collected n ≤ i → s.results i = .zeroed α
  verdict : s.anyFailed = false ↔ ∀ i, i < s.parent.collected n → Delivered (fate i)
  reading : ∀ i exited, s.parent = .reading i exited → i < n ∧ s.phase i = .gone exited
  returned : ∀ ret, s.parent = .returned ret → ret = if s.anyFailed then -1 else 0

theorem delivered_iff {fate : ChildFate (ChildResult α)} {r : ChildResult α} (content : fate.written = some r) :
    Delivered fate ↔ ¬ (r.ret ≠ 0 ∨ fate.exited = false) := by
  cases fate with
  | exits r' =>
    cases Option.some.inj content
    constructor
    · rintro ⟨_, eq, zero⟩
      cases eq
      simp [zero, ChildFate.exited]
    · intro h
      exact ⟨r, rfl, by simpa [ChildFate.exited] using h⟩
  | diesBefore => cases content
  | diesAfter r' =>
    constructor
    · rintro ⟨_, eq, _⟩
      cases eq
    · intro h
      exact absurd (Or.inr rfl) h

section Preservation
variable [Zero α] {n capacity : Nat} {fate : Nat → ChildFate (ChildResult α)} {s : World α}

theorem collecting_start : Collecting n fate (collection n capacity fate).start where
  bound := ⟨Nat.zero_le _, Nat.zero_le _⟩
  born := fun i lt => absurd lt (Nat.not_lt_zero i)
  unborn := fun _ _ => rfl
  pending := fun _ _ => rfl
  ended := fun i lt => absurd lt (Nat.not_lt_zero i)
  results := fun i lt => absurd lt (Nat.not_lt_zero i)
  untouched := fun _ _ => rfl
  verdict := ⟨fun _ i lt => absurd lt (Nat.not_lt_zero i), fun _ => rfl⟩
  reading := fun _ _ at_ => nomatch at_
  returned := fun _ at_ => nomatch at_

/- Only a child that has been forked and is not yet gone steps; the parent has not
dealt with it. -/
theorem child_preserves (inv : Collecting n fate s) (i : Nat) {phase : Phase} {pipe : List (ChildResult α)}
    (step : ChildStep capacity (fate i) (s.phase i) (s.pipe i) phase pipe) :
    Collecting n fate
      { s with phase := Function.update s.phase i phase, pipe := Function.update s.pipe i pipe } := by
  obtain ⟨born, alive, stillBorn⟩ := childStep_phases step
  have uncollected : ∀ j, j < s.parent.collected n → j ≠ i := by
    rintro j lt rfl
    obtain ⟨exited, gone⟩ := inv.ended j lt
    exact alive exited gone
  refine ⟨inv.bound, ?_, ?_, ?_, ?_, inv.results, inv.untouched, inv.verdict, ?_, inv.returned⟩
  · intro j lt
    by_cases eq : j = i
    · simpa [eq] using stillBorn
    · simpa [eq] using inv.born j lt
  · intro j le
    have ne : j ≠ i := by rintro rfl; exact born (inv.unborn j le)
    simpa [ne] using inv.unborn j le
  · intro j le
    by_cases eq : j = i
    · subst eq
      simpa using childStep_sound (inv.pending j le) step
    · simpa [eq] using inv.pending j le
  · intro j lt
    simpa [uncollected j lt] using inv.ended j lt
  · intro j exited at_
    obtain ⟨lt, gone⟩ := inv.reading j exited at_
    have ne : j ≠ i := by rintro rfl; exact alive exited gone
    exact ⟨lt, by simpa [ne] using gone⟩

theorem fork_preserves (inv : Collecting n fate s) (i : Nat) (at_ : s.parent = .forking i) (more : i < n) :
    Collecting n fate
      { s with parent := .forking (i + 1), phase := Function.update s.phase i .running } := by
  have fresh : s.phase i = .unborn := inv.unborn i (by simp [at_, Parent.forked])
  refine ⟨⟨Nat.zero_le n, more⟩, ?_, ?_, ?_, ?_, ?_, ?_, ?_, ?_, ?_⟩
  · intro j lt
    by_cases eq : j = i
    · simp [eq]
    · have older : j < i := by simp [Parent.forked] at lt; omega
      simpa [eq] using inv.born j (by simpa [at_, Parent.forked] using older)
  · intro j le
    have later : i + 1 ≤ j := le
    have ne : j ≠ i := by omega
    simpa [ne] using inv.unborn j (by simp [at_, Parent.forked]; omega)
  · intro j _
    have sound := inv.pending j (by simp [at_, Parent.collected])
    by_cases eq : j = i
    · subst eq
      rw [fresh] at sound
      simpa [ChildSound] using sound
    · simpa [eq] using sound
  · intro j lt
    exact absurd lt (Nat.not_lt_zero j)
  · intro j lt
    exact absurd lt (Nat.not_lt_zero j)
  · intro j _
    exact inv.untouched j (by simp [at_, Parent.collected])
  · simpa [at_, Parent.collected] using inv.verdict
  · intro j exited eq
    cases eq
  · intro ret eq
    cases eq

theorem waitpid_preserves (inv : Collecting n fate s) (i : Nat) {exited : Bool}
    (at_ : s.parent = .waiting i) (more : i < n) (dead : s.phase i = .gone exited) :
    Collecting n fate { s with parent := .reading i exited } := by
  obtain ⟨bound, born, unborn, pending, ended, results, untouched, verdict, _, _⟩ := inv
  simp only [at_, Parent.collected, Parent.forked] at bound born unborn pending ended results untouched verdict
  refine ⟨bound, born, unborn, pending, ended, results, untouched, verdict, ?_, ?_⟩
  · rintro j ex eq
    cases eq
    exact ⟨more, dead⟩
  · rintro ret eq
    cases eq

/- The parent has waited for child i, so its pipe holds what it wrote, and no more comes. -/
theorem collected_preserves (inv : Collecting n fate s) {i : Nat} {exited : Bool}
    (at_ : s.parent = .reading i exited) (pipe : Nat → List (ChildResult α))
    (others : ∀ j, j ≠ i → pipe j = s.pipe j) (results : Nat → ChildResult α)
    (kept : ∀ j, j ≠ i → results j = s.results j)
    (record : results i = (fate i).written.getD (.zeroed α)) (failed : Bool)
    (verdict : failed = false ↔ s.anyFailed = false ∧ Delivered (fate i)) :
    Collecting n fate { s with parent := .waiting (i + 1), pipe := pipe, results := results,
                               anyFailed := failed } := by
  obtain ⟨lt, gone⟩ := inv.reading i exited at_
  obtain ⟨bound, born, unborn, pending, ended, older, untouched, judged, _, _⟩ := inv
  simp only [at_, Parent.collected, Parent.forked] at bound born unborn pending ended older untouched judged
  refine ⟨⟨lt, Nat.le_refl n⟩, born, unborn, ?_, ?_, ?_, ?_, ?_, ?_, ?_⟩
  · intro j le
    have later : i + 1 ≤ j := le
    simpa [others j (by omega)] using pending j (by omega)
  · intro j le
    rcases Nat.lt_succ_iff_lt_or_eq.mp le with before | rfl
    · exact ended j before
    · exact ⟨exited, gone⟩
  · intro j le
    rcases Nat.lt_succ_iff_lt_or_eq.mp le with before | rfl
    · exact (kept j (by omega)).trans (older j before)
    · exact record
  · intro j le
    have later : i + 1 ≤ j := le
    exact (kept j (by omega)).trans (untouched j (by omega))
  · rw [verdict, judged]
    constructor
    · rintro ⟨all, last⟩ j le
      rcases Nat.lt_succ_iff_lt_or_eq.mp le with before | rfl
      · exact all j before
      · exact last
    · intro all
      exact ⟨fun j before => all j (Nat.lt_succ_of_lt before), all i (Nat.lt_succ_self i)⟩
  · rintro j ex eq
    cases eq
  · rintro ret eq
    cases eq

theorem step_preserves (inv : Collecting n fate s) {t : World α}
    (step : CollectStep n capacity fate s t) : Collecting n fate t := by
  cases step with
  | child i phase pipe step => exact child_preserves inv i step
  | fork i at_ more => exact fork_preserves inv i at_ more
  | forked at_ =>
    obtain ⟨bound, born, unborn, pending, ended, results, untouched, verdict, _, _⟩ := inv
    simp only [at_, Parent.collected, Parent.forked] at bound born unborn pending ended results untouched verdict
    exact ⟨bound, born, unborn, pending, ended, results, untouched, verdict, fun _ _ eq => (nomatch eq),
      fun _ eq => (nomatch eq)⟩
  | waitpid i exited at_ more dead => exact waitpid_preserves inv i at_ more dead
  | read i exited r rest at_ content =>
    obtain ⟨_, gone⟩ := inv.reading i exited at_
    have sound := inv.pending i (by simp [at_, Parent.collected])
    rw [gone] at sound
    obtain ⟨status, holds⟩ := sound
    have wrote : (fate i).written = some r := by
      rw [content] at holds
      cases written : (fate i).written with
      | none => rw [written] at holds; cases holds
      | some r' => rw [written] at holds; cases holds; rfl
    refine collected_preserves inv at_ _ (fun j ne => by simp [ne]) _ (fun j ne => by simp [ne])
      (by simp [wrote]) _ ?_
    rw [delivered_iff wrote, ← status]
    split <;> simp_all
  | readEof i exited dead at_ content writer =>
    have sound := inv.pending i (by simp [at_, Parent.collected])
    rw [writer, content] at sound
    have wrote : (fate i).written = none := by
      cases written : (fate i).written with
      | none => rfl
      | some r => have holds := sound.2; rw [written] at holds; cases holds
    have untouched : s.results i = .zeroed α := inv.untouched i (by simp [at_, Parent.collected])
    refine collected_preserves inv at_ _ (fun _ _ => rfl) _ (fun _ _ => rfl) (by simp [wrote, untouched]) _ ?_
    have undelivered : ¬ Delivered (fate i) := by
      rintro ⟨r, eq, _⟩
      rw [eq] at wrote
      cases wrote
    simp [undelivered]
  | finish at_ =>
    obtain ⟨bound, born, unborn, pending, ended, results, untouched, verdict, _, _⟩ := inv
    simp only [at_, Parent.collected, Parent.forked] at bound born unborn pending ended results untouched verdict
    exact ⟨bound, born, unborn, pending, ended, results, untouched, verdict, fun _ _ eq => (nomatch eq),
      fun ret eq => by cases eq; rfl⟩

/-- Before the parent has returned, it or the child it waits for can step. -/
theorem collecting_progress (room : sizeofChildResult ≤ capacity) (inv : Collecting n fate s)
    (unfinished : ¬ ∃ ret, s.parent = .returned ret) : ∃ t, CollectStep n capacity fate s t := by
  cases at_ : s.parent with
  | forking i =>
    have le : i ≤ n := by simpa [at_, Parent.forked] using inv.bound.2
    rcases Nat.lt_or_eq_of_le le with more | rfl
    · exact ⟨_, .fork s i at_ more⟩
    · exact ⟨_, .forked s at_⟩
  | waiting i =>
    have le : i ≤ n := by simpa [at_, Parent.collected] using inv.bound.1
    rcases Nat.lt_or_eq_of_le le with more | rfl
    · by_cases dead : ∃ exited, s.phase i = .gone exited
      · obtain ⟨exited, dead⟩ := dead
        exact ⟨_, .waitpid s i exited at_ more dead⟩
      · push Not at dead
        have born := inv.born i (by simpa [at_, Parent.forked] using more)
        have sound := inv.pending i (by simp [at_, Parent.collected])
        obtain ⟨phase, pipe, step⟩ := child_progress room sound born dead
        exact ⟨_, .child s i phase pipe step⟩
    · exact ⟨_, .finish s at_⟩
  | reading i exited =>
    obtain ⟨_, gone⟩ := inv.reading i exited at_
    cases content : s.pipe i with
    | nil => exact ⟨_, .readEof s i exited exited at_ content gone⟩
    | cons r rest => exact ⟨_, .read s i exited r rest at_ content⟩
  | returned ret => exact absurd ⟨ret, at_⟩ unfinished

theorem collecting_reachable (reachable : (collection n capacity fate).Reachable s) :
    Collecting n fate s :=
  (collection n capacity fate).invariant (Collecting n fate) collecting_start
    (fun _ _ inv step => step_preserves inv step) reachable

end Preservation

/- Every step uses up a part of a child's life or of the parent's program. -/

def Phase.rank : Phase → Nat
  | .unborn => 4
  | .running => 3
  | .ran => 2
  | .wrote => 1
  | .gone _ => 0

def Parent.rank (n : Nat) : Parent → Nat
  | .forking i => n - i + 2 * n + 2
  | .waiting i => 2 * (n - i) + 1
  | .reading i _ => 2 * (n - i)
  | .returned _ => 0

def World.rank (n : Nat) (s : World α) : Nat :=
  s.parent.rank n + ∑ i ∈ Finset.range n, (s.phase i).rank

theorem phases_rank_lt {n i : Nat} (lt : i < n) (phases : Nat → Phase) {phase : Phase}
    (lower : phase.rank < (phases i).rank) :
    ∑ j ∈ Finset.range n, (Function.update phases i phase j).rank <
      ∑ j ∈ Finset.range n, (phases j).rank := by
  apply Finset.sum_lt_sum
  · intro j _
    by_cases eq : j = i
    · subst eq
      simpa using Nat.le_of_lt lower
    · simp [eq]
  · exact ⟨i, Finset.mem_range.mpr lt, by simpa using lower⟩

theorem childStep_rank {capacity : Nat} {fate : ChildFate (ChildResult α)} {phase phase' : Phase}
    {p p' : List (ChildResult α)} (step : ChildStep capacity fate phase p phase' p') :
    phase'.rank < phase.rank := by
  cases step <;> decide

theorem step_lowers [Zero α] {n capacity : Nat} {fate : Nat → ChildFate (ChildResult α)} {s t : World α}
    (inv : Collecting n fate s) (step : CollectStep n capacity fate s t) : t.rank n < s.rank n := by
  unfold World.rank
  cases step with
  | child i phase pipe step =>
    have lt : i < n := by
      by_contra beyond
      exact (childStep_phases step).1 (inv.unborn i (by have := inv.bound.2; omega))
    exact Nat.add_lt_add_left (phases_rank_lt lt s.phase (childStep_rank step)) _
  | fork i at_ more =>
    have fresh : s.phase i = .unborn := inv.unborn i (by simp [at_, Parent.forked])
    have phases := phases_rank_lt more s.phase (show Phase.running.rank < (s.phase i).rank by rw [fresh]; decide)
    simp only [at_, Parent.rank]
    omega
  | forked at_ => simp only [at_, Parent.rank]; omega
  | waitpid i exited at_ more dead => simp only [at_, Parent.rank]; omega
  | read i exited r rest at_ content =>
    have lt := (inv.reading i exited at_).1
    simp only [at_, Parent.rank]
    omega
  | readEof i exited dead at_ content writer =>
    have lt := (inv.reading i exited at_).1
    simp only [at_, Parent.rank]
    omega
  | finish at_ => simp only [at_, Parent.rank]; omega

/-- No run has more than 7n + 2 steps: with freedom from deadlock, the parent returns. -/
theorem collection_bounded [Zero α] {n capacity steps : Nat} {fate : Nat → ChildFate (ChildResult α)}
    {s : World α} (run : (collection n capacity fate).ReachedIn steps s) : steps ≤ 7 * n + 2 := by
  have bounded := (collection n capacity fate).run_bounded (Collecting n fate) (World.rank n) collecting_start
    (fun _ _ inv step => step_preserves inv step) (fun _ _ inv step => step_lowers inv step) run
  have start : World.rank n (collection n capacity fate).start = 7 * n + 2 := by
    simp [World.rank, collection, Parent.rank, Phase.rank]
    omega
  omega

/-- In any order of steps the parent is never stuck, and it returns within a bounded number of them; what it
returns with are the records the children wrote, and it returns 0 exactly if every child delivered. -/
theorem collection_faithful [Zero α] (n capacity : Nat) (room : sizeofChildResult ≤ capacity)
    (fate : Nat → ChildFate (ChildResult α)) :
    (collection n capacity fate).DeadlockFree (fun s => ∃ ret, s.parent = .returned ret) ∧
      (∀ s ret, (collection n capacity fate).Reachable s → s.parent = .returned ret →
        (∀ i, i < n → s.results i = (fate i).written.getD (.zeroed α)) ∧
          (ret = 0 ↔ ∀ i, i < n → Delivered (fate i))) ∧
      ∀ steps s, (collection n capacity fate).ReachedIn steps s → steps ≤ 7 * n + 2 := by
  refine ⟨?_, ?_, fun steps s run => collection_bounded run⟩
  · exact (collection n capacity fate).deadlockFree (Collecting n fate) _ collecting_start
      (fun _ _ inv step => step_preserves inv step) (fun _ inv => collecting_progress room inv)
  · intro s ret reachable at_
    have inv := collecting_reachable reachable
    have results := inv.results
    have verdict := inv.verdict
    simp only [at_, Parent.collected] at results verdict
    refine ⟨results, ?_⟩
    rw [← verdict, inv.returned ret at_]
    cases s.anyFailed <;> simp

def mixedFates : Nat → ChildFate (ChildResult ℚ)
  | 0 => .exits ⟨0, 1, Vector.replicate ssbMaxIterations 1⟩
  | 1 => .diesAfter ⟨0, 1, Vector.replicate ssbMaxIterations 2⟩
  | _ => .diesBefore

/- Three children, of which only the first delivers, on pipes of the usual 64 KiB. -/
theorem mixed_collection :
    (collection 3 65536 mixedFates).DeadlockFree (fun s => ∃ ret, s.parent = .returned ret) ∧
      (∀ s ret, (collection 3 65536 mixedFates).Reachable s → s.parent = .returned ret →
        (∀ i, i < 3 → s.results i = (mixedFates i).written.getD (.zeroed ℚ)) ∧
          (ret = 0 ↔ ∀ i, i < 3 → Delivered (mixedFates i))) ∧
      ∀ steps s, (collection 3 65536 mixedFates).ReachedIn steps s → steps ≤ 7 * 3 + 2 :=
  collection_faithful 3 65536 (by decide) mixedFates

end ServMark
