import ServMark.Library.CText
import ServMark.Library.ForkJoin

/-! The threads of mem_stream.c, which fill one array from two others. Additions and products are
operations of any type, so that nothing here rests on their exactness. -/
namespace ServMark
open CText ForkJoin Transition

def streamArraySize : Nat := 64 * 1024 * 1024

/-- The number of threads that mem_stream_init chooses, from the text of thread_siblings_list if the
file can be opened: a range of siblings divides the CPUs among them. -/
def streamThreads (ncpu : Int) (siblings : Option (List Char)) : Nat :=
  let nthreads :=
    match siblings.bind (fun text => scanRange (fgets 63 text).1) with
    | some (a, b) => if b - a + 1 > 1 then ncpu.tdiv (b - a + 1) else ncpu
    | none => ncpu
  (if nthreads < 1 then 1 else nthreads).toNat

theorem streamThreads_positive (ncpu : Int) (siblings : Option (List Char)) : 1 ≤ streamThreads ncpu siblings := by
  unfold streamThreads
  generalize (match siblings.bind (fun text => scanRange (fgets 63 text).1) with
    | some (a, b) => if b - a + 1 > 1 then ncpu.tdiv (b - a + 1) else ncpu
    | none => ncpu) = nthreads
  dsimp only
  split_ifs <;> omega

def streamChunk (n : Nat) : Nat := streamArraySize / n

/-- The cells of a thread, from the first to the one behind the last. -/
def streamStart (n tid : Nat) : Nat := tid * streamChunk n

def streamEnd (n tid : Nat) : Nat :=
  if tid = n - 1 then streamArraySize else streamStart n tid + streamChunk n

/-- The loop of stream_worker in front of a cell, or behind the last. -/
inductive StreamPhase where
  | storing (i : Nat)
  | ended
  deriving DecidableEq

section Triad
variable {α : Type} [Add α] [Mul α] (scalar : α) (a b : Nat → α)

def triad (i : Nat) : α := a i + scalar * b i

def streamStep (n : Nat) (w : Fin n) (x : StreamPhase) (c : Nat → α) : Option (StreamPhase × (Nat → α)) :=
  match x with
  | .storing i =>
    if i < streamEnd n w then some (.storing (i + 1), Function.update c i (triad scalar a b i)) else some (.ended, c)
  | .ended => none

def StreamPhase.over : StreamPhase → Bool
  | .storing _ => false
  | .ended => true

theorem streamStep_over {n : Nat} (w : Fin n) (x : StreamPhase) (c : Nat → α) (last : x.over = true) :
    streamStep scalar a b n w x c = none := by
  cases x with
  | storing i => cases last
  | ended => rfl

def streamWorker (n : Nat) : Program n StreamPhase (Nat → α) where
  first w := .storing (streamStart n w)
  step := streamStep scalar a b n
  ended := StreamPhase.over
  opened c := c
  rest := streamStep_over scalar a b

/-- The threads of mem_stream_measure, from what the array held before. -/
def memStreamMeasure (n : Nat) (before : Nat → α) : Machine (Option (Fin n)) (Team n StreamPhase (Nat → α)) :=
  (streamWorker scalar a b n).team before

end Triad

/- The ranges of the threads. -/
section Ranges
variable {n : Nat}

theorem chunks_within {k : Nat} (few : k ≤ n) : k * streamChunk n ≤ streamArraySize :=
  (Nat.mul_le_mul_right _ few).trans (Nat.mul_div_le _ _)

theorem start_before_end (w : Fin n) : streamStart n w ≤ streamEnd n w ∧ streamEnd n w ≤ streamArraySize := by
  have within := chunks_within w.isLt
  rw [Nat.succ_mul] at within
  unfold streamEnd streamStart
  split_ifs <;> omega

/-- The range of a thread ends before that of each later thread begins. -/
theorem ranges_apart {v w : Fin n} (before : v < w) : streamEnd n v ≤ streamStart n w := by
  have last : (v : Nat) ≠ n - 1 := by omega
  have next : (v + 1) * streamChunk n ≤ w * streamChunk n := Nat.mul_le_mul_right _ before
  rw [Nat.succ_mul] at next
  rw [streamEnd, if_neg last]
  exact next

/-- The ranges of the first threads join. -/
theorem ranges_cover {i k : Nat} (within : k ≤ n) (below : i < k * streamChunk n) :
    ∃ w : Fin n, streamStart n w ≤ i ∧ i < streamStart n w + streamChunk n := by
  induction k with
  | zero => omega
  | succ k ih =>
    by_cases earlier : i < k * streamChunk n
    · exact ih (by omega) earlier
    · rw [Nat.succ_mul] at below
      exact ⟨⟨k, by omega⟩, not_lt.mp earlier, below⟩

variable (positive : 1 ≤ n)
include positive

/-- Every cell is in the range of some thread; the last one takes what the division leaves. -/
theorem every_cell {i : Nat} (below : i < streamArraySize) : ∃ w : Fin n, streamStart n w ≤ i ∧ i < streamEnd n w := by
  by_cases tail : i < (n - 1) * streamChunk n
  · obtain ⟨w, first, last⟩ := ranges_cover (Nat.sub_le n 1) tail
    refine ⟨w, first, ?_⟩
    unfold streamEnd
    split_ifs <;> omega
  · refine ⟨⟨n - 1, by omega⟩, not_lt.mp tail, ?_⟩
    rw [streamEnd, if_pos rfl]
    exact below

/-- Together the ranges are as long as the array. -/
theorem ranges_total : ∑ w : Fin n, (streamEnd n w - streamStart n w) = streamArraySize := by
  obtain ⟨m, rfl⟩ := Nat.exists_eq_add_of_le' positive
  have inner : ∀ w : Fin m, streamEnd (m + 1) w.castSucc - streamStart (m + 1) w.castSucc = streamChunk (m + 1) := by
    intro w
    have last : (w : Nat) ≠ m + 1 - 1 := by omega
    rw [Fin.val_castSucc, streamEnd, if_neg last, Nat.add_sub_cancel_left]
  have within := chunks_within (n := m + 1) (Nat.le_succ m)
  rw [Fin.sum_univ_castSucc, Finset.sum_congr rfl (fun w _ => inner w), Finset.sum_const, Finset.card_univ,
    Fintype.card_fin, smul_eq_mul, Fin.val_last, streamEnd,
    if_pos (Nat.add_sub_cancel m 1).symm, streamStart]
  omega

end Ranges

section Runs
variable {α : Type} [Add α] [Mul α] {scalar : α} {a b before : Nat → α} {n : Nat}

/-- The cells that a thread has stored hold what they should. -/
def StreamPhase.Stored (scalar : α) (a b c : Nat → α) (first behind : Nat) : StreamPhase → Prop
  | .storing i => first ≤ i ∧ i ≤ behind ∧ ∀ k, first ≤ k → k < i → c k = triad scalar a b k
  | .ended => ∀ k, first ≤ k → k < behind → c k = triad scalar a b k

structure Streamed (scalar : α) (a b before : Nat → α) (t : Team n StreamPhase (Nat → α)) : Prop where
  stored : ∀ w x, t.workers w = some x → x.Stored scalar a b t.shared (streamStart n w) (streamEnd n w)
  outside : ∀ i, streamArraySize ≤ i → t.shared i = before i

/-- A store of the right value leaves right what is right. -/
theorem stored_update {c : Nat → α} {first behind i : Nat} {x : StreamPhase}
    (stored : x.Stored scalar a b c first behind) :
    x.Stored scalar a b (Function.update c i (triad scalar a b i)) first behind := by
  have kept : ∀ k, c k = triad scalar a b k → Function.update c i (triad scalar a b i) k = triad scalar a b k := by
    intro k right
    rcases eq_or_ne k i with rfl | other
    · exact Function.update_self _ _ _
    · exact (Function.update_of_ne other _ _).trans right
  cases x with
  | storing j => exact ⟨stored.1, stored.2.1, fun k low high => kept k (stored.2.2 k low high)⟩
  | ended => exact fun k low high => kept k (stored k low high)

theorem streamed_move {s t : Team n StreamPhase (Nat → α)}
    (inv : Streamed scalar a b before s) (move : Move (streamWorker scalar a b n) s t) :
    Streamed scalar a b before t := by
  cases move with
  | @creates k at_ lt =>
    refine ⟨fun w x there => ?_, inv.outside⟩
    have there : Function.update s.workers ⟨k, lt⟩ (some (.storing (streamStart n k))) w = some x := there
    rcases eq_or_ne w ⟨k, lt⟩ with rfl | other
    · rw [Function.update_self] at there
      cases there
      exact ⟨le_rfl, (start_before_end ⟨k, lt⟩).1, fun k low high => absurd low (not_le.mpr high)⟩
    · rw [Function.update_of_ne other] at there
      exact inv.stored w x there
  | opens at_ all => exact ⟨inv.stored, inv.outside⟩
  | joins at_ lt ended => exact ⟨inv.stored, inv.outside⟩
  | leaves at_ all => exact ⟨inv.stored, inv.outside⟩
  | @works v x y d at_ step =>
    have own := inv.stored v x at_
    have step : streamStep scalar a b n v x s.shared = some (y, d) := step
    cases x with
    | ended => cases step
    | storing i =>
      simp only [streamStep] at step
      split at step
      · rename_i below
        cases step
        have inside := (start_before_end v).2
        refine ⟨fun w x there => ?_, fun k high => ?_⟩
        · have there : Function.update s.workers v (some (.storing (i + 1))) w = some x := there
          rcases eq_or_ne w v with rfl | other
          · rw [Function.update_self] at there
            cases there
            refine ⟨own.1.trans (Nat.le_succ i), below, fun k low high => ?_⟩
            rcases Nat.lt_succ_iff_lt_or_eq.mp high with earlier | rfl
            · exact (stored_update (i := i) own).2.2 k low earlier
            · exact Function.update_self _ _ _
          · rw [Function.update_of_ne other] at there
            exact stored_update (inv.stored w x there)
        · have apart : k ≠ i := by omega
          exact (Function.update_of_ne apart _ _).trans (inv.outside k high)
      · rename_i above
        cases step
        refine ⟨fun w x there => ?_, inv.outside⟩
        have there : Function.update s.workers v (some .ended) w = some x := there
        rcases eq_or_ne w v with rfl | other
        · rw [Function.update_self] at there
          cases there
          exact fun k low high => own.2.2 k low (by omega)
        · rw [Function.update_of_ne other] at there
          exact inv.stored w x there

theorem stream_invariant {t : Team n StreamPhase (Nat → α)}
    (reachable : (memStreamMeasure scalar a b n before).system.Reachable t) : Streamed scalar a b before t :=
  team_invariant (Streamed scalar a b before) ⟨nofun, fun _ _ => rfl⟩
    (fun _ _ _ inv move => streamed_move inv move) reachable

/-- The stores that a thread has left, and its end. -/
def StreamPhase.left (behind : Nat) : StreamPhase → Nat
  | .storing i => behind - i + 1
  | .ended => 0

theorem stream_finishing : Finishing (streamWorker scalar a b n) before (fun _ => True)
    (fun w x => x.left (streamEnd n w)) where
  initial := trivial
  preserved _ _ _ _ _ := trivial
  progress s _ _ w x at_ unfinished := by
    cases x with
    | ended => cases unfinished
    | storing i =>
      by_cases below : i < streamEnd n w
      · exact ⟨w, _, _, at_, if_pos below⟩
      · exact ⟨w, _, _, at_, if_neg below⟩
  lowers w x y c d step := by
    have step : streamStep scalar a b n w x c = some (y, d) := step
    cases x with
    | ended => cases step
    | storing i =>
      simp only [streamStep] at step
      split at step
      · cases step
        simp only [StreamPhase.left]
        omega
      · cases step
        simp only [StreamPhase.left]
        omega

theorem stream_ends (positive : 1 ≤ n) : (memStreamMeasure scalar a b n before).system.Ends
    (fun t => t.leader = .joined) (3 * n + 2 + streamArraySize) := by
  have ends := (show Finishing (streamWorker scalar a b n) before (fun _ => True)
    (fun w x => x.left (streamEnd n w)) from stream_finishing).ends
  have steps : ∑ w : Fin n, (StreamPhase.storing (streamStart n w)).left (streamEnd n w) = streamArraySize + n := by
    simp only [StreamPhase.left, Finset.sum_add_distrib, ranges_total positive, Finset.sum_const, Finset.card_univ,
      Fintype.card_fin, smul_eq_mul, Nat.mul_one]
  have whole : 2 * n + 2 + ∑ w : Fin n, (StreamPhase.storing (streamStart n w)).left (streamEnd n w) =
      3 * n + 2 + streamArraySize := by omega
  rw [← whole]
  exact ends

end Runs

/-- For every number of CPUs and every list of siblings: on each interleaving of the threads no two of them are
about to store to the same cell, all stores are inside the array, and when the threads are joined every cell holds
the sum and nothing else was changed. -/
theorem stream_triad {α : Type} [Add α] [Mul α] (scalar : α) (a b before : Nat → α) (ncpu : Int)
    (siblings : Option (List Char)) :
    (∀ t, (memStreamMeasure scalar a b (streamThreads ncpu siblings) before).system.Reachable t →
      (∀ v i, t.workers v = some (.storing i) → i < streamEnd (streamThreads ncpu siblings) v → i < streamArraySize ∧
        ∀ w, w ≠ v → ¬ (t.workers w = some (.storing i) ∧ i < streamEnd (streamThreads ncpu siblings) w)) ∧
      (t.leader = .joined → ∀ i, t.shared i = if i < streamArraySize then a i + scalar * b i else before i)) ∧
    (memStreamMeasure scalar a b (streamThreads ncpu siblings) before).system.Ends (fun t => t.leader = .joined)
      (3 * streamThreads ncpu siblings + 2 + streamArraySize) := by
  have positive := streamThreads_positive ncpu siblings
  generalize streamThreads ncpu siblings = n at positive
  refine ⟨fun t reachable => ?_, stream_ends positive⟩
  have inv := stream_invariant reachable
  refine ⟨fun v i at_v below => ⟨?_, ?_⟩, fun joined i => ?_⟩
  · exact lt_of_lt_of_le below (start_before_end v).2
  · rintro w other ⟨at_w, under⟩
    have low_v := (inv.stored v _ at_v).1
    have low_w := (inv.stored w _ at_w).1
    rcases lt_or_gt_of_ne other with before | after
    · exact absurd (ranges_apart before) (by omega)
    · exact absurd (ranges_apart after) (by omega)
  · split_ifs with below
    · obtain ⟨w, low, high⟩ := every_cell positive below
      obtain ⟨x, there, ended⟩ := (team_formed reachable).all_ended joined w
      cases x with
      | storing j => cases ended
      | ended => exact inv.stored w _ there i low high
    · exact inv.outside i (not_lt.mp below)

end ServMark
