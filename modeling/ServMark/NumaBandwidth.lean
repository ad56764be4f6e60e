import Mathlib.Data.Real.Basic
import Mathlib.Tactic

/-! The threads of numa_bandwidth.c: what each reads of the buffer, and when together they read all
of it. Threads and arrays are created; the node a thread runs on does not matter here. -/
namespace ServMark

def bufMb : Nat := 128
def bufSize : Nat := bufMb * 1024 * 1024

/-- sizeof(uint64_t) -/
def wordSize : Nat := 8

structure BwThreadArg where
  start : Nat
  stop : Nat
  node : Int

/-- The words of the loop in bw_worker. -/
def BwThreadArg.words (a : BwThreadArg) : List Nat :=
  let s := a.start / wordSize
  let e := a.stop / wordSize
  List.range' s (e - s)

def bwWorker (b : Nat → UInt64) (a : BwThreadArg) : UInt64 := a.words.foldl (fun sink i => sink + b i) 0

/-- What numa_bandwidth_measure hands to n threads. -/
def bwThreadArgs (n : Nat) : List BwThreadArg :=
  let ch := bufSize / n
  (List.range n).map (fun t => ⟨t * ch, (t + 1) * ch, 0⟩)

/-- The reported metric, for the seconds between the two readings of the clock. -/
noncomputable def bandwidthMetric (el : ℝ) : ℝ := bufSize / el

def bytesRead (n : Nat) : Nat := ((bwThreadArgs n).map (fun a => wordSize * a.words.length)).sum

/-- No word is read by two threads, every word of the buffer by one, and the metric counts the bytes
that were read. -/
structure ReadsOnce (n : Nat) : Prop where
  disjoint : (bwThreadArgs n).Pairwise (fun a b => a.words.Disjoint b.words)
  inside : ∀ a ∈ bwThreadArgs n, ∀ word ∈ a.words, word < bufSize / wordSize
  cover : ∀ word < bufSize / wordSize, ∃ a ∈ bwThreadArgs n, word ∈ a.words
  metric : ∀ el, bandwidthMetric el = bytesRead n / el

/-- The ranges of the threads join: each begins with the word at which the one before stopped. -/
theorem words_joined (n : Nat) :
    (bwThreadArgs n).flatMap BwThreadArg.words = List.range (n * (bufSize / n) / wordSize) := by
  have front : ∀ m, ((List.range m).map
      (fun t => (⟨t * (bufSize / n), (t + 1) * (bufSize / n), 0⟩ : BwThreadArg))).flatMap BwThreadArg.words =
        List.range (m * (bufSize / n) / wordSize) := by
    intro m
    induction m with
    | zero => simp
    | succ m ih =>
      have le : m * (bufSize / n) / wordSize ≤ (m + 1) * (bufSize / n) / wordSize :=
        Nat.div_le_div_right (Nat.mul_le_mul_right _ (Nat.le_succ m))
      have join := @List.range'_append_1 0 (m * (bufSize / n) / wordSize)
        ((m + 1) * (bufSize / n) / wordSize - m * (bufSize / n) / wordSize)
      rw [Nat.zero_add, Nat.add_sub_cancel' le] at join
      rw [List.range_succ, List.map_append, List.flatMap_append, ih, List.range_eq_range', List.range_eq_range', ← join]
      simp [BwThreadArg.words]
  exact front n

/-- Only a number of threads that divides the size leaves no word behind. -/
theorem last_word_iff (n : Nat) : n * (bufSize / n) / wordSize = bufSize / wordSize ↔ n ∣ bufSize := by
  have whole : bufSize / 8 * 8 = bufSize := by decide
  have parts := Nat.div_add_mod bufSize n
  rw [Nat.dvd_iff_mod_eq_zero, show wordSize = 8 from rfl]
  omega

/-- The threads read the buffer exactly once if their number divides its size, and otherwise not. -/
theorem numa_reads_once_iff (n : Nat) : ReadsOnce n ↔ n ∣ bufSize := by
  have joined := words_joined n
  rw [← last_word_iff]
  constructor
  · intro once
    have le : n * (bufSize / n) / wordSize ≤ bufSize / wordSize := Nat.div_le_div_right (Nat.mul_div_le bufSize n)
    by_contra short
    obtain ⟨a, among, read⟩ := once.cover (n * (bufSize / n) / wordSize) (lt_of_le_of_ne le short)
    have inside : n * (bufSize / n) / wordSize ∈ (bwThreadArgs n).flatMap BwThreadArg.words :=
      List.mem_flatMap.mpr ⟨a, among, read⟩
    rw [joined] at inside
    exact List.not_mem_range_self inside
  · intro whole
    rw [whole] at joined
    have single : ((bwThreadArgs n).flatMap BwThreadArg.words).Nodup := joined ▸ List.nodup_range
    have member : ∀ word, word ∈ (bwThreadArgs n).flatMap BwThreadArg.words ↔ word < bufSize / wordSize := by
      intro word
      rw [joined, List.mem_range]
    have length := congrArg List.length joined
    rw [List.length_flatMap, List.length_range] at length
    have bytes : bytesRead n = bufSize := by
      rw [bytesRead, List.sum_map_mul_left, length]
      decide
    refine ⟨(List.nodup_flatMap.mp single).2, fun a among word read => ?_, fun word below => ?_, fun el => ?_⟩
    · exact (member word).mp (List.mem_flatMap.mpr ⟨a, among, read⟩)
    · exact List.mem_flatMap.mp ((member word).mpr below)
    · rw [bytes, bandwidthMetric]

/-- Three threads leave the last word unread. -/
theorem three_threads_miss : ¬ ∀ n, 1 ≤ n → n ≤ bufSize → ReadsOnce n := by
  intro all
  obtain ⟨a, among, read⟩ := (all 3 (by decide) (by decide)).cover 16777215 (by decide)
  have inside := List.mem_flatMap.mpr ⟨a, among, read⟩
  rw [words_joined] at inside
  exact absurd (List.mem_range.mp inside) (by decide)

end ServMark
