import Mathlib.NumberTheory.PrimeCounting
import ServMark.Types
import ServMark.Library.Sifting

/-! The sieve of vm_cpu_overhead.c. Its int expressions are computed as they are met: one that does
not fit an int ends the run without a result. -/
namespace ServMark
open Sifting

/-- The array, and the indices stored to so far. -/
structure SieveArray where
  ip : Nat → UInt8
  writes : List Nat

def SieveArray.store (i : Nat) (value : UInt8) (s : SieveArray) : SieveArray :=
  ⟨Function.update s.ip i value, s.writes ++ [i]⟩

/-- The first n bytes. -/
def SieveArray.memset (value : UInt8) (n : Nat) (s : SieveArray) : SieveArray :=
  (List.range n).foldl (fun s i => s.store i value) s

/-- The inner loop, for an i that runs on by p. -/
def clearMultiples (lim p : Nat) (positive : 0 < p) (i : Nat) (s : SieveArray) : Option SieveArray :=
  if i ≤ lim then intValue (i + p) (clearMultiples lim p positive (i + p) (s.store i 0)) else some s
termination_by lim + 1 - i

/-- The outer loop, which evaluates p * p for each p that it meets. -/
def sieveLoop (lim p : Nat) (positive : 0 < p) (s : SieveArray) : Option SieveArray :=
  intValue (p * p)
    (if p * p ≤ lim then
      (if s.ip p ≠ 0 then clearMultiples lim p positive (p * p) s else some s).bind
        (fun s => intValue (p + 1) (sieveLoop lim (p + 1) p.succ_pos s))
    else some s)
termination_by lim + 1 - p
decreasing_by
  have := Nat.le_mul_self p
  omega

/-- The loop that counts. -/
def countLoop (lim : Nat) (ip : Nat → UInt8) (i c : Nat) : Option Nat :=
  if i ≤ lim then
    let c := if ip i ≠ 0 then c + 1 else c
    intValue c (intValue (i + 1) (countLoop lim ip (i + 1) c))
  else some c
termination_by lim + 1 - i

/-- The array afterwards and the value returned. -/
def sieve (ip : Nat → UInt8) (lim : Nat) : Option (SieveArray × Nat) :=
  intValue (lim + 1)
    (let s := (((SieveArray.mk ip []).memset 1 (lim + 1)).store 1 0).store 0 0
    (sieveLoop lim 2 Nat.two_pos s).bind (fun s => (countLoop lim s.ip 2 0).map (fun c => (s, c))))

theorem store_ip (i : Nat) (value : UInt8) (s : SieveArray) (j : Nat) :
    (s.store i value).ip j = if j = i then value else s.ip j := Function.update_apply _ _ _ _

theorem memset_ip (value : UInt8) (n : Nat) (s : SieveArray) (j : Nat) :
    (s.memset value n).ip j = if j < n then value else s.ip j := by
  induction n with
  | zero => rfl
  | succ n ih =>
    have last : s.memset value (n + 1) = (s.memset value n).store n value := by
      simp [SieveArray.memset, List.range_succ]
    rw [last, store_ip, ih]
    split
    · rename_i same
      rw [if_pos (by omega)]
    · rename_i other
      exact if_congr (by omega) rfl rfl

theorem memset_writes (value : UInt8) (n : Nat) (s : SieveArray) :
    (s.memset value n).writes = s.writes ++ List.range n := by
  induction n with
  | zero => simp [SieveArray.memset]
  | succ n ih =>
    have last : s.memset value (n + 1) = (s.memset value n).store n value := by
      simp [SieveArray.memset, List.range_succ]
    rw [last, SieveArray.store, ih, List.range_succ, List.append_assoc]

/-- The multiples of p from i on are i and those from i + p on. -/
theorem multiple_step {p i j : Nat} (other : j ≠ i) : i + p ≤ j ∧ p ∣ j - (i + p) ↔ i ≤ j ∧ p ∣ j - i := by
  constructor
  · rintro ⟨from_, divides⟩
    have sum : j - i = j - (i + p) + p := by omega
    exact ⟨by omega, sum ▸ Dvd.dvd.add divides (dvd_refl p)⟩
  · rintro ⟨from_, divides⟩
    have large := Nat.le_of_dvd (by omega) divides
    have rest : j - (i + p) = j - i - p := by omega
    exact ⟨by omega, rest ▸ Nat.dvd_sub divides (dvd_refl p)⟩

/-- The inner loop clears the multiples of p from i up to the limit. -/
theorem clearMultiples_spec {lim p : Nat} (positive : 0 < p) (room : lim + p ≤ intMax) (i : Nat) (s : SieveArray) :
    ∃ t, clearMultiples lim p positive i s = some t ∧
      (∀ j, t.ip j = if (i ≤ j ∧ p ∣ j - i) ∧ j ≤ lim then 0 else s.ip j) ∧
      ∀ w ∈ t.writes, w ∈ s.writes ∨ w ≤ lim := by
  fun_induction clearMultiples lim p positive i s with
  | case1 i s inside ih =>
    obtain ⟨t, runs, cells, writes⟩ := ih
    refine ⟨t, by rw [intValue_fits (by omega), runs], fun j => ?_, fun w written => ?_⟩
    · rw [cells, store_ip]
      rcases eq_or_ne j i with rfl | other
      · simp [inside]
      · simp only [multiple_step other, other, if_false]
    · rcases writes w written with before | below
      · rw [SieveArray.store, List.mem_append, List.mem_singleton] at before
        exact before.imp_right (fun own => own.trans_le inside)
      · exact Or.inr below
  | case2 i s outside =>
    refine ⟨s, rfl, fun j => ?_, fun w written => Or.inl written⟩
    rw [if_neg (by omega)]

/-- The cells up to the limit hold what the primes below p have kept, and no store went elsewhere. -/
structure Sifted (lim p : Nat) (s : SieveArray) : Prop where
  kept : ∀ j ≤ lim, (Kept p j → s.ip j = 1) ∧ (¬ Kept p j → s.ip j = 0)
  inside : ∀ w ∈ s.writes, w ≤ lim

/-- One turn of the outer loop. -/
theorem sifted_step {lim p : Nat} {s : SieveArray} (sifted : Sifted lim p s) (two : 2 ≤ p) (square : p * p ≤ lim)
    (positive : 0 < p) (room : lim + p ≤ intMax) :
    ∃ t, (if s.ip p ≠ 0 then clearMultiples lim p positive (p * p) s else some s) = some t ∧ Sifted lim (p + 1) t := by
  have turn := sifted.kept p ((Nat.le_mul_self p).trans square)
  by_cases prime : p.Prime
  · have set_ : s.ip p ≠ 0 := by
      rw [turn.1 ((kept_self two).mpr prime)]
      decide
    obtain ⟨t, runs, cells, writes⟩ := clearMultiples_spec positive room (p * p) s
    refine ⟨t, by rw [if_pos set_, runs], fun j below => ?_, fun w written => ?_⟩
    · have multiple : p * p ≤ j → (p ∣ j - p * p ↔ p ∣ j) := fun from_ => by
        rw [Nat.dvd_sub_iff_left from_ (dvd_mul_right p p)]
      have cleared : (p * p ≤ j ∧ p ∣ j - p * p) ∧ j ≤ lim ↔ p * p ≤ j ∧ p ∣ j := by
        rw [and_iff_left below]
        exact and_congr_right multiple
      have before := sifted.kept j below
      rw [kept_succ_prime prime, cells, if_congr cleared rfl rfl]
      split
      · rename_i own
        exact ⟨fun kept => absurd own kept.2, fun _ => rfl⟩
      · rename_i free
        exact ⟨fun kept => before.1 kept.1, fun lost => before.2 (fun kept => lost ⟨kept, free⟩)⟩
    · exact (writes w written).elim (sifted.inside w) id
  · have clear : s.ip p = 0 := turn.2 (fun kept => prime ((kept_self two).mp kept))
    refine ⟨s, if_neg (not_not.mpr clear), fun j below => ?_, sifted.inside⟩
    rw [kept_succ_other prime]
    exact sifted.kept j below

section Limit
variable {lim : Nat} (fits : (Nat.sqrt lim + 1) ^ 2 ≤ intMax)
include fits

/-- The square of the last p evaluated bounds every int of the loops. -/
theorem sieve_room : lim + Nat.sqrt lim ≤ intMax := by
  have largest : intMax < 46341 ^ 2 := by decide
  have root : Nat.sqrt lim + 1 < 46341 := lt_of_pow_lt_pow_left₀ 2 (by decide) (fits.trans_lt largest)
  have square : (Nat.sqrt lim + 1) ^ 2 ≤ 46340 ^ 2 := Nat.pow_le_pow_left (by omega) 2
  have below : lim < (Nat.sqrt lim + 1) ^ 2 := Nat.lt_succ_sqrt' lim
  have room : 46340 ^ 2 + 46340 ≤ intMax := by decide
  omega

/-- The outer loop ends with the primes. -/
theorem sieveLoop_spec (turns : Nat) {p : Nat} (count : p + turns = Nat.sqrt lim + 1) (two : 2 ≤ p) (positive : 0 < p)
    {s : SieveArray} (sifted : Sifted lim p s) : ∃ t, sieveLoop lim p positive s = some t ∧
      (∀ j ≤ lim, t.ip j = if j.Prime then 1 else 0) ∧ ∀ w ∈ t.writes, w ≤ lim := by
  have room := sieve_room fits
  induction turns generalizing p s with
  | zero =>
    obtain rfl : p = Nat.sqrt lim + 1 := count
    have past : lim < (Nat.sqrt lim + 1) * (Nat.sqrt lim + 1) := Nat.lt_succ_sqrt lim
    rw [sq] at fits
    refine ⟨s, ?_, fun j below => ?_, sifted.inside⟩
    · rw [sieveLoop, intValue_fits fits, if_neg (not_le.mpr past)]
    · have prime := @kept_below (Nat.sqrt lim + 1) j (below.trans_lt past)
      have cell := sifted.kept j below
      rw [prime] at cell
      split
      · rename_i own
        exact cell.1 own
      · rename_i other
        exact cell.2 other
  | succ turns ih =>
    have square : p * p ≤ lim := Nat.le_sqrt.mp (by omega)
    have grows := Nat.mul_le_mul_right p two
    obtain ⟨next, turn, later⟩ := sifted_step sifted two square positive (by omega)
    obtain ⟨t, runs, primes⟩ := ih (by omega) (by omega) p.succ_pos later
    refine ⟨t, ?_, primes⟩
    rw [sieveLoop, intValue_fits (by omega), if_pos square, turn, Option.bind_some, intValue_fits (by omega)]
    exact runs

omit fits in
/-- The last loop goes on with the number of primes below i. -/
theorem countLoop_spec {ip : Nat → UInt8} (primes : ∀ j ≤ lim, ip j = if j.Prime then 1 else 0) (room : lim < intMax)
    (turns : Nat) {i : Nat} (count : i + turns = lim + 1) :
    countLoop lim ip i (Nat.count Nat.Prime i) = some (Nat.primeCounting lim) := by
  induction turns generalizing i with
  | zero =>
    obtain rfl : i = lim + 1 := count
    rw [countLoop, if_neg (by omega)]
    rfl
  | succ turns ih =>
    have inside : i ≤ lim := by omega
    have next : (if ip i ≠ 0 then Nat.count Nat.Prime i + 1 else Nat.count Nat.Prime i) =
        Nat.count Nat.Prime (i + 1) := by
      rw [primes i inside, Nat.count_succ]
      split <;> simp_all
    have few := Nat.count_le (p := Nat.Prime) (n := i + 1)
    rw [countLoop, if_pos inside]
    dsimp only
    rw [next, intValue_fits (by omega), intValue_fits (by omega)]
    exact ih (by omega)

/-- The cells are the primes, the value is their number, every store is inside, and no int overflows. -/
theorem sieve_finds_primes (some_ : 1 ≤ lim) (ip : Nat → UInt8) :
    ∃ t, sieve ip lim = some (t, Nat.primeCounting lim) ∧ (∀ i ≤ lim, t.ip i = if i.Prime then 1 else 0) ∧
      ∀ w ∈ t.writes, w ≤ lim := by
  have room := sieve_room fits
  have root : 1 ≤ Nat.sqrt lim := Nat.le_sqrt.mpr some_
  have start : Sifted lim 2 ((((SieveArray.mk ip []).memset 1 (lim + 1)).store 1 0).store 0 0) := by
    refine ⟨fun j below => ?_, fun w written => ?_⟩
    · rw [kept_two, store_ip, store_ip, memset_ip]
      refine ⟨fun two => ?_, fun small => ?_⟩
      · rw [if_neg (by omega), if_neg (by omega), if_pos (by omega)]
      · rcases (show j = 0 ∨ j = 1 by omega) with rfl | rfl <;> rfl
    · simp only [SieveArray.store, memset_writes, List.mem_append, List.mem_range, List.mem_singleton, List.not_mem_nil,
        false_or] at written
      omega
  obtain ⟨t, runs, primes, inside⟩ := sieveLoop_spec fits (Nat.sqrt lim - 1) (by omega) le_rfl (by decide) start
  have counted := countLoop_spec primes (by omega) (lim - 1) (i := 2) (by omega)
  have none : Nat.count Nat.Prime 2 = 0 := by decide
  rw [none] at counted
  refine ⟨t, ?_, primes, inside⟩
  rw [sieve, intValue_fits (by omega)]
  dsimp only
  rw [runs, Option.bind_some, counted, Option.map_some]

end Limit

theorem sieve_finds_primes_ten : ∃ t, sieve (fun _ => 7) 10 = some (t, 4) ∧
    (∀ i ≤ 10, t.ip i = if i.Prime then 1 else 0) ∧ ∀ w ∈ t.writes, w ≤ 10 := by
  have four : Nat.primeCounting 10 = 4 := by decide
  have primes := @sieve_finds_primes 10 (by decide +kernel) (by decide) (fun _ => 7)
  rwa [four] at primes

end ServMark
