import Mathlib.Data.List.GetD
import ServMark.Stats
import ServMark.Library.ExchangeSort
import ServMark.Library.Ordered
import ServMark.Library.Ranks
import ServMark.Library.Special

/-! The rank test of stats_mann_whitney: when its u1 is the U statistic, and what the estimate it
stores with the p-value says of the two samples. A sum of two lengths fits an int here; a product
need not. -/
namespace ServMark
open Ranks

section Code
variable {α : Type} [Field α] [LinearOrder α]

/-- The arrays combined and group. -/
def grouped (a b : List α) : List (α × Nat) := a.map (fun x => (x, 0)) ++ b.map (fun x => (x, 1))

/-- The loop over the sorted cells: r1 takes the rank of each cell of group 0, and the rank moves on
where the next cell holds a higher value. -/
def rankLoop (r1 : α) (rank i : Nat) : List (α × Nat) → α
  | [] => r1
  | [cell] => if cell.2 = 0 then r1 + rank else r1
  | cell :: next :: rest =>
    rankLoop (if cell.2 = 0 then r1 + rank else r1) (if cell.1 < next.1 then i + 2 else rank) (i + 1) (next :: rest)

def mannWhitneyU1 (a b : List α) : α :=
  rankLoop 0 1 0 (ExchangeSort.exchangeSort (grouped a b)) - (intMul a.length (a.length + 1) : α) / (2 : Nat)

def mannWhitneyU2 (a b : List α) : α := (intMul a.length b.length : α) - mannWhitneyU1 a b

def hodgesLehmann (a b : List α) : α :=
  let diffs := statsSort (a.flatMap (fun x => b.map (fun y => x - y)))
  let dcount := diffs.length
  if dcount % 2 = 0 then (diffs.getD (dcount / 2 - 1) 0 + diffs.getD (dcount / 2) 0) / (2 : Nat)
  else diffs.getD (dcount / 2) 0

/-- The p-value and the estimate, for a pointer hodges_lehmann that is not NULL. -/
def statsMannWhitney [Libm α] (erf : α → α) (a b : List α) : α × α :=
  let u1 := mannWhitneyU1 a b
  let u2 := mannWhitneyU2 a b
  let u := if u1 < u2 then u1 else u2
  let mu := (intMul a.length b.length : α) / (2 : Nat)
  let su := Libm.sqrt ((intMul a.length b.length : α) * (a.length + b.length + 1) / (12 : Nat))
  let z := if su > 0 then (u - mu) / su else 0
  let p := (2 : Nat) * (1 - ratio 1 2 * (1 + erf (|z| / Libm.sqrt ((2 : Nat) : α))))
  (if p > 1 then 1 else p, hodgesLehmann a b)

end Code

variable {α : Type} [Field α] [LinearOrder α]

/-- Each cell of group 0 adds its rank; the rank held is that of the cell at the head. -/
theorem rankLoop_eq (cells front : List (α × Nat)) (r1 : α) (rank : Nat)
    (sorted : ((front ++ cells).map Prod.fst).Pairwise (· ≤ ·))
    (own : ∀ c ∈ cells.head?, rank = lower ((front ++ cells).map Prod.fst) c.1 + 1) :
    rankLoop r1 rank front.length cells = r1 + ((cells.filter (fun c => decide (c.2 = 0))).map
      (fun c => ((lower ((front ++ cells).map Prod.fst) c.1 + 1 : Nat) : α))).sum := by
  induction cells generalizing front r1 rank with
  | nil => simp [rankLoop]
  | cons cell cells ih =>
    have held : rank = lower ((front ++ cell :: cells).map Prod.fst) cell.1 + 1 := own cell (by simp)
    have taken : (if cell.2 = 0 then r1 + (rank : α) else r1) + ((cells.filter (fun c => decide (c.2 = 0))).map
        (fun c => ((lower ((front ++ cell :: cells).map Prod.fst) c.1 + 1 : Nat) : α))).sum =
        r1 + (((cell :: cells).filter (fun c => decide (c.2 = 0))).map
          (fun c => ((lower ((front ++ cell :: cells).map Prod.fst) c.1 + 1 : Nat) : α))).sum := by
      by_cases first : cell.2 = 0
      · simp only [first, List.filter_cons, decide_true, if_true, List.map_cons, List.sum_cons, held]
        ring
      · simp only [first, List.filter_cons, decide_false, if_false, Bool.false_eq_true]
    cases cells with
    | nil => simpa [rankLoop] using taken
    | cons next rest =>
      have whole : front ++ cell :: next :: rest = (front ++ [cell]) ++ next :: rest := by simp
      have moved : ∀ c ∈ (next :: rest).head?, (if cell.1 < next.1 then front.length + 2 else rank) =
          lower (((front ++ [cell]) ++ next :: rest).map Prod.fst) c.1 + 1 := by
        intro c head
        obtain rfl : next = c := by simpa using head
        rw [← whole]
        split
        · rename_i less
          simp only [List.map_append, List.map_cons] at sorted ⊢
          rw [lower_next sorted less, List.length_map]
        · rename_i same
          have le : cell.1 ≤ next.1 := by
            simp only [List.map_append, List.map_cons] at sorted
            exact (List.pairwise_cons.mp (List.pairwise_append.mp sorted).2.1).1 _ List.mem_cons_self
          rw [held, le_antisymm le (not_lt.mp same)]
      have next_sorted := sorted
      rw [whole] at next_sorted
      have later := ih (front ++ [cell]) (if cell.2 = 0 then r1 + (rank : α) else r1)
        (if cell.1 < next.1 then front.length + 2 else rank) next_sorted moved
      rw [← whole, List.length_append, List.length_singleton] at later
      rw [rankLoop, later, taken]

omit [Field α] [LinearOrder α] in
theorem grouped_values (a b : List α) : (grouped a b).map Prod.fst = a ++ b := by
  simp [grouped, Function.comp_def]

omit [Field α] [LinearOrder α] in
theorem grouped_first (a b : List α) : (grouped a b).filter (fun c => decide (c.2 = 0)) = a.map (fun x => (x, 0)) := by
  simp [grouped, List.filter_map, Function.comp_def]

theorem rankLoop_sum (a b : List α) : rankLoop 0 1 0 (ExchangeSort.exchangeSort (grouped a b)) =
    ((above a a + above a b + a.length : Nat) : α) := by
  have perm := ExchangeSort.exchangeSort_perm (grouped a b)
  have values : ((ExchangeSort.exchangeSort (grouped a b)).map Prod.fst).Perm (a ++ b) := by
    rw [← grouped_values]
    exact perm.map Prod.fst
  have sorted : (([] ++ ExchangeSort.exchangeSort (grouped a b)).map Prod.fst).Pairwise (· ≤ ·) :=
    List.pairwise_map.mpr (ExchangeSort.exchangeSort_sorted (grouped a b))
  have own : ∀ c ∈ (ExchangeSort.exchangeSort (grouped a b)).head?,
      1 = lower (([] ++ ExchangeSort.exchangeSort (grouped a b)).map Prod.fst) c.1 + 1 := by
    intro c head
    obtain ⟨rest, cells⟩ := List.head?_eq_some_iff.mp head
    rw [List.nil_append, cells] at sorted ⊢
    rw [List.map_cons, lower_head sorted]
  have sum := rankLoop_eq _ [] (0 : α) 1 sorted own
  rw [List.nil_append] at sum
  have ranks : ((ExchangeSort.exchangeSort (grouped a b)).filter (fun c => decide (c.2 = 0))).Perm
      (a.map (fun x => (x, 0))) := by
    rw [← grouped_first]
    exact perm.filter _
  have lowers (x : α) : lower ((ExchangeSort.exchangeSort (grouped a b)).map Prod.fst) x = lower (a ++ b) x :=
    lower_perm values x
  simp only [lowers] at sum
  rw [List.length_nil] at sum
  rw [sum, zero_add, (ranks.map _).sum_eq, List.map_map, ← ranks_sum, Nat.cast_list_sum, List.map_map]
  rfl

/-- Twice the amount by which u1 falls short of the U statistic: equal values of the first sample
within it and across, less what the int product loses. -/
def uShort (a b : List α) : Int :=
  2 * repeats a + tied a b - ((a.length : Int) * (a.length + 1) - intMul a.length (a.length + 1))

theorem mannWhitneyU1_eq [CharZero α] (a b : List α) :
    mannWhitneyU1 a b = (above a b : α) + (tied a b : α) / 2 - (uShort a b : α) / 2 := by
  have self : (2 : α) * (above a a + repeats a + a.length) = a.length * (a.length + 1) := by
    exact_mod_cast above_self a
  unfold mannWhitneyU1 uShort
  rw [rankLoop_sum]
  push_cast
  linear_combination self / 2

/-- The first value u1 is the U statistic of the pair, and the test makes of it what it should. -/
structure UStatistic (a b : List ℝ) : Prop where
  pairs : mannWhitneyU1 a b = (above a b : ℝ) + (tied a b : ℝ) / 2
  nonneg : 0 ≤ min (mannWhitneyU1 a b) (mannWhitneyU2 a b)
  half : min (mannWhitneyU1 a b) (mannWhitneyU2 a b) ≤ a.length * b.length / 2
  swapped : (statsMannWhitney Special.erf b a).1 = (statsMannWhitney Special.erf a b).1

section Test
variable {a b : List ℝ} (left : a ≠ []) (right : b ≠ []) (fits : a.length * b.length ≤ intMax)

/-- The standard deviation su. -/
noncomputable def rankDeviation (a b : List ℝ) : ℝ :=
  Real.sqrt ((a.length : ℝ) * b.length * (a.length + b.length + 1) / 12)

include left right in
theorem rankDeviation_pos : 0 < rankDeviation a b := by
  have first := List.length_pos_iff.mpr left
  have second := List.length_pos_iff.mpr right
  unfold rankDeviation
  positivity

theorem rankDeviation_comm (a b : List ℝ) : rankDeviation b a = rankDeviation a b := by
  unfold rankDeviation
  congr 1
  ring

include left right fits in
/-- The p-value depends on the distance of u1 from half the number of pairs. -/
theorem mannWhitney_p : (statsMannWhitney Special.erf a b).1 =
    1 - Special.erf (|mannWhitneyU1 a b - a.length * b.length / 2| / rankDeviation a b / √2) := by
  have product : (intMul a.length b.length : ℝ) = (a.length : ℝ) * b.length := by
    rw [intMul_exact fits]
    push_cast
    rfl
  have deviation : Libm.sqrt ((a.length : ℝ) * b.length * (a.length + b.length + 1) / 12) = rankDeviation a b := rfl
  have positive := rankDeviation_pos left right
  have distance : |(if mannWhitneyU1 a b < mannWhitneyU2 a b then mannWhitneyU1 a b else mannWhitneyU2 a b) -
      a.length * b.length / 2| = |mannWhitneyU1 a b - a.length * b.length / 2| := by
    split
    · rfl
    · unfold mannWhitneyU2
      rw [product, abs_sub_comm]
      congr 1
      ring
  have nonneg : 0 ≤ Special.erf (|mannWhitneyU1 a b - a.length * b.length / 2| / rankDeviation a b / √2) :=
    Special.erf_nonneg (by positivity)
  have root : (Libm.sqrt 2 : ℝ) = √2 := rfl
  have clamp (e : ℝ) (nonneg : 0 ≤ e) :
      (if 2 * (1 - 1 / 2 * (1 + e)) > 1 then 1 else 2 * (1 - 1 / 2 * (1 + e))) = 1 - e := by
    rw [if_neg (by linarith)]
    ring
  simp only [statsMannWhitney, ratio, Nat.cast_ofNat, Nat.cast_one, deviation, if_pos positive, abs_div,
    abs_of_pos positive, product, distance, root]
  exact clamp _ nonneg

include left right fits in
theorem mannWhitney_p_swapped : (statsMannWhitney Special.erf b a).1 = (statsMannWhitney Special.erf a b).1 ↔
    |mannWhitneyU1 b a - a.length * b.length / 2| = |mannWhitneyU1 a b - a.length * b.length / 2| := by
  have positive := rankDeviation_pos left right
  have root : (0 : ℝ) < √2 := by positivity
  have other : b.length * a.length ≤ intMax := by rwa [Nat.mul_comm]
  rw [mannWhitney_p left right fits, mannWhitney_p right left other, rankDeviation_comm a b, sub_right_inj,
    Special.erf_strictMono.injective.eq_iff, div_left_inj' root.ne', div_left_inj' positive.ne',
    mul_comm (b.length : ℝ)]

theorem above_add_real (a b : List ℝ) :
    (above a b : ℝ) + above b a + tied a b = (a.length : ℝ) * b.length := by
  exact_mod_cast above_add a b

theorem tied_comm (a b : List ℝ) : tied b a = tied a b := by
  have first := above_add a b
  have second := above_add b a
  rw [Nat.mul_comm] at second
  omega

theorem u1_exact_iff (a b : List ℝ) :
    mannWhitneyU1 a b = (above a b : ℝ) + (tied a b : ℝ) / 2 ↔ uShort a b = 0 := by
  rw [mannWhitneyU1_eq, sub_eq_self, div_eq_zero_iff, or_iff_left two_ne_zero, Int.cast_eq_zero]

section Exact
variable (exact : uShort a b = 0)
include left right fits exact

/-- With u1 exact the samples in exchange have the same p-value if their own value is exact too, or if it
falls on the other side of half the pairs. -/
theorem p_swapped_iff : (statsMannWhitney Special.erf b a).1 = (statsMannWhitney Special.erf a b).1 ↔
    uShort b a = 0 ∨ uShort b a = 2 * ((above b a : Int) - above a b) := by
  have total := above_add_real a b
  rw [mannWhitney_p_swapped left right fits, (u1_exact_iff a b).mpr exact, mannWhitneyU1_eq, tied_comm a b, abs_eq_abs,
    or_comm]
  apply or_congr
  · rw [← Int.cast_eq_zero (α := ℝ)]
    constructor
    · intro mirrored
      linarith
    · intro none
      rw [none]
      linarith
  · rw [← Int.cast_inj (α := ℝ)]
    push_cast
    constructor
    · intro same
      linarith
    · intro amount
      rw [amount]
      ring

omit left right in
theorem u2_exact : mannWhitneyU2 a b = (above b a : ℝ) + (tied a b : ℝ) / 2 := by
  have total := above_add_real a b
  unfold mannWhitneyU2
  rw [(u1_exact_iff a b).mpr exact, intMul_exact fits]
  push_cast
  linarith

omit left right in
theorem least_bounds : 0 ≤ min (mannWhitneyU1 a b) (mannWhitneyU2 a b) ∧
    min (mannWhitneyU1 a b) (mannWhitneyU2 a b) ≤ a.length * b.length / 2 := by
  have half : 0 ≤ (tied a b : ℝ) / 2 := div_nonneg (Nat.cast_nonneg _) zero_le_two
  rw [(u1_exact_iff a b).mpr exact, u2_exact fits exact, ← above_add_real a b]
  constructor
  · exact le_min (add_nonneg (Nat.cast_nonneg _) half) (add_nonneg (Nat.cast_nonneg _) half)
  · rcases le_total ((above a b : ℝ) + (tied a b : ℝ) / 2) ((above b a : ℝ) + (tied a b : ℝ) / 2) with le | le
    · rw [min_eq_left le]
      linarith
    · rw [min_eq_right le]
      linarith

end Exact
end Test

/-- The value u1 is the U statistic, with what follows from that, exactly if it does not fall short
of it, and the samples in exchange do not either or by an amount that mirrors the pairs. -/
theorem u_statistic_iff (a b : List ℝ) (left : a ≠ []) (right : b ≠ []) (fits : a.length * b.length ≤ intMax) :
    UStatistic a b ↔ uShort a b = 0 ∧ (uShort b a = 0 ∨ uShort b a = 2 * ((above b a : Int) - above a b)) := by
  constructor
  · intro statistic
    have exact := (u1_exact_iff a b).mp statistic.pairs
    exact ⟨exact, (p_swapped_iff left right fits exact).mp statistic.swapped⟩
  · rintro ⟨exact, other⟩
    obtain ⟨nonneg, half⟩ := least_bounds fits exact
    exact ⟨(u1_exact_iff a b).mpr exact, nonneg, half, (p_swapped_iff left right fits exact).mpr other⟩

/-- Up to 46340 values of the first sample the int product is exact, and u1 falls short where one of
them repeats or occurs in the other sample. -/
theorem uShort_eq_zero {a : List ℝ} (few : a.length ≤ 46340) (b : List ℝ) :
    uShort a b = 0 ↔ a.Nodup ∧ a.Disjoint b := by
  have fits : a.length * (a.length + 1) ≤ intMax :=
    (Nat.mul_le_mul few (Nat.succ_le_succ few)).trans (by decide)
  have exact := intMul_exact fits
  push_cast at exact
  rw [← repeats_eq_zero, ← tied_eq_zero, uShort, exact]
  omega

theorem untied_statistic : UStatistic [1, 3] [2] :=
  (u_statistic_iff [1, 3] [2] (by simp) (by simp) (by decide)).mpr
    ⟨(uShort_eq_zero (by decide) [2]).mpr (by norm_num), Or.inl ((uShort_eq_zero (by decide) [1, 3]).mpr (by norm_num))⟩

/-- Three equal values: u1 is -1, and one pair in two halves would make it 1. -/
theorem tied_statistic_negative : mannWhitneyU1 [1, 1] [(1 : ℝ)] = -1 ∧ ¬ UStatistic [1, 1] [1] := by
  have higher : above [1, 1] [(1 : ℝ)] = 0 := by simp [above, List.product_cons]
  have equal : tied [1, 1] [(1 : ℝ)] = 2 := by simp [tied, List.product_cons]
  have own : repeats [1, (1 : ℝ)] = 1 := by simp [repeats]
  have short : uShort [1, 1] [(1 : ℝ)] = 4 := by
    rw [uShort, equal, own]
    decide
  have value : mannWhitneyU1 [1, 1] [(1 : ℝ)] = -1 := by
    rw [mannWhitneyU1_eq, higher, equal, short]
    norm_num
  refine ⟨value, fun statistic => ?_⟩
  have nonneg := le_trans statistic.nonneg (min_le_left _ _)
  rw [value] at nonneg
  norm_num at nonneg

/- The estimate that is stored with the p-value. -/
section Estimate
variable {α : Type} [Field α] [LinearOrder α]

def differences (a b : List α) : List α := a.flatMap (fun x => b.map (fun y => x - y))

theorem hodgesLehmann_eq (a b : List α) : hodgesLehmann a b = Ordered.median (differences a b) := rfl

omit [LinearOrder α] in
theorem differences_ne_nil {a b : List α} (left : a ≠ []) (right : b ≠ []) : differences a b ≠ [] := by
  obtain ⟨x, first, rfl⟩ := List.exists_cons_of_ne_nil left
  obtain ⟨y, second, rfl⟩ := List.exists_cons_of_ne_nil right
  simp [differences]

omit [LinearOrder α] in
theorem differences_swapped (a b : List α) : (differences b a).Perm ((differences a b).map (fun d => -d)) := by
  have turned : (differences a b).map (fun d => -d) = a.flatMap (fun x => b.map (fun y => y - x)) := by
    simp [differences, List.map_flatMap, Function.comp_def]
  rw [turned, ← Multiset.coe_eq_coe]
  have exchanged := Multiset.bind_map_comm (b : Multiset α) (a : Multiset α) (f := fun y x => y - x)
  simpa only [differences, Multiset.map_coe, Multiset.coe_bind] using exchanged

omit [LinearOrder α] in
theorem differences_shifted (a b : List α) (c : α) :
    differences (a.map (fun x => x + c)) b = (differences a b).map (fun d => d + c) := by
  simp only [differences, List.flatMap_map, List.map_flatMap, List.map_map, Function.comp_def, sub_add_eq_add_sub]

variable [IsStrictOrderedRing α]

/-- The estimate is a location: it changes its sign with the samples, moves with the first of them,
and lies between the extreme differences. -/
theorem hodges_lehmann_located [Libm α] (erf : α → α) (a b : List α) (left : a ≠ []) (right : b ≠ []) (c : α) :
    (statsMannWhitney erf b a).2 = -(statsMannWhitney erf a b).2 ∧
    (statsMannWhitney erf (a.map (fun x => x + c)) b).2 = (statsMannWhitney erf a b).2 + c ∧
    ∃ lowA ∈ a, ∃ highA ∈ a, ∃ lowB ∈ b, ∃ highB ∈ b,
      (∀ x ∈ a, lowA ≤ x ∧ x ≤ highA) ∧ (∀ y ∈ b, lowB ≤ y ∧ y ≤ highB) ∧
      lowA - highB ≤ (statsMannWhitney erf a b).2 ∧ (statsMannWhitney erf a b).2 ≤ highA - lowB := by
  have some_ := differences_ne_nil left right
  obtain ⟨lowA, lowA_mem, highA, highA_mem, boundsA⟩ := Ordered.extremes left
  obtain ⟨lowB, lowB_mem, highB, highB_mem, boundsB⟩ := Ordered.extremes right
  have within : ∀ d ∈ differences a b, lowA - highB ≤ d ∧ d ≤ highA - lowB := by
    intro d member
    simp only [differences, List.mem_flatMap, List.mem_map] at member
    obtain ⟨x, first, y, second, rfl⟩ := member
    exact ⟨sub_le_sub (boundsA x first).1 (boundsB y second).2, sub_le_sub (boundsA x first).2 (boundsB y second).1⟩
  have between := Ordered.median_between some_ within
  refine ⟨?_, ?_, lowA, lowA_mem, highA, highA_mem, lowB, lowB_mem, highB, highB_mem, boundsA, boundsB,
    between.1, between.2⟩
  · change hodgesLehmann b a = -hodgesLehmann a b
    rw [hodgesLehmann_eq, hodgesLehmann_eq, Ordered.median_congr (differences_swapped a b), Ordered.median_neg some_]
  · change hodgesLehmann (a.map (fun x => x + c)) b = hodgesLehmann a b + c
    rw [hodgesLehmann_eq, hodgesLehmann_eq, differences_shifted, Ordered.median_shift some_]

end Estimate

theorem three_values_located :
    (statsMannWhitney Special.erf [2] [1, (3 : ℝ)]).2 = -(statsMannWhitney Special.erf [1, (3 : ℝ)] [2]).2 ∧
    (statsMannWhitney Special.erf ([1, (3 : ℝ)].map (fun x => x + 5)) [2]).2 =
      (statsMannWhitney Special.erf [1, (3 : ℝ)] [2]).2 + 5 ∧
    ∃ lowA ∈ [1, (3 : ℝ)], ∃ highA ∈ [1, (3 : ℝ)], ∃ lowB ∈ [(2 : ℝ)], ∃ highB ∈ [(2 : ℝ)],
      (∀ x ∈ [1, (3 : ℝ)], lowA ≤ x ∧ x ≤ highA) ∧ (∀ y ∈ [(2 : ℝ)], lowB ≤ y ∧ y ≤ highB) ∧
      lowA - highB ≤ (statsMannWhitney Special.erf [1, (3 : ℝ)] [2]).2 ∧
      (statsMannWhitney Special.erf [1, (3 : ℝ)] [2]).2 ≤ highA - lowB :=
  hodges_lehmann_located Special.erf [1, 3] [2] (by simp) (by simp) 5

end ServMark
