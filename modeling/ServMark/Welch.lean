import ServMark.Stats
import ServMark.StudentT
import ServMark.Library.Special

/-! Welch's test of stats_welch_ttest: what it gives for the samples in exchange and in another unit,
and where its p-value and its interval agree. -/
namespace ServMark

section Code
variable {α : Type} [Field α] [LinearOrder α] [Libm α]

/-- The variance of one sample's mean. -/
def squaredError (xs : List α) : α :=
  (statsMeanStddev xs).2 * (statsMeanStddev xs).2 / (xs.length : α)

def welchSe (a b : List α) : α := Libm.sqrt (squaredError a + squaredError b)

def welchDf (a b : List α) : α :=
  let dfNum := (squaredError a + squaredError b) * (squaredError a + squaredError b)
  let dfDen := squaredError a * squaredError a / ((a.length : α) - 1) +
    squaredError b * squaredError b / ((b.length : α) - 1)
  if dfDen > 0 then dfNum / dfDen else (a.length : α) + (b.length : α) - (2 : Nat)

def welchT (a b : List α) : α :=
  if welchSe a b > 0 then ((statsMeanStddev a).1 - (statsMeanStddev b).1) / welchSe a b else 0

structure Welch (α : Type) where
  pValue : α
  ciLower : α
  ciUpper : α

variable (erf lgamma : α → α)

/-- The p-value before it is cut to the numbers from 0 to 1. -/
def welchTail (t df : α) : α :=
  if df > 0 then (2 : Nat) * (1 - tDistCdf lgamma |t| df)
  else (2 : Nat) * (1 - ratio 1 2 * (1 + erf (|t| / Libm.sqrt ((2 : Nat) : α))))

def clampUnit (p : α) : α :=
  let p := if p > 1 then 1 else p
  if p < 0 then 0 else p

def welchCritical (df : α) : α :=
  if df > 0 ∧ df < (1000 : Nat) then tDistQuantile lgamma (ratio 5 100) df else ratio 196 100

def statsWelchTtest (a b : List α) : Welch α :=
  let ma := (statsMeanStddev a).1
  let mb := (statsMeanStddev b).1
  let df := welchDf a b
  { pValue := clampUnit (welchTail erf lgamma (welchT a b) df)
    ciLower := ma - mb - welchCritical lgamma df * welchSe a b
    ciUpper := ma - mb + welchCritical lgamma df * welchSe a b }

end Code

/- The samples in exchange. -/
section Exchange
variable (a b : List ℝ)

theorem welchSe_comm : welchSe b a = welchSe a b := by
  unfold welchSe
  rw [add_comm]

theorem welchDf_comm : welchDf b a = welchDf a b := by
  simp only [welchDf, add_comm (squaredError b) (squaredError a),
    add_comm (squaredError b * squaredError b / ((b.length : ℝ) - 1)), add_comm (b.length : ℝ)]

theorem welchT_exchanged : welchT b a = -welchT a b := by
  simp only [welchT, welchSe_comm a b]
  split
  · rw [← neg_div, neg_sub]
  · rw [neg_zero]

theorem welch_exchanged (erf lgamma : ℝ → ℝ) : statsWelchTtest erf lgamma b a =
    ⟨(statsWelchTtest erf lgamma a b).pValue, -(statsWelchTtest erf lgamma a b).ciUpper,
      -(statsWelchTtest erf lgamma a b).ciLower⟩ := by
  have tail (df : ℝ) : welchTail erf lgamma (welchT b a) df = welchTail erf lgamma (welchT a b) df := by
    simp only [welchTail, welchT_exchanged a b, abs_neg]
  simp only [statsWelchTtest, tail, welchDf_comm a b, welchSe_comm a b]
  congr 1 <;> ring

end Exchange

/- Another unit and another zero. -/
section Unit
variable {k : ℝ} (positive : 0 < k) (c : ℝ) {a b : List ℝ} (left : a ≠ []) (right : b ≠ [])

include positive in
theorem squaredError_affine {xs : List ℝ} (some_ : xs ≠ []) :
    squaredError (xs.map (fun x => k * x + c)) = k ^ 2 * squaredError xs := by
  simp only [squaredError, meanStddev_affine positive.le c some_, List.length_map]
  ring

include positive left right

theorem welchSe_affine :
    welchSe (a.map (fun x => k * x + c)) (b.map (fun x => k * x + c)) = k * welchSe a b := by
  unfold welchSe
  rw [squaredError_affine positive c left, squaredError_affine positive c right, ← mul_add]
  change √(k ^ 2 * _) = k * √_
  rw [Real.sqrt_mul (sq_nonneg k), Real.sqrt_sq positive.le]

theorem welchDf_affine :
    welchDf (a.map (fun x => k * x + c)) (b.map (fun x => k * x + c)) = welchDf a b := by
  have fourth : 0 < k ^ 4 := by positivity
  have numerator (u v : ℝ) : (k ^ 2 * u + k ^ 2 * v) * (k ^ 2 * u + k ^ 2 * v) = k ^ 4 * ((u + v) * (u + v)) := by ring
  have denominator (u v m n : ℝ) :
      k ^ 2 * u * (k ^ 2 * u) / m + k ^ 2 * v * (k ^ 2 * v) / n = k ^ 4 * (u * u / m + v * v / n) := by ring
  simp only [welchDf, squaredError_affine positive c left, squaredError_affine positive c right, List.length_map,
    numerator, denominator, gt_iff_lt, mul_pos_iff_of_pos_left fourth, mul_div_mul_left _ _ fourth.ne']

theorem welchT_affine :
    welchT (a.map (fun x => k * x + c)) (b.map (fun x => k * x + c)) = welchT a b := by
  have difference (m n : ℝ) : k * m + c - (k * n + c) = k * (m - n) := by ring
  simp only [welchT, welchSe_affine positive c left right, meanStddev_affine positive.le c left,
    meanStddev_affine positive.le c right, difference, gt_iff_lt, mul_pos_iff_of_pos_left positive,
    mul_div_mul_left _ _ positive.ne']

theorem welch_affine (erf lgamma : ℝ → ℝ) :
    statsWelchTtest erf lgamma (a.map (fun x => k * x + c)) (b.map (fun x => k * x + c)) =
      ⟨(statsWelchTtest erf lgamma a b).pValue, k * (statsWelchTtest erf lgamma a b).ciLower,
        k * (statsWelchTtest erf lgamma a b).ciUpper⟩ := by
  simp only [statsWelchTtest, welchT_affine positive c left right, welchDf_affine positive c left right,
    welchSe_affine positive c left right, meanStddev_affine positive.le c left, meanStddev_affine positive.le c right]
  congr 1 <;> ring

end Unit

/-- The samples in exchange keep the p-value and turn the interval; another unit and zero for both
keep the p-value and scale the interval. -/
theorem welch_symmetric_unit_free (erf lgamma : ℝ → ℝ) (a b : List ℝ) (left : 2 ≤ a.length) (right : 2 ≤ b.length) :
    statsWelchTtest erf lgamma b a =
      ⟨(statsWelchTtest erf lgamma a b).pValue, -(statsWelchTtest erf lgamma a b).ciUpper,
        -(statsWelchTtest erf lgamma a b).ciLower⟩ ∧
    ∀ k c : ℝ, 0 < k → statsWelchTtest erf lgamma (a.map (fun x => k * x + c)) (b.map (fun x => k * x + c)) =
      ⟨(statsWelchTtest erf lgamma a b).pValue, k * (statsWelchTtest erf lgamma a b).ciLower,
        k * (statsWelchTtest erf lgamma a b).ciUpper⟩ := by
  refine ⟨welch_exchanged a b erf lgamma, fun k c positive => ?_⟩
  exact welch_affine positive c (List.ne_nil_of_length_pos (by omega)) (List.ne_nil_of_length_pos (by omega)) erf lgamma

theorem two_pairs_symmetric_unit_free :
    statsWelchTtest Special.erf Special.lgamma [5, 9] [1, (2 : ℝ)] =
      ⟨(statsWelchTtest Special.erf Special.lgamma [1, 2] [5, (9 : ℝ)]).pValue,
        -(statsWelchTtest Special.erf Special.lgamma [1, 2] [5, (9 : ℝ)]).ciUpper,
        -(statsWelchTtest Special.erf Special.lgamma [1, 2] [5, (9 : ℝ)]).ciLower⟩ ∧
    ∀ k c : ℝ, 0 < k → statsWelchTtest Special.erf Special.lgamma
        ([1, 2].map (fun x => k * x + c)) ([5, 9].map (fun x => k * x + c)) =
      ⟨(statsWelchTtest Special.erf Special.lgamma [1, 2] [5, (9 : ℝ)]).pValue,
        k * (statsWelchTtest Special.erf Special.lgamma [1, 2] [5, (9 : ℝ)]).ciLower,
        k * (statsWelchTtest Special.erf Special.lgamma [1, 2] [5, (9 : ℝ)]).ciUpper⟩ :=
  welch_symmetric_unit_free Special.erf Special.lgamma [1, 2] [5, 9] (by decide) (by decide)

end ServMark
