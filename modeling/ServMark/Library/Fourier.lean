import Mathlib.Algebra.BigOperators.Intervals
import Mathlib.RingTheory.RootsOfUnity.PrimitiveRoots
import ServMark.Library.BitReversal

/-! Discrete Fourier sums over the cells of an array that are a stride apart, and the stages of
butterflies, each of which joins two such sums to one of twice the length. -/
namespace Fourier
open BitReversal Finset

section Sums
variable {R : Type} [CommRing R] (ω : R) (x : Nat → R)

/-- The transform at j of the m values from the first on, a stride apart. -/
def spectrum (stride first m j : Nat) : R := ∑ t ∈ range m, ω ^ (stride * (j * t)) * x (first + stride * t)

theorem sum_pairs (f : Nat → R) (m : Nat) :
    ∑ t ∈ range (2 * m), f t = ∑ t ∈ range m, f (2 * t) + ∑ t ∈ range m, f (2 * t + 1) := by
  induction m with
  | zero => simp
  | succ m ih =>
    rw [show 2 * (m + 1) = 2 * m + 1 + 1 by ring, sum_range_succ, sum_range_succ, ih, sum_range_succ, sum_range_succ]
    ring

theorem spectrum_congr {x y : Nat → R} {stride first m : Nat}
    (same : ∀ t < m, x (first + stride * t) = y (first + stride * t)) (j : Nat) :
    spectrum ω x stride first m j = spectrum ω y stride first m j :=
  sum_congr rfl fun t member => by rw [same t (mem_range.mp member)]

/-- The even terms are a sum of twice the stride, and so are the odd ones. -/
theorem spectrum_split (stride first m j : Nat) : spectrum ω x stride first (2 * m) j =
    spectrum ω x (2 * stride) first m j + ω ^ (j * stride) * spectrum ω x (2 * stride) (first + stride) m j := by
  rw [spectrum, sum_pairs, spectrum, spectrum, mul_sum]
  refine congrArg₂ (· + ·) (sum_congr rfl fun t _ => ?_) (sum_congr rfl fun t _ => ?_)
  · rw [show stride * (j * (2 * t)) = 2 * stride * (j * t) by ring, show stride * (2 * t) = 2 * stride * t by ring]
  · have exponent : stride * (j * (2 * t + 1)) = j * stride + 2 * stride * (j * t) := by ring
    have cell : first + stride * (2 * t + 1) = first + stride + 2 * stride * t := by ring
    rw [exponent, cell, pow_add, mul_assoc]

variable {ω}

theorem spectrum_period {stride m : Nat} (period : ω ^ (stride * m) = 1) (first j : Nat) :
    spectrum ω x stride first m (j + m) = spectrum ω x stride first m j := by
  refine sum_congr rfl fun t _ => ?_
  have exponent : stride * ((j + m) * t) = stride * (j * t) + stride * m * t := by ring
  rw [exponent, pow_add, pow_mul ω (stride * m), period, one_pow, mul_one]

/-- In the upper half the sum of the odd terms is subtracted. -/
theorem spectrum_upper {stride m : Nat} (half : ω ^ (stride * m) = -1) (first j : Nat) :
    spectrum ω x stride first (2 * m) (j + m) =
      spectrum ω x (2 * stride) first m j - ω ^ (j * stride) * spectrum ω x (2 * stride) (first + stride) m j := by
  have period : ω ^ (2 * stride * m) = 1 := by
    rw [show 2 * stride * m = stride * m * 2 by ring, pow_mul, half, neg_one_sq]
  have turned : ω ^ ((j + m) * stride) = -ω ^ (j * stride) := by
    rw [add_mul, pow_add, Nat.mul_comm m stride, half, mul_neg_one]
  rw [spectrum_split, spectrum_period x period, spectrum_period x period, turned, neg_mul, sub_eq_add_neg]

end Sums

section Stages
variable {R : Type} [CommRing R]

/-- What the butterflies of a block leave in cell i, at this offset in the block. -/
def joined (half : Nat) (w : Nat → R) (z : Nat → R) (offset i : Nat) : R :=
  if offset < half then z i + w offset * z (i + half) else z (i - half) - w (offset - half) * z i

/-- The cells and factors that the butterflies of a block use. -/
theorem joined_congr {half offset i : Nat} {v w y z : Nat → R} (inside : offset < 2 * half)
    (factors : ∀ j < half, v j = w j) (own : y i = z i) (above : offset < half → y (i + half) = z (i + half))
    (below : half ≤ offset → y (i - half) = z (i - half)) :
    joined half v y offset i = joined half w z offset i := by
  unfold joined
  split
  · rename_i low
    rw [own, above low, factors offset low]
  · rename_i high
    rw [own, below (not_lt.mp high), factors (offset - half) (by omega)]

/-- After s stages the block c of 2 ^ s cells holds the transform of 2 ^ s values of the input, the
first of which is the reversed c and which are 2 ^ d apart. -/
def Transformed (ω : R) (x z : Nat → R) (s d : Nat) : Prop :=
  ∀ c < 2 ^ d, ∀ j < 2 ^ s, z (c * 2 ^ s + j) = spectrum ω x (2 ^ d) (reversed d c) (2 ^ s) j

variable {ω : R} {x z : Nat → R}

theorem transformed_start {k : Nat} (start : ∀ i < 2 ^ k, z i = x (reversed k i)) : Transformed ω x z 0 k := by
  intro c block j single
  have zero : j = 0 := by omega
  rw [zero, pow_zero, Nat.mul_one, Nat.add_zero, start c block]
  simp [spectrum]

theorem transformed_stage {s d : Nat} (half : ω ^ (2 ^ d * 2 ^ s) = -1) (before : Transformed ω x z s (d + 1))
    {after : Nat → R}
    (joins : ∀ i < 2 ^ (s + 1 + d), after i = joined (2 ^ s) (fun j => ω ^ (j * 2 ^ d)) z (i % 2 ^ (s + 1)) i) :
    Transformed ω x after (s + 1) d := by
  intro c block j inside
  have cells : 2 ^ (s + 1) = 2 * 2 ^ s := pow_succ' 2 s
  have strides : 2 ^ (d + 1) = 2 * 2 ^ d := pow_succ' 2 d
  have range : c * 2 ^ (s + 1) + j < 2 ^ (s + 1 + d) := by
    calc c * 2 ^ (s + 1) + j < (c + 1) * 2 ^ (s + 1) := by rw [Nat.succ_mul]; omega
      _ ≤ 2 ^ d * 2 ^ (s + 1) := Nat.mul_le_mul_right _ block
      _ = 2 ^ (s + 1 + d) := by rw [← pow_add, Nat.add_comm]
  have even : ∀ j < 2 ^ s, z (c * 2 ^ (s + 1) + j) = spectrum ω x (2 * 2 ^ d) (reversed d c) (2 ^ s) j := by
    intro j low
    have own := before (2 * c) (by omega) j low
    rwa [reversed_even, strides, show 2 * c * 2 ^ s = c * 2 ^ (s + 1) by rw [cells]; ring] at own
  have odd : ∀ j < 2 ^ s, z (c * 2 ^ (s + 1) + j + 2 ^ s) =
      spectrum ω x (2 * 2 ^ d) (reversed d c + 2 ^ d) (2 ^ s) j := by
    intro j low
    have own := before (2 * c + 1) (by omega) j low
    rwa [reversed_odd, strides, show (2 * c + 1) * 2 ^ s + j = c * 2 ^ (s + 1) + j + 2 ^ s by rw [cells]; ring] at own
  have offset : (c * 2 ^ (s + 1) + j) % 2 ^ (s + 1) = j := by
    rw [Nat.mul_comm, Nat.mul_add_mod, Nat.mod_eq_of_lt inside]
  rw [joins _ range, offset, joined]
  split
  · rename_i low
    rw [even j low, odd j low, cells, spectrum_split]
  · rename_i high
    obtain ⟨i, rfl⟩ := Nat.exists_eq_add_of_le' (not_lt.mp high)
    have low : i < 2 ^ s := by omega
    rw [← Nat.add_assoc, Nat.add_sub_cancel, Nat.add_sub_cancel, even i low, odd i low, cells, spectrum_upper x half]

/-- After the last stage there is one block. -/
theorem transformed_end {k : Nat} (all : Transformed ω x z k 0) {j : Nat} (inside : j < 2 ^ k) :
    z j = spectrum ω x 1 0 (2 ^ k) j := by
  have own := all 0 Nat.one_pos j inside
  rwa [Nat.zero_mul, Nat.zero_add, pow_zero, show reversed 0 0 = 0 from rfl] at own

end Stages

section Inverse
variable {K : Type} [Field K] {ω : K} {n : Nat} (root : IsPrimitiveRoot ω n)
include root

/-- The powers of two indices are orthogonal. -/
theorem root_orthogonal {t u : Nat} (first : t < n) (second : u < n) :
    ∑ j ∈ range n, ω⁻¹ ^ (t * j) * ω ^ (j * u) = if u = t then (n : K) else 0 := by
  have nonzero : ω ≠ 0 := root.ne_zero (by omega)
  have ratio : ∀ j, ω⁻¹ ^ (t * j) * ω ^ (j * u) = (ω⁻¹ ^ t * ω ^ u) ^ j := by
    intro j
    rw [mul_pow, ← pow_mul, ← pow_mul, Nat.mul_comm j u]
  simp only [ratio]
  split
  · rename_i same
    have one : ω⁻¹ ^ t * ω ^ u = 1 := by rw [same, ← mul_pow, inv_mul_cancel₀ nonzero, one_pow]
    simp only [one, one_pow, sum_const, card_range, nsmul_eq_mul, mul_one]
  · rename_i other
    have unlike : ω⁻¹ ^ t * ω ^ u ≠ 1 := by
      intro one
      refine other (root.pow_inj second first ?_)
      rw [inv_pow, inv_mul_eq_one₀ (pow_ne_zero t nonzero)] at one
      exact one.symm
    have closed : (ω⁻¹ ^ t * ω ^ u) ^ n = 1 := by
      rw [mul_pow, ← pow_mul, ← pow_mul, Nat.mul_comm t, Nat.mul_comm u, pow_mul, pow_mul, inv_pow, root.pow_eq_one,
        inv_one, one_pow, one_pow, one_mul]
    rw [geom_sum_eq unlike, closed, sub_self, zero_div]

/-- The transform with the inverse root gives every value back, n times. -/
theorem spectrum_inverse (x : Nat → K) {t : Nat} (inside : t < n) :
    spectrum ω⁻¹ (spectrum ω x 1 0 n) 1 0 n t = n * x t := by
  simp only [spectrum, Nat.one_mul, Nat.zero_add, mul_sum]
  rw [sum_comm]
  have terms : ∀ u ∈ range n, ∑ j ∈ range n, ω⁻¹ ^ (t * j) * (ω ^ (j * u) * x u) = if u = t then n * x u else 0 := by
    intro u member
    rw [mem_range] at member
    simp only [← mul_assoc, ← sum_mul, root_orthogonal root inside member, ite_mul, zero_mul]
  rw [sum_congr rfl terms, sum_ite_eq', if_pos (mem_range.mpr inside)]

end Inverse

end Fourier
