import ServMark.Library.Loops
import ServMark.Types

/-! The loops of fp_gemm.c, fp_conv.c and fp_distance.c over arrays of any numbers. Where the order of
additions matters nothing is assumed of the operations, so that it holds of rounded ones too. -/
namespace ServMark
open Loops

/- fp_gemm.c. -/

def gemmN : Nat := 512

section Gemm
variable {α : Type} [Add α] [Mul α]

/-- C[i * N + j] += aik * B[k * N + j] for each j. -/
def gemmRow (n : Nat) (b : Nat → α) (i k : Nat) (aik : α) (c : Nat → α) : Nat → α :=
  (List.range n).foldl
    (fun c j => Function.update c (i * n + j) (c (i * n + j) + aik * b (k * n + j))) c

/-- The three loops, with k in the middle. -/
def gemmLoops (n : Nat) (a b c : Nat → α) : Nat → α :=
  (List.range n).foldl (fun c i => (List.range n).foldl (fun c k => gemmRow n b i k (a (i * n + k)) c) c) c

/-- The arrays after fp_gemm_measure, which clears C first. -/
def fpGemmMeasure [Zero α] (a b c : Nat → α) : Nat → α :=
  gemmLoops gemmN a b (fun p => if p < gemmN * gemmN then 0 else c p)

/-- One cell as the textbook computes it, alone and with k innermost. -/
def dotProduct [Zero α] (n : Nat) (a b : Nat → α) (i j : Nat) : α :=
  (List.range n).foldl (fun acc k => acc + a (i * n + k) * b (k * n + j)) 0

/-- Each cell passes through the loops by itself. -/
theorem gemmLoops_cell {n : Nat} (a b c : Nat → α) (p : Nat) : gemmLoops n a b c p =
    if p < n * n then (List.range n).foldl (fun acc k => acc + a (p / n * n + k) * b (k * n + p % n)) (c p)
    else c p := by
  refine foldl_rows (fun i j value => (List.range n).foldl (fun acc k => acc + a (i * n + k) * b (k * n + j)) value)
    (fun cells i q => ?_) n c p
  have each := foldl_pointwise (fun k q acc => if i * n ≤ q ∧ q < i * n + n then
    acc + a (i * n + k) * b (k * n + (q - i * n)) else acc)
    (fun cells k q => foldl_block (fun j acc => acc + a (i * n + k) * b (k * n + j)) (i * n) n cells q)
    (List.range n) cells q
  refine each.trans ?_
  by_cases row : i * n ≤ q ∧ q < i * n + n
  · simp only [row, and_self, if_true]
  · simp only [row, if_false, List.foldl_fixed]

theorem gemmLoops_plain [Zero α] {n : Nat} {a b c : Nat → α} {i j : Nat} (row : i < n) (column : j < n)
    (clear : c (i * n + j) = 0) : gemmLoops n a b c (i * n + j) = dotProduct n a b i j := by
  have positive : 0 < n := Nat.zero_lt_of_lt row
  have inside : i * n + j < n * n := by
    have rows := Nat.mul_le_mul_right n row
    rw [Nat.succ_mul] at rows
    omega
  have quotient : (i * n + j) / n = i := by
    rw [Nat.mul_comm, Nat.mul_add_div positive, Nat.div_eq_of_lt column, Nat.add_zero]
  have remainder : (i * n + j) % n = j := by rw [Nat.mul_comm, Nat.mul_add_mod, Nat.mod_eq_of_lt column]
  rw [gemmLoops_cell, if_pos inside, quotient, remainder, clear, dotProduct]

end Gemm

/-- A square array by rows. -/
def gemmMatrix {α : Type} (a : Nat → α) : Matrix (Fin gemmN) (Fin gemmN) α := fun i j => a (i * gemmN + j)

/-- A loop that adds up, from any start. -/
theorem foldl_add_sum {α : Type} [AddCommMonoid α] (start : α) (f : Nat → α) (n : Nat) :
    (List.range n).foldl (fun acc k => acc + f k) start = start + ∑ k : Fin n, f k := by
  induction n with
  | zero => exact (add_zero start).symm
  | succ n ih =>
    rw [List.range_succ, List.foldl_append, ih, Fin.sum_univ_castSucc, ← add_assoc]
    rfl

theorem foldl_zero_sum {α : Type} [AddCommMonoid α] (f : Nat → α) (n : Nat) :
    (List.range n).foldl (fun acc k => acc + f k) 0 = ∑ k : Fin n, f k :=
  (foldl_add_sum 0 f n).trans (zero_add _)

/-- With any addition and multiplication, rounded ones too, every cell is what the textbook loop for it alone
computes, whatever C held, and nothing behind the matrix is changed. Where the operations are those of a semiring it
is the product of the matrices. -/
theorem gemm_product :
    (∀ {α : Type} [Add α] [Mul α] [Zero α] (a b c : Nat → α),
      (∀ i j, i < gemmN → j < gemmN → fpGemmMeasure a b c (i * gemmN + j) = dotProduct gemmN a b i j) ∧
      ∀ p, gemmN * gemmN ≤ p → fpGemmMeasure a b c p = c p) ∧
    ∀ {α : Type} [NonUnitalNonAssocSemiring α] (a b c : Nat → α),
      gemmMatrix (fpGemmMeasure a b c) = gemmMatrix a * gemmMatrix b := by
  have plain {α : Type} [Add α] [Mul α] [Zero α] (a b c : Nat → α) {i j : Nat} (row : i < gemmN) (column : j < gemmN) :
      fpGemmMeasure a b c (i * gemmN + j) = dotProduct gemmN a b i j := by
    refine gemmLoops_plain row column (if_pos ?_)
    have rows := Nat.mul_le_mul_right gemmN row
    rw [Nat.succ_mul] at rows
    omega
  refine ⟨fun a b c => ⟨fun i j row column => plain a b c row column, fun p outside => ?_⟩, fun a b c => ?_⟩
  · rw [fpGemmMeasure, gemmLoops_cell, if_neg (not_lt.mpr outside), if_neg (not_lt.mpr outside)]
  · ext i j
    rw [Matrix.mul_apply]
    exact (plain a b c i.isLt j.isLt).trans (foldl_zero_sum (fun k => a (i * gemmN + k) * b (k * gemmN + j)) gemmN)

/- fp_conv.c. -/

def convH : Nat := 128
def convW : Nat := 128
def convK : Nat := 3
def convPasses : Nat := 100

def convOh : Nat := convH - convK + 1
def convOw : Nat := convW - convK + 1

section Conv
variable {α : Type} [Add α] [Mul α] [Zero α]

/-- The sum over the window at a point. -/
def convAcc (input kernel : Nat → α) (y x : Nat) : α :=
  (List.range convK).foldl (fun acc ky => (List.range convK).foldl
    (fun acc kx => acc + input ((y + ky) * convW + (x + kx)) * kernel (ky * convK + kx)) acc) 0

def convPass (input kernel output : Nat → α) : Nat → α :=
  (List.range convOh).foldl (fun output y => (List.range convOw).foldl
    (fun output x => Function.update output (y * convOw + x) (convAcc input kernel y x)) output) output

/-- The output after all passes. -/
def convOutput (input kernel output : Nat → α) : Nat → α :=
  (List.range convPasses).foldl (fun output _ => convPass input kernel output) output

theorem convPass_cell (input kernel output : Nat → α) (p : Nat) : convPass input kernel output p =
    if p < convOh * convOw then convAcc input kernel (p / convOw) (p % convOw) else output p :=
  foldl_rows (fun y x _ => convAcc input kernel y x) (fun cells y q =>
    foldl_block (fun x _ => convAcc input kernel y x) (y * convOw) convOw cells q) convOh output p

theorem convOutput_cell (input kernel output : Nat → α) (p : Nat) : convOutput input kernel output p =
    if p < convOh * convOw then convAcc input kernel (p / convOw) (p % convOw) else output p := by
  have passes : ∀ k, (List.range (k + 1)).foldl (fun output _ => convPass input kernel output) output p =
      if p < convOh * convOw then convAcc input kernel (p / convOw) (p % convOw) else output p := by
    intro k
    induction k with
    | zero => rw [Nat.zero_add, List.range_one, List.foldl_cons, List.foldl_nil, convPass_cell]
    | succ k ih =>
      rw [List.range_succ, List.foldl_append, List.foldl_cons, List.foldl_nil, convPass_cell, ih]
      split_ifs <;> rfl
  obtain ⟨k, count⟩ : ∃ k, convPasses = k + 1 := ⟨99, rfl⟩
  rw [convOutput, count]
  exact passes k

end Conv

section Verified
variable {α : Type} [Field α] [LinearOrder α]

/-- fp_conv_measure, with none for the return of -1 behind the check of one element. -/
def fpConvMeasure (input kernel output : Nat → α) : Option (Nat → α) :=
  let output := convOutput input kernel output
  let verify := convAcc input kernel 0 0
  if |output 0 - verify| > ratio 1 1000000 * |verify| then none else some output

/-- Indices of the window stay inside the two arrays. -/
theorem window_inside {y x ky kx : Nat} (row : y < convOh) (column : x < convOw) (ky_lt : ky < convK)
    (kx_lt : kx < convK) : (y + ky) * convW + (x + kx) < convH * convW ∧ ky * convK + kx < convK * convK := by
  have height : convOh = 126 := rfl
  have width : convOw = 126 := rfl
  have size : convK = 3 := rfl
  have across : convW = 128 := rfl
  have down : convH = 128 := rfl
  rw [height] at row
  rw [width] at column
  rw [size] at ky_lt kx_lt ⊢
  rw [across, down]
  constructor <;> omega

omit [LinearOrder α] in
theorem convAcc_sum (input kernel : Nat → α) (y x : Nat) : convAcc input kernel y x =
    ∑ ky : Fin convK, ∑ kx : Fin convK, input ((y + ky) * convW + (x + kx)) * kernel (ky * convK + kx) := by
  unfold convAcc
  simp only [foldl_add_sum, zero_add]

variable [IsStrictOrderedRing α]

/-- The check of fp_conv_measure never fails: it computes one element the way the passes did. The result is the sum
over the window at every point, from the cells of the two arrays alone, and nothing else is changed. -/
theorem conv_verified (input kernel output : Nat → α) : ∃ result, fpConvMeasure input kernel output = some result ∧
    (∀ y x, y < convOh → x < convOw → result (y * convOw + x) =
      ∑ ky : Fin convK, ∑ kx : Fin convK, input ((y + ky) * convW + (x + kx)) * kernel (ky * convK + kx)) ∧
    (∀ p, convOh * convOw ≤ p → result p = output p) ∧
    ∀ input' kernel' : Nat → α, (∀ i < convH * convW, input' i = input i) → (∀ i < convK * convK, kernel' i = kernel i) →
      fpConvMeasure input' kernel' output = some result := by
  have accepted : ∀ input kernel : Nat → α,
      fpConvMeasure input kernel output = some (convOutput input kernel output) := by
    intro input kernel
    have first : convOutput input kernel output 0 = convAcc input kernel 0 0 := by
      have some_ : 0 < convOh * convOw := Nat.mul_pos (by decide) (by decide)
      rw [convOutput_cell, if_pos some_, Nat.zero_div, Nat.zero_mod]
    have tolerance : (0 : α) ≤ ratio 1 1000000 := div_nonneg (Nat.cast_nonneg 1) (Nat.cast_nonneg 1000000)
    have nonneg : 0 ≤ ratio 1 1000000 * |convAcc input kernel 0 0| := mul_nonneg tolerance (abs_nonneg _)
    have passes : ¬ |convOutput input kernel output 0 - convAcc input kernel 0 0| >
        ratio 1 1000000 * |convAcc input kernel 0 0| := by
      rw [first, sub_self, abs_zero]
      exact not_lt.mpr nonneg
    exact if_neg passes
  refine ⟨convOutput input kernel output, accepted input kernel, fun y x row column => ?_, fun p outside => ?_,
    fun input' kernel' same_input same_kernel => ?_⟩
  · have positive : 0 < convOw := by decide
    have inside : y * convOw + x < convOh * convOw := by
      have rows := Nat.mul_le_mul_right convOw row
      rw [Nat.succ_mul] at rows
      omega
    have quotient : (y * convOw + x) / convOw = y := by
      rw [Nat.mul_comm, Nat.mul_add_div positive, Nat.div_eq_of_lt column, Nat.add_zero]
    have remainder : (y * convOw + x) % convOw = x := by rw [Nat.mul_comm, Nat.mul_add_mod, Nat.mod_eq_of_lt column]
    rw [convOutput_cell, if_pos inside, quotient, remainder, convAcc_sum]
  · rw [convOutput_cell, if_neg (not_lt.mpr outside)]
  · rw [accepted]
    refine congrArg some (funext fun p => ?_)
    rw [convOutput_cell, convOutput_cell]
    split_ifs with inside
    · have positive : 0 < convOw := by decide
      have row : p / convOw < convOh := (Nat.div_lt_iff_lt_mul positive).mpr inside
      have column : p % convOw < convOw := Nat.mod_lt p positive
      rw [convAcc_sum, convAcc_sum]
      refine Finset.sum_congr rfl (fun ky _ => Finset.sum_congr rfl (fun kx _ => ?_))
      obtain ⟨image, window⟩ := window_inside row column ky.isLt kx.isLt
      rw [same_input _ image, same_kernel _ window]
    · rfl

end Verified

/-- Nine products of ones at the first point. -/
theorem conv_verified_ones : ∃ result,
    fpConvMeasure (fun _ => (1 : ℚ)) (fun _ => 1) (fun _ => 0) = some result ∧ result 0 = 9 := by
  obtain ⟨result, accepted, cells, _⟩ := conv_verified (fun _ => (1 : ℚ)) (fun _ => 1) (fun _ => 0)
  have first := cells 0 0 (by decide) (by decide)
  rw [Nat.zero_mul, Nat.add_zero] at first
  refine ⟨result, accepted, first.trans ?_⟩
  have window : (Finset.univ : Finset (Fin convK)).card = 3 := rfl
  rw [mul_one, Finset.sum_const, Finset.sum_const, window]
  norm_num

/- fp_distance.c. -/

def vecDim : Nat := 768
def numVectors : Nat := 2000

section Distance
variable {α : Type} [Field α] [Libm α]

/-- 1e-10f -/
def normFloor : α := ratio 1 (10 ^ 10)

def querySqNorm (query : Nat → α) : α := (List.range vecDim).foldl (fun acc d => acc + query d * query d) 0

/-- dp and sq_norm_a behind the loop over one vector. -/
def dotAndNorm (vectors query : Nat → α) (i : Nat) : α × α :=
  (List.range vecDim).foldl (fun acc d =>
    (acc.1 + vectors (i * vecDim + d) * query d,
      acc.2 + vectors (i * vecDim + d) * vectors (i * vecDim + d))) (0, 0)

def cosine (vectors query : Nat → α) (i : Nat) : α :=
  let invQueryNorm := 1 / (Libm.sqrt (querySqNorm query) + normFloor)
  let sums := dotAndNorm vectors query i
  sums.1 * invQueryNorm / (Libm.sqrt sums.2 + normFloor)

/-- What fp_distance_measure leaves in sink. -/
def distanceSink (vectors query : Nat → α) : α :=
  (List.range numVectors).foldl (fun sink i => sink + cosine vectors query i) 0

end Distance

section Cosine
variable (vectors query : Nat → ℝ) (i : Nat)

theorem querySqNorm_sum : querySqNorm query = ∑ d : Fin vecDim, query d ^ 2 := by
  refine (foldl_zero_sum (fun d => query d * query d) vecDim).trans (Finset.sum_congr rfl (fun d _ => ?_))
  exact (sq _).symm

theorem dotAndNorm_sums : dotAndNorm vectors query i =
    (∑ d : Fin vecDim, vectors (i * vecDim + d) * query d, ∑ d : Fin vecDim, vectors (i * vecDim + d) ^ 2) := by
  have pair : ∀ n, (List.range n).foldl (fun acc d => (acc.1 + vectors (i * vecDim + d) * query d,
      acc.2 + vectors (i * vecDim + d) * vectors (i * vecDim + d))) (0, 0) =
        (∑ d : Fin n, vectors (i * vecDim + d) * query d, ∑ d : Fin n, vectors (i * vecDim + d) ^ 2) := by
    intro n
    induction n with
    | zero => rfl
    | succ n ih =>
      rw [List.range_succ, List.foldl_append, ih, Fin.sum_univ_castSucc, Fin.sum_univ_castSucc, List.foldl_cons,
        List.foldl_nil, ← sq]
      rfl
  exact pair vecDim

theorem normFloor_positive : (0 : ℝ) < normFloor := by
  unfold normFloor ratio
  positivity

/-- The dot product of a vector with the query. -/
def vectorDot : ℝ := ∑ d : Fin vecDim, vectors (i * vecDim + d) * query d

/-- The product of the two norms, each above zero by the floor. -/
noncomputable def normProduct : ℝ :=
  (√(∑ d : Fin vecDim, vectors (i * vecDim + d) ^ 2) + normFloor) * (√(∑ d : Fin vecDim, query d ^ 2) + normFloor)

theorem cosine_quotient : cosine vectors query i = vectorDot vectors query i / normProduct vectors query i := by
  unfold cosine
  rw [dotAndNorm_sums, querySqNorm_sum]
  simp only [mul_one_div]
  rw [div_div, mul_comm (_ + _)]
  rfl

theorem dot_below_norms : |vectorDot vectors query i| < normProduct vectors query i := by
  have floor := normFloor_positive
  have schwarz := Finset.sum_mul_sq_le_sq_mul_sq Finset.univ (fun d : Fin vecDim => vectors (i * vecDim + d))
    (fun d => query d)
  have bound := Real.abs_le_sqrt schwarz
  rw [Real.sqrt_mul (Finset.sum_nonneg (fun d _ => sq_nonneg _))] at bound
  refine bound.trans_lt (mul_lt_mul'' ?_ ?_ (Real.sqrt_nonneg _) (Real.sqrt_nonneg _)) <;> exact lt_add_of_pos_right _ floor

end Cosine

/-- Every cosine is strictly between -1 and 1, also for vectors without length, with the sign of the dot product; so
the sum over all vectors is less than their number. -/
theorem cosine_range (vectors query : Nat → ℝ) :
    (∀ i, |cosine vectors query i| < 1 ∧
      SignType.sign (cosine vectors query i) = SignType.sign (vectorDot vectors query i)) ∧
    |distanceSink vectors query| < numVectors := by
  have range : ∀ i, |cosine vectors query i| < 1 := by
    intro i
    have below := dot_below_norms vectors query i
    have positive : 0 < normProduct vectors query i := (abs_nonneg _).trans_lt below
    rwa [cosine_quotient, abs_div, abs_of_pos positive, div_lt_one positive]
  refine ⟨fun i => ⟨range i, ?_⟩, ?_⟩
  · have positive : 0 < normProduct vectors query i := (abs_nonneg _).trans_lt (dot_below_norms vectors query i)
    rw [cosine_quotient, div_eq_mul_inv, sign_mul, sign_pos (inv_pos.mpr positive), mul_one]
  · have total : distanceSink vectors query = ∑ i : Fin numVectors, cosine vectors query i :=
      foldl_zero_sum (fun i => cosine vectors query i) numVectors
    rw [total]
    have some_ : (Finset.univ : Finset (Fin numVectors)).Nonempty := ⟨⟨0, by decide⟩, Finset.mem_univ _⟩
    have each := Finset.sum_lt_sum_of_nonempty some_ (fun (i : Fin numVectors) _ => range i)
    rw [Finset.sum_const, Finset.card_univ, Fintype.card_fin, nsmul_eq_mul, mul_one] at each
    exact (Finset.abs_sum_le_sum_abs _ _).trans_lt each

end ServMark
