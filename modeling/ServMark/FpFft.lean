import Mathlib.RingTheory.RootsOfUnity.Complex
import ServMark.BitRev
import ServMark.Library.Fourier
import ServMark.Library.Loops

/-! The transform of fp_fft.c, in exact arithmetic. The int len is computed as it is met: doubled past
the largest int it ends the run without a result. All other ints of fft_radix2 lie between 0 and n. -/
namespace ServMark
open Fourier

section Loops
variable {α : Type} [CommRing α] (n len : Nat) (cosT sinT : Nat → α)

/-- The body of the inner loop. -/
def fftButterfly (i j : Nat) (s : Samples α) : Samples α :=
  let half := len >>> 1
  let wr := cosT (j * (n / len))
  let wi := sinT (j * (n / len))
  let tr := s.real (i + j + half) * wr - s.imag (i + j + half) * wi
  let ti := s.real (i + j + half) * wi + s.imag (i + j + half) * wr
  let real := Function.update s.real (i + j + half) (s.real (i + j) - tr)
  let imag := Function.update s.imag (i + j + half) (s.imag (i + j) - ti)
  ⟨Function.update real (i + j) (real (i + j) + tr), Function.update imag (i + j) (imag (i + j) + ti)⟩

/-- The loop over j, its first turns. -/
def fftBlock (turns i : Nat) (s : Samples α) : Samples α :=
  (List.range turns).foldl (fun s j => fftButterfly n len cosT sinT i j s) s

/-- The loop over i. -/
def fftBlocks (positive : 0 < len) (i : Nat) (s : Samples α) : Samples α :=
  if i < n then fftBlocks positive (i + len) (fftBlock n len cosT sinT (len >>> 1) i s) else s
termination_by n - i

/-- The loop over len. -/
def fftStages (len : Nat) (positive : 0 < len) (s : Samples α) : Option (Samples α) :=
  if len ≤ n then
    intValue (len <<< 1)
      (fftStages (len <<< 1) (by rw [Nat.shiftLeft_eq]; omega) (fftBlocks n len cosT sinT positive 0 s))
  else some s
termination_by n + 1 - len
decreasing_by
  rw [Nat.shiftLeft_eq]
  omega

def fftRadix2 (rev : Nat → Nat) (s : Samples α) : Option (Samples α) :=
  fftStages n cosT sinT 2 Nat.two_pos (swapLoop rev n s)

end Loops

/-- The values of a pair of C arrays. -/
def Samples.cell (s : Samples ℝ) (i : Nat) : ℂ := ⟨s.real i, s.imag i⟩

section Butterflies
variable {n half : Nat} {cosT sinT : Nat → ℝ}

/-- The factor of the butterfly j, from the two tables. -/
def factor (n len : Nat) (cosT sinT : Nat → ℝ) (j : Nat) : ℂ := ⟨cosT (j * (n / len)), sinT (j * (n / len))⟩

theorem half_shift (half : Nat) : (2 * half) >>> 1 = half := by
  rw [Nat.shiftRight_eq_div_pow, pow_one, Nat.mul_div_cancel_left half Nat.two_pos]

theorem fftButterfly_cell (some_ : 0 < half) (i j x : Nat) (s : Samples ℝ) :
    (fftButterfly n (2 * half) cosT sinT i j s).cell x =
      if x = i + j then s.cell x + factor n (2 * half) cosT sinT j * s.cell (x + half)
      else if x = i + j + half then s.cell (x - half) - factor n (2 * half) cosT sinT j * s.cell x
      else s.cell x := by
  have apart : i + j ≠ i + j + half := by omega
  rcases eq_or_ne x (i + j) with rfl | upper
  · rw [if_pos rfl]
    apply Complex.ext
    · simp only [fftButterfly, half_shift, Samples.cell, factor, Function.update_apply, if_true, if_neg apart,
        Complex.add_re, Complex.mul_re]
      ring
    · simp only [fftButterfly, half_shift, Samples.cell, factor, Function.update_apply, if_true, if_neg apart,
        Complex.add_im, Complex.mul_im]
      ring
  · rw [if_neg upper]
    rcases eq_or_ne x (i + j + half) with rfl | other
    · rw [if_pos rfl, Nat.add_sub_cancel]
      apply Complex.ext
      · simp only [fftButterfly, half_shift, Samples.cell, factor, Function.update_apply, if_true, if_neg upper,
          Complex.sub_re, Complex.mul_re]
        ring
      · simp only [fftButterfly, half_shift, Samples.cell, factor, Function.update_apply, if_true, if_neg upper,
          Complex.sub_im, Complex.mul_im]
        ring
    · rw [if_neg other]
      simp only [fftButterfly, half_shift, Samples.cell, Function.update_apply, if_neg upper, if_neg other]

/-- The cells that the first turns of the loop over j have met, each with its partner. -/
theorem fftBlock_turns {turns : Nat} (range : turns ≤ half) (i x : Nat) (s : Samples ℝ) :
    (fftBlock n (2 * half) cosT sinT turns i s).cell x =
      if i ≤ x ∧ x < i + turns ∨ i + half ≤ x ∧ x < i + half + turns then
        joined half (factor n (2 * half) cosT sinT) s.cell (x - i) x
      else s.cell x := by
  induction turns generalizing x with
  | zero =>
    rw [if_neg (by omega)]
    rfl
  | succ turns ih =>
    have last : fftBlock n (2 * half) cosT sinT (turns + 1) i s =
        fftButterfly n (2 * half) cosT sinT i turns (fftBlock n (2 * half) cosT sinT turns i s) := by
      simp [fftBlock, List.range_succ]
    have unmet : ∀ x, x = i + turns ∨ x = i + turns + half →
        (fftBlock n (2 * half) cosT sinT turns i s).cell x = s.cell x := by
      intro x own
      rw [ih (by omega), if_neg (by omega)]
    rw [last, fftButterfly_cell (by omega)]
    split
    · rename_i lower
      rw [unmet x (Or.inl lower), unmet (x + half) (Or.inr (by omega)), if_pos (by omega), joined, if_pos (by omega),
        show x - i = turns by omega]
    · split
      · rename_i upper
        rw [unmet x (Or.inr upper), unmet (x - half) (Or.inl (by omega)), if_pos (by omega), joined, if_neg (by omega),
          show x - i - half = turns by omega]
      · rw [ih (by omega)]
        exact if_congr (by omega) rfl rfl

/-- The loop over i joins the two halves of every block from here on. -/
theorem fftBlocks_cell (some_ : 0 < half) {i : Nat} (aligned : 2 * half ∣ n - i) (x : Nat) (s : Samples ℝ) :
    (fftBlocks n (2 * half) cosT sinT (Nat.mul_pos Nat.two_pos some_) i s).cell x =
      if i ≤ x ∧ x < n then joined half (factor n (2 * half) cosT sinT) s.cell ((x - i) % (2 * half)) x
      else s.cell x := by
  fun_induction fftBlocks n (2 * half) cosT sinT (Nat.mul_pos Nat.two_pos some_) i s with
  | case1 i s more ih =>
    have room := Nat.le_of_dvd (by omega) aligned
    have block : ∀ x, (fftBlock n (2 * half) cosT sinT half i s).cell x = _ := fun x => fftBlock_turns le_rfl i x s
    rw [ih (by rw [Nat.sub_add_eq]; exact Nat.dvd_sub aligned (dvd_refl _)), half_shift]
    split
    · rename_i later
      have offset : (x - i) % (2 * half) = (x - (i + 2 * half)) % (2 * half) := by
        rw [show x - i = x - (i + 2 * half) + 2 * half by omega, Nat.add_mod_right]
      have small := Nat.mod_le (x - (i + 2 * half)) (2 * half)
      rw [if_pos (by omega), offset]
      refine joined_congr (Nat.mod_lt _ (by omega)) (fun j _ => rfl) ?_ (fun _ => ?_) (fun _ => ?_)
      · rw [block, if_neg (by omega)]
      · rw [block, if_neg (by omega)]
      · rw [block, if_neg (by omega)]
    · rename_i earlier
      rw [block]
      rcases lt_or_ge (x - i) (2 * half) with inside | outside
      · rw [Nat.mod_eq_of_lt inside]
        exact if_congr (by omega) rfl rfl
      · rw [if_neg (by omega), if_neg (by omega)]
  | case2 i s done => rw [if_neg (by omega)]

end Butterflies

section Stages
variable {k : Nat} {cosT sinT : Nat → ℝ} {ω : ℂ} {x : Nat → ℂ}

/-- The stage of this length joins the sums of the stage before. -/
theorem fftBlocks_transformed (table : ∀ i < 2 ^ k, (⟨cosT i, sinT i⟩ : ℂ) = ω ^ i) {s d : Nat} (width : s + 1 + d = k)
    (turn : ω ^ (2 ^ d * 2 ^ s) = -1) {z : Samples ℝ} (before : Transformed ω x z.cell s (d + 1)) :
    Transformed ω x
      (fftBlocks (2 ^ k) (2 * 2 ^ s) cosT sinT (Nat.mul_pos Nat.two_pos (Nat.two_pow_pos s)) 0 z).cell (s + 1) d := by
  have length : 2 ^ (s + 1) = 2 * 2 ^ s := pow_succ' 2 s
  have whole : 2 ^ k = 2 ^ d * (2 * 2 ^ s) := by rw [← width, pow_add, length, Nat.mul_comm]
  have stride : 2 ^ k / (2 * 2 ^ s) = 2 ^ d := by rw [whole, Nat.mul_div_cancel _ (by positivity)]
  have factors : ∀ j < 2 ^ s, factor (2 ^ k) (2 * 2 ^ s) cosT sinT j = ω ^ (j * 2 ^ d) := by
    intro j inside
    have small : j * 2 ^ d < 2 ^ k := by
      calc j * 2 ^ d < 2 ^ s * 2 ^ d := Nat.mul_lt_mul_of_pos_right inside (Nat.two_pow_pos d)
        _ ≤ 2 * 2 ^ s * 2 ^ d := Nat.mul_le_mul_right _ (by omega)
        _ = 2 ^ k := by rw [whole, Nat.mul_comm]
    rw [factor, stride, table _ small]
  refine transformed_stage turn before fun i inside => ?_
  have aligned : 2 * 2 ^ s ∣ 2 ^ k - 0 := by rw [Nat.sub_zero, whole]; exact Nat.dvd_mul_left _ _
  rw [width] at inside
  rw [fftBlocks_cell (Nat.two_pow_pos s) aligned, if_pos ⟨Nat.zero_le i, inside⟩, Nat.sub_zero, length]
  exact joined_congr (Nat.mod_lt _ (by positivity)) factors rfl (fun _ => rfl) (fun _ => rfl)

/-- Before the last stage there is a next one, of twice the length. -/
theorem stage_length {s d len : Nat} (width : s + d + 1 = k) (length : len = 2 * 2 ^ s) :
    len ≤ 2 ^ k ∧ len <<< 1 = 2 * 2 ^ (s + 1) := by
  constructor
  · rw [length, ← pow_succ']
    exact Nat.pow_le_pow_right Nat.two_pos (by omega)
  · rw [Nat.shiftLeft_eq, length]
    ring

/-- From any stage on the loop runs to the end, if the int len does, and leaves the whole transform. -/
theorem fftStages_transformed (table : ∀ i < 2 ^ k, (⟨cosT i, sinT i⟩ : ℂ) = ω ^ i)
    (turn : ∀ m, m + 1 = k → ω ^ 2 ^ m = -1) (fits : 2 * 2 ^ k ≤ intMax) {s d : Nat} (width : s + d = k)
    {z : Samples ℝ} (before : Transformed ω x z.cell s d) {len : Nat} (positive : 0 < len) (length : len = 2 * 2 ^ s) :
    ∃ y, fftStages (2 ^ k) cosT sinT len positive z = some y ∧ Transformed ω x y.cell k 0 := by
  induction d generalizing s z len with
  | zero =>
    have large : ¬ len ≤ 2 ^ k := by
      rw [length, ← width, Nat.add_zero]
      have := Nat.two_pow_pos s
      omega
    refine ⟨z, ?_, ?_⟩
    · rw [fftStages, if_neg large]
    · rwa [← width]
  | succ d ih =>
    obtain ⟨more, next⟩ := stage_length width length
    have doubled : len <<< 1 ≤ intMax := by
      rw [Nat.shiftLeft_eq]
      omega
    rw [fftStages, if_pos more, intValue_fits doubled]
    subst length
    refine ih (by omega) ?_ _ next
    exact fftBlocks_transformed table (by omega) (by rw [← pow_add]; exact turn _ (by omega)) before

/-- A length that no int can double ends the loop. -/
theorem fftStages_overflow (large : intMax < 2 * 2 ^ k) {s d : Nat} (width : s + d + 1 = k) (z : Samples ℝ) {len : Nat}
    (positive : 0 < len) (length : len = 2 * 2 ^ s) : fftStages (2 ^ k) cosT sinT len positive z = none := by
  obtain ⟨more, next⟩ := stage_length width length
  rw [fftStages, if_pos more]
  induction d generalizing s z len with
  | zero =>
    have last : 2 * 2 ^ s = 2 ^ k := by rw [← width, Nat.add_zero, pow_succ']
    exact intValue_overflow (by omega) _
  | succ d ih =>
    obtain ⟨later, after⟩ := stage_length (show s + 1 + d + 1 = k by omega) next
    rw [fftStages, if_pos later, ih (by omega) _ _ next later after, intValue, ite_self]

end Stages

section Transforms
variable {k : Nat}

/-- The table of cosines, up to n. -/
noncomputable def twiddleCos (n i : Nat) : ℝ := Real.cos (-(2 : Nat) * Real.pi * i / n)

/-- The table of sines, up to n. -/
noncomputable def twiddleSin (n i : Nat) : ℝ := Real.sin (-(2 : Nat) * Real.pi * i / n)

/-- Every entry of a table negated. -/
def negateLoop (n : Nat) (cells : Nat → ℝ) : Nat → ℝ :=
  (List.range n).foldl (fun cells i => Function.update cells i (-cells i)) cells

/-- The values divided by their number. -/
noncomputable def scaleLoop (n : Nat) (s : Samples ℝ) : Samples ℝ :=
  (List.range n).foldl
    (fun s i => ⟨Function.update s.real i (s.real i / n), Function.update s.imag i (s.imag i / n)⟩) s

/-- The two calls of fp_fft_measure, the second with the negated sines, and the division. -/
noncomputable def fftRoundTrip (n : Nat) (cosT sinT : Nat → ℝ) (rev : Nat → Nat) (s : Samples ℝ) : Option (Samples ℝ) :=
  (fftRadix2 n cosT sinT rev s).bind (fun s => (fftRadix2 n cosT (negateLoop n sinT) rev s).map (scaleLoop n))

theorem scaleLoop_cell (n : Nat) (s : Samples ℝ) {i : Nat} (inside : i < n) :
    (scaleLoop n s).cell i = s.cell i / n := by
  have real : (scaleLoop n s).real =
      (List.range n).foldl (fun (cells : Nat → ℝ) i => Function.update cells i (cells i / n)) s.real :=
    (List.foldl_hom Samples.real (fun _ _ => rfl)).symm
  have imag : (scaleLoop n s).imag =
      (List.range n).foldl (fun (cells : Nat → ℝ) i => Function.update cells i (cells i / n)) s.imag :=
    (List.foldl_hom Samples.imag (fun _ _ => rfl)).symm
  have replaced := fun cells : Nat → ℝ => Loops.foldl_cells (fun _ value => value / (n : ℝ)) n cells i
  rw [Samples.cell, real, imag, replaced, replaced, if_pos inside, if_pos inside]
  apply Complex.ext
  · rw [Complex.div_natCast_re]
    rfl
  · rw [Complex.div_natCast_im]
    rfl

theorem cos_sin (angle : ℝ) : (⟨Real.cos angle, Real.sin angle⟩ : ℂ) = Complex.exp (angle * Complex.I) := by
  apply Complex.ext
  · exact (Complex.exp_ofReal_mul_I_re angle).symm
  · exact (Complex.exp_ofReal_mul_I_im angle).symm

/-- The tables hold the powers of the inverse root. -/
theorem twiddle_power (n i : Nat) :
    (⟨twiddleCos n i, twiddleSin n i⟩ : ℂ) = (Complex.exp (2 * Real.pi * Complex.I / n))⁻¹ ^ i := by
  rw [twiddleCos, twiddleSin, cos_sin, ← Complex.exp_neg, ← Complex.exp_nat_mul]
  push_cast
  ring_nf

/-- With the sines negated they hold those of the root. -/
theorem twiddle_negated {n i : Nat} (inside : i < n) :
    (⟨twiddleCos n i, negateLoop n (twiddleSin n) i⟩ : ℂ) = Complex.exp (2 * Real.pi * Complex.I / n) ^ i := by
  rw [negateLoop, Loops.foldl_cells (fun _ value => -value), if_pos inside, twiddleCos, twiddleSin, ← Real.cos_neg,
    ← Real.sin_neg, cos_sin, ← Complex.exp_nat_mul]
  push_cast
  ring_nf

/-- Half a turn. -/
theorem root_turn {ω : ℂ} (root : IsPrimitiveRoot ω (2 ^ k)) {m : Nat} (half : m + 1 = k) : ω ^ 2 ^ m = -1 := by
  have square : IsPrimitiveRoot (ω ^ 2 ^ m) 2 := root.pow (Nat.two_pow_pos k) (by rw [← half, pow_succ])
  exact square.eq_neg_one_of_two_right

/-- A call with the powers of a root in its tables. -/
theorem fftRadix2_spectrum {cosT sinT : Nat → ℝ} {ω : ℂ} (root : IsPrimitiveRoot ω (2 ^ k))
    (table : ∀ i < 2 ^ k, (⟨cosT i, sinT i⟩ : ℂ) = ω ^ i) (fits : 2 * 2 ^ k ≤ intMax) (s : Samples ℝ) :
    ∃ y, fftRadix2 (2 ^ k) cosT sinT (bitRev (2 ^ k)) s = some y ∧
      ∀ j < 2 ^ k, y.cell j = spectrum ω s.cell 1 0 (2 ^ k) j := by
  have start : Transformed ω s.cell (swapLoop (bitRev (2 ^ k)) (2 ^ k) s).cell 0 k := by
    refine transformed_start fun i inside => ?_
    obtain ⟨real, imag⟩ := swapLoop_cells inside s
    rw [Samples.cell, real, imag, Samples.cell]
  obtain ⟨y, runs, all⟩ := fftStages_transformed table (fun m half => root_turn root half) fits (Nat.zero_add k) start
    Nat.two_pos rfl
  exact ⟨y, runs, fun j inside => transformed_end all inside⟩

/-- A call for a power of two that no int doubles has no result. -/
theorem fftRadix2_overflow (cosT sinT : Nat → ℝ) (rev : Nat → Nat) (large : intMax < 2 * 2 ^ k) (s : Samples ℝ) :
    fftRadix2 (2 ^ k) cosT sinT rev s = none := by
  have some_ : k ≠ 0 := by
    rintro rfl
    exact absurd large (by decide)
  obtain ⟨d, rfl⟩ := Nat.exists_eq_succ_of_ne_zero some_
  exact fftStages_overflow (d := d) (s := 0) large (by omega) _ Nat.two_pos rfl

/-- A call with these tables leaves the discrete Fourier transform. -/
def Transforms (n : Nat) (x : Samples ℝ) : Prop :=
  ∃ y, fftRadix2 n (twiddleCos n) (twiddleSin n) (bitRev n) x = some y ∧
    ∀ k < n, y.cell k =
      ∑ t ∈ Finset.range n, x.cell t * Complex.exp (-(2 : Nat) * Real.pi * Complex.I * k * t / n)

/-- The second call and the division undo the first. -/
def Restores (n : Nat) (x : Samples ℝ) : Prop :=
  ∃ y, fftRoundTrip n (twiddleCos n) (twiddleSin n) (bitRev n) x = some y ∧ ∀ i < n, y.cell i = x.cell i

theorem spectrum_exp (n : Nat) (x : Nat → ℂ) (k : Nat) :
    spectrum (Complex.exp (2 * Real.pi * Complex.I / n))⁻¹ x 1 0 n k =
      ∑ t ∈ Finset.range n, x t * Complex.exp (-(2 : Nat) * Real.pi * Complex.I * k * t / n) := by
  refine Finset.sum_congr rfl fun t _ => ?_
  rw [← Complex.exp_neg, ← Complex.exp_nat_mul, Nat.one_mul, Nat.zero_add, Nat.one_mul, mul_comm]
  push_cast
  ring_nf

theorem transforms_fit (fits : 2 * 2 ^ k ≤ intMax) (x : Samples ℝ) : Transforms (2 ^ k) x := by
  have root := Complex.isPrimitiveRoot_exp (2 ^ k) (NeZero.ne _)
  obtain ⟨y, runs, cells⟩ := fftRadix2_spectrum root.inv (fun i _ => twiddle_power (2 ^ k) i) fits x
  exact ⟨y, runs, fun j inside => (cells j inside).trans (spectrum_exp (2 ^ k) x.cell j)⟩

theorem restores_fit (fits : 2 * 2 ^ k ≤ intMax) (x : Samples ℝ) : Restores (2 ^ k) x := by
  have root := Complex.isPrimitiveRoot_exp (2 ^ k) (NeZero.ne _)
  obtain ⟨y, forward, there⟩ := fftRadix2_spectrum root.inv (fun i _ => twiddle_power (2 ^ k) i) fits x
  obtain ⟨z, backward, back⟩ := fftRadix2_spectrum root (fun i inside => twiddle_negated inside) fits y
  refine ⟨scaleLoop (2 ^ k) z, ?_, fun i inside => ?_⟩
  · rw [fftRoundTrip, forward, Option.bind_some, backward, Option.map_some]
  · have inverse := spectrum_inverse root.inv x.cell inside
    have values : z.cell i = (2 ^ k : Nat) * x.cell i := by
      rw [back i inside, ← inverse, inv_inv]
      refine spectrum_congr _ (fun t below => ?_) i
      rw [Nat.one_mul, Nat.zero_add, there t below]
    rw [scaleLoop_cell _ _ inside, values, mul_div_cancel_left₀ _ (Nat.cast_ne_zero.mpr (NeZero.ne _))]

/-- The transform and its inverse are right for every power of two that an int can double. -/
theorem fft_transforms_iff (k : Nat) (x : Samples ℝ) :
    Transforms (2 ^ k) x ∧ Restores (2 ^ k) x ↔ 2 * 2 ^ k ≤ intMax := by
  refine ⟨fun ⟨⟨y, runs, _⟩, _⟩ => not_lt.mp fun large => ?_, fun fits => ⟨transforms_fit fits x, restores_fit fits x⟩⟩
  rw [fftRadix2_overflow _ _ _ large] at runs
  cases runs

/- 2 ^ 30 values: after the last stage len <<= 1 has no int to give. -/
theorem fft_largest_fails : 2 ^ 30 ≤ intMax ∧ ¬ Transforms (2 ^ 30) ⟨fun _ => 0, fun _ => 0⟩ := by
  refine ⟨by decide, fun ⟨y, runs, _⟩ => ?_⟩
  rw [fftRadix2_overflow _ _ _ (by decide)] at runs
  cases runs

end Transforms

section Measure
variable {k : Nat}

/-- The fields of fp_fft_state_t that fp_fft_measure uses. -/
structure FftState where
  real : Nat → ℝ
  twiddleCos : Nat → ℝ
  twiddleSin : Nat → ℝ
  bitRev : Nat → Nat
  work : Samples ℝ

/-- The state afterwards, and the sum of the deviations. -/
noncomputable def fpFftMeasure (n : Nat) (s : FftState) : Option (FftState × ℝ) :=
  let work : Samples ℝ := ⟨fun i => if i < n then s.real i else s.work.real i,
    fun i => if i < n then 0 else s.work.imag i⟩
  (fftRoundTrip n s.twiddleCos s.twiddleSin s.bitRev work).map (fun work =>
    ({ s with work := work, twiddleSin := negateLoop n (negateLoop n s.twiddleSin) },
      (List.range n).foldl (fun sink i => sink + |work.real i - s.real i|) 0))

/-- The tables of fp_fft_init. -/
structure FftState.Initialised (n : Nat) (s : FftState) : Prop where
  cos : s.twiddleCos = ServMark.twiddleCos n
  sin : s.twiddleSin = ServMark.twiddleSin n
  rev : s.bitRev = ServMark.bitRev n

theorem negateLoop_twice (n : Nat) (cells : Nat → ℝ) : negateLoop n (negateLoop n cells) = cells := by
  funext i
  rw [negateLoop, negateLoop, Loops.foldl_cells (fun _ value => -value), Loops.foldl_cells (fun _ value => -value)]
  split
  · exact neg_neg (cells i)
  · rfl

/-- A measurement finds no deviation, and leaves the tables for the next one. -/
theorem fpFftMeasure_verifies (fits : 2 * 2 ^ k ≤ intMax) {s : FftState} (tables : s.Initialised (2 ^ k)) :
    ∃ t, fpFftMeasure (2 ^ k) s = some (t, 0) ∧ t.Initialised (2 ^ k) ∧ t.real = s.real := by
  let work : Samples ℝ := ⟨fun i => if i < 2 ^ k then s.real i else s.work.real i,
    fun i => if i < 2 ^ k then 0 else s.work.imag i⟩
  obtain ⟨y, runs, cells⟩ := restores_fit fits work
  rw [← tables.cos, ← tables.sin, ← tables.rev] at runs
  have exact : ∀ i ∈ List.range (2 ^ k), |y.real i - s.real i| = 0 := by
    intro i member
    have inside := List.mem_range.mp member
    have same : y.real i = work.real i := congrArg Complex.re (cells i inside)
    rw [same, abs_eq_zero, sub_eq_zero]
    exact if_pos inside
  have sink : (List.range (2 ^ k)).foldl (fun sink i => sink + |y.real i - s.real i|) 0 = 0 := by
    rw [← List.foldl_map, ← List.sum_eq_foldl]
    exact List.sum_eq_zero (by simpa using exact)
  refine ⟨{ s with work := y, twiddleSin := negateLoop (2 ^ k) (negateLoop (2 ^ k) s.twiddleSin) }, ?_,
    ⟨tables.cos, ?_, tables.rev⟩, rfl⟩
  · rw [fpFftMeasure, runs, Option.map_some, sink]
  · exact (negateLoop_twice _ _).trans tables.sin

end Measure

end ServMark
