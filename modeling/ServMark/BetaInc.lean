import ServMark.StudentT
import ServMark.Library.Beta
import ServMark.Library.Chain
import ServMark.Library.Special

/-! The incomplete beta function of stats.c against the integral. With b up to 1 the coefficients of its
fraction are those of a chain, so that the rounds compute the value of a continued fraction; what is made
of the value at the end is not the integral. -/
namespace ServMark

section Fraction

noncomputable def evenTerm (a : ℝ) (m : Nat) : ℝ := m / (a + (2 * m : Nat))

noncomputable def oddTerm (a b : ℝ) (m : Nat) : ℝ := (a + b + m) / (a + (2 * m : Nat) + 1)

/-- The terms of so many rounds from m on. -/
noncomputable def roundTerms (a b : ℝ) : Nat → Nat → List ℝ
  | 0, _ => []
  | n + 1, m => evenTerm a m :: oddTerm a b m :: roundTerms a b n (m + 1)

/-- The terms of all rounds. -/
noncomputable def lentzTerms (a b : ℝ) : List ℝ := oddTerm a b 0 :: roundTerms a b 200 1

variable {a b x : ℝ} (a_pos : 0 < a)

include a_pos in
theorem evenTerm_unit (m : Nat) : evenTerm a m ∈ Set.Icc 0 1 := by
  have size : 0 < a + (2 * m : Nat) := by positivity
  constructor
  · exact div_nonneg (Nat.cast_nonneg m) size.le
  · rw [evenTerm, div_le_one size]
    push_cast
    linarith [Nat.cast_nonneg (α := ℝ) m]

include a_pos in
theorem evenTerm_half (m : Nat) : evenTerm a m ≤ 1 / 2 := by
  have size : 0 < a + (2 * m : Nat) := by positivity
  rw [evenTerm, div_le_iff₀ size]
  push_cast
  linarith

include a_pos in
theorem oddTerm_unit (unit : b ∈ Set.Icc 0 1) (m : Nat) : oddTerm a b m ∈ Set.Icc 0 1 := by
  obtain ⟨b_low, b_high⟩ := unit
  have size : 0 < a + (2 * m : Nat) + 1 := by positivity
  constructor
  · exact div_nonneg (by positivity) size.le
  · rw [oddTerm, div_le_one size]
    push_cast
    linarith [Nat.cast_nonneg (α := ℝ) m]

include a_pos in
theorem evenCoefficient_eq (m : Nat) :
    evenCoefficient a b x (m + 1) = -((1 - oddTerm a b m) * evenTerm a (m + 1) * x) := by
  have first : a + (2 * m : Nat) + 1 ≠ 0 := by positivity
  have second : a + (2 * (m + 1) : Nat) ≠ 0 := by positivity
  have shifted : a + (2 * (m + 1) : Nat) - 1 = a + (2 * m : Nat) + 1 := by
    push_cast
    ring
  rw [evenCoefficient, oddTerm, evenTerm, shifted]
  field_simp
  push_cast
  ring

include a_pos in
theorem oddCoefficient_eq (m : Nat) :
    oddCoefficient a b x m = -((1 - evenTerm a m) * oddTerm a b m * x) := by
  have first : a + (2 * m : Nat) ≠ 0 := by positivity
  have second : a + (2 * m : Nat) + 1 ≠ 0 := by positivity
  rw [oddCoefficient, oddTerm, evenTerm]
  field_simp
  push_cast
  ring

include a_pos in
theorem terms_proper (unit : b ∈ Set.Icc 0 1) (n m : Nat) :
    Chain.Proper (oddTerm a b m :: roundTerms a b n (m + 1)) := by
  induction n generalizing m with
  | zero =>
    intro g member
    rw [List.mem_singleton.mp member]
    exact oddTerm_unit a_pos unit m
  | succ n ih =>
    rintro g (_ | ⟨_, _ | ⟨_, member⟩⟩)
    · exact oddTerm_unit a_pos unit m
    · exact evenTerm_unit a_pos (m + 1)
    · exact ih (m + 1) g member

theorem half_unit : (1 / 2 : ℝ) ∈ Set.Icc 0 1 := by norm_num

include a_pos in
theorem lentzTerms_proper (unit : b ∈ Set.Icc 0 1) : Chain.Proper (lentzTerms a b) := terms_proper a_pos unit 200 0

end Fraction

/-- An argument so far from one that no denominator is replaced. -/
structure Unguarded (x : ℝ) : Prop where
  low : 0 ≤ x
  far : 1 / 10 ^ 30 ≤ 1 - x

theorem Unguarded.inside {x : ℝ} (unguarded : Unguarded x) : x ∈ Set.Ico 0 1 := by
  have positive : 0 < 1 - x := lt_of_lt_of_le (by positivity) unguarded.far
  exact ⟨unguarded.low, sub_pos.mp positive⟩

theorem lentzGuard_far {d : ℝ} (far : 1 / 10 ^ 30 ≤ d) : lentzGuard d = d := by
  have positive : 0 < d := lt_of_lt_of_le (by positivity) far
  have outside : ¬ |d| < ratio 1 (10 ^ 30) := by
    rw [not_lt, abs_of_pos positive, ratio, Nat.cast_one, Nat.cast_pow, Nat.cast_ofNat]
    exact far
  rw [lentzGuard, if_neg outside]

/-- What the recurrence keeps of a state after the term g. -/
structure Lentz.Kept (x g : ℝ) (s : Lentz ℝ) : Prop where
  chain : Chain.Kept x g s.c s.d
  positive : 0 < s.h

/-- The value from a state on if the rest takes u. -/
noncomputable def Lentz.reached (s : Lentz ℝ) (u : ℝ) : ℝ := Chain.reached s.c s.d s.h u

section Take
variable {x g g' : ℝ} {s : Lentz ℝ} (unguarded : Unguarded x) (term : g ∈ Set.Icc 0 1) (term' : g' ∈ Set.Icc 0 1)
variable (kept : s.Kept x g)
include unguarded term term' kept

theorem take_eq : s.take (-((1 - g) * g' * x)) =
    ⟨1 + -((1 - g) * g' * x) / s.c, 1 / (1 + -((1 - g) * g' * x) * s.d),
      s.h * (1 / (1 + -((1 - g) * g' * x) * s.d) * (1 + -((1 - g) * g' * x) / s.c))⟩ := by
  have next := kept.chain.step unguarded.inside term term'
  have rest := (Chain.term_room unguarded.inside term').1
  have c_far := lentzGuard_far (unguarded.far.trans (rest.trans next.c_low))
  have d_far : lentzGuard (1 + -((1 - g) * g' * x) * s.d) = 1 + -((1 - g) * g' * x) * s.d := by
    have positive := one_div_pos.mp (zero_lt_one.trans_le next.d_low)
    have below := next.d_high
    rw [one_div, inv_mul_le_one₀ positive] at below
    exact lentzGuard_far (unguarded.far.trans (rest.trans below))
  simp only [Lentz.take, c_far, d_far]

theorem take_kept : (s.take (-((1 - g) * g' * x))).Kept x g' := by
  have next := kept.chain.step unguarded.inside term term'
  have next_pos := next.c_positive unguarded.inside term'
  rw [take_eq unguarded term term' kept]
  exact ⟨next, mul_pos kept.positive (mul_pos (zero_lt_one.trans_le next.d_low) next_pos)⟩

theorem take_grows : s.h ≤ (s.take (-((1 - g) * g' * x))).h := by
  have next := kept.chain.step unguarded.inside term term'
  rw [take_eq unguarded term term' kept]
  apply le_mul_of_one_le_right kept.positive.le
  rw [mul_comm]
  exact next.cross

theorem take_excess :
    ((s.take (-((1 - g) * g' * x))).d * (s.take (-((1 - g) * g' * x))).c - 1) * (1 - g' * x) ≤
      g' * x * (s.d * s.c - 1) := by
  rw [take_eq unguarded term term' kept, mul_comm s.d]
  exact kept.chain.excess unguarded.inside term term'

theorem take_reached {u : ℝ} (nonneg : 0 ≤ u) (above : u ≤ (1 - g') * x) :
    (s.take (-((1 - g) * g' * x))).reached u = s.reached ((1 - g) * g' * x / (1 - u)) := by
  rw [take_eq unguarded term term' kept]
  exact kept.chain.reached_step unguarded.inside term term' nonneg above

end Take

theorem share_raised {p q e f : ℝ} (p_nonneg : 0 ≤ p) (q_nonneg : 0 ≤ q) (order : e ≤ f) (share : p * (1 - e) ≤ e * q) :
    p * (1 - f) ≤ f * q := by
  have left := mul_le_mul_of_nonneg_left order p_nonneg
  have right := mul_le_mul_of_nonneg_right order q_nonneg
  linarith

section Round
variable {a b x : ℝ} (a_pos : 0 < a) (unit : b ∈ Set.Icc 0 1) (unguarded : Unguarded x)
variable {m : Nat} {s : Lentz ℝ} (kept : s.Kept x (oddTerm a b m))
include a_pos unit unguarded kept

theorem middle_kept : (s.take (evenCoefficient a b x (m + 1))).Kept x (evenTerm a (m + 1)) := by
  rw [evenCoefficient_eq a_pos]
  exact take_kept unguarded (oddTerm_unit a_pos unit m) (evenTerm_unit a_pos (m + 1)) kept

theorem round_kept : (lentzRound a b x (m + 1) s).Kept x (oddTerm a b (m + 1)) := by
  have middle := middle_kept a_pos unit unguarded kept
  rw [lentzRound, oddCoefficient_eq a_pos]
  exact take_kept unguarded (evenTerm_unit a_pos (m + 1)) (oddTerm_unit a_pos unit (m + 1)) middle

theorem round_grows : s.h ≤ (lentzRound a b x (m + 1) s).h := by
  have middle := middle_kept a_pos unit unguarded kept
  have first := take_grows unguarded (oddTerm_unit a_pos unit m) (evenTerm_unit a_pos (m + 1)) kept
  have second := take_grows unguarded (evenTerm_unit a_pos (m + 1)) (oddTerm_unit a_pos unit (m + 1)) middle
  rw [← evenCoefficient_eq a_pos] at first
  rw [lentzRound, oddCoefficient_eq a_pos]
  exact first.trans second

/-- A round takes its two terms off the rest. -/
theorem round_reached (n : Nat) :
    (lentzRound a b x (m + 1) s).reached (Chain.rest x (oddTerm a b (m + 1)) (roundTerms a b n (m + 2))) =
      s.reached (Chain.rest x (oddTerm a b m) (roundTerms a b (n + 1) (m + 1))) := by
  have middle := middle_kept a_pos unit unguarded kept
  have proper := terms_proper a_pos unit (n + 1) m
  obtain ⟨nonneg, above⟩ := Chain.rest_bounds unguarded.inside proper.tail
  obtain ⟨nonneg', above'⟩ := Chain.rest_bounds unguarded.inside proper.tail.tail
  have first := take_reached unguarded (oddTerm_unit a_pos unit m) (evenTerm_unit a_pos (m + 1)) kept nonneg above
  have second := take_reached unguarded (evenTerm_unit a_pos (m + 1)) (oddTerm_unit a_pos unit (m + 1)) middle
    nonneg' above'
  rw [← evenCoefficient_eq a_pos] at first
  rw [lentzRound, oddCoefficient_eq a_pos, second]
  exact first

/-- In the lower half of the interval a round brings the factor to a third of its distance from one. -/
theorem round_excess (half : x ≤ 1 / 2) :
    3 * ((lentzRound a b x (m + 1) s).d * (lentzRound a b x (m + 1) s).c - 1) ≤ s.d * s.c - 1 := by
  have middle := middle_kept a_pos unit unguarded kept
  have last := (round_kept a_pos unit unguarded kept).chain.cross
  have even := take_excess unguarded (oddTerm_unit a_pos unit m) (evenTerm_unit a_pos (m + 1)) kept
  have odd := take_excess unguarded (evenTerm_unit a_pos (m + 1)) (oddTerm_unit a_pos unit (m + 1)) middle
  have middle_cross := middle.chain.cross
  have cross := kept.chain.cross
  have even_share : evenTerm a (m + 1) * x ≤ 1 / 4 := by
    have product := mul_le_mul (evenTerm_half a_pos (m + 1)) half unguarded.low (by norm_num)
    norm_num at product
    linarith
  have odd_share : oddTerm a b (m + 1) * x ≤ 1 / 2 := by
    have product := mul_le_mul (oddTerm_unit a_pos unit (m + 1)).2 half unguarded.low zero_le_one
    linarith
  rw [← evenCoefficient_eq a_pos] at even
  rw [← oddCoefficient_eq a_pos] at odd
  rw [lentzRound] at last ⊢
  rw [mul_comm] at last middle_cross cross
  have first := share_raised (by linarith) (by linarith) even_share even
  have second := share_raised (by linarith) (by linarith) odd_share odd
  linarith

end Round

section Loop
variable {a b x : ℝ} (a_pos : 0 < a) (unit : b ∈ Set.Icc 0 1) (unguarded : Unguarded x)
variable {m rounds : Nat} {s : Lentz ℝ} (kept : s.Kept x (oddTerm a b m))
include a_pos unit unguarded kept

theorem loop_grows : s.h ≤ (lentzLoop a b x rounds (m + 1) s).1.h := by
  induction rounds generalizing m s with
  | zero => exact le_rfl
  | succ rounds ih =>
    have grows := round_grows a_pos unit unguarded kept
    rw [lentzLoop]
    split
    · exact grows
    · exact grows.trans (ih (round_kept a_pos unit unguarded kept))

/-- The value that all rounds reach is next to that of the loop, which may stop earlier. -/
theorem loop_value :
    (lentzLoop a b x rounds (m + 1) s).1.h ≤ s.reached (Chain.rest x (oddTerm a b m) (roundTerms a b rounds (m + 1))) ∧
    s.reached (Chain.rest x (oddTerm a b m) (roundTerms a b rounds (m + 1))) ≤
      (lentzLoop a b x rounds (m + 1) s).1.h * (1 + x / (1 - x) * (3 / 10 ^ 7)) := by
  have rate : 0 ≤ x / (1 - x) := div_nonneg unguarded.low (sub_pos.mpr unguarded.inside.2).le
  induction rounds generalizing m s with
  | zero =>
    have whole : s.reached (Chain.rest x (oddTerm a b m) (roundTerms a b 0 (m + 1))) = s.h :=
      Chain.reached_zero s.c s.d s.h
    rw [whole]
    exact ⟨le_rfl, le_mul_of_one_le_right kept.positive.le (le_add_of_nonneg_right (by positivity))⟩
  | succ rounds ih =>
    have next := round_kept a_pos unit unguarded kept
    rw [← round_reached a_pos unit unguarded kept rounds, lentzLoop]
    split
    · rename_i stop
      obtain ⟨nonneg, above⟩ := Chain.rest_bounds unguarded.inside (terms_proper a_pos unit rounds (m + 1))
      obtain ⟨lower, upper⟩ :=
        next.chain.reached_bounds unguarded.inside (oddTerm_unit a_pos unit (m + 1)) next.positive nonneg above
      have near := (abs_lt.mp stop).2.le
      simp only [ratio, Nat.cast_ofNat, Nat.cast_pow] at near
      rw [mul_comm] at near
      have factor := add_le_add_right (mul_le_mul_of_nonneg_left near rate) 1
      have scaled := mul_le_mul_of_nonneg_left factor next.positive.le
      exact ⟨lower, upper.trans scaled⟩
    · exact ih next

/-- In the lower half of the interval the loop stops before its rounds are used up. -/
theorem loop_converges (half : x ≤ 1 / 2) (near : s.d * s.c - 1 < 3 ^ rounds * (3 / 10 ^ 7)) (some_ : 0 < rounds) :
    (lentzLoop a b x rounds (m + 1) s).2 = true := by
  induction rounds generalizing m s with
  | zero => exact absurd some_ (Nat.lt_irrefl 0)
  | succ rounds ih =>
    have next := round_kept a_pos unit unguarded kept
    have less := round_excess a_pos unit unguarded kept half
    have cross := next.chain.cross
    rw [mul_comm] at cross
    have closer : (lentzRound a b x (m + 1) s).d * (lentzRound a b x (m + 1) s).c - 1 < 3 ^ rounds * (3 / 10 ^ 7) := by
      rw [pow_succ] at near
      linarith
    rw [lentzLoop]
    split
    · rfl
    · rename_i further
      apply ih next closer
      by_contra none
      rw [Nat.eq_zero_of_not_pos none, pow_zero, one_mul] at closer
      apply further
      rw [abs_of_nonneg (by linarith)]
      simpa only [ratio, Nat.cast_ofNat, Nat.cast_pow] using closer

end Loop

section Whole
variable {a b x : ℝ} (a_pos : 0 < a) (unit : b ∈ Set.Icc 0 1) (unguarded : Unguarded x)
include a_pos unit unguarded

theorem lentzStart_eq : lentzStart a b x = ⟨1, 1 / (1 - oddTerm a b 0 * x), 1 / (1 - oddTerm a b 0 * x)⟩ := by
  have rest := (Chain.term_room unguarded.inside (oddTerm_unit a_pos unit 0)).1
  have form : 1 - (a + b) * x / (a + 1) = 1 - oddTerm a b 0 * x := by
    rw [oddTerm]
    push_cast
    ring
  rw [lentzStart, form, lentzGuard_far (unguarded.far.trans rest)]

theorem lentzStart_kept : (lentzStart a b x).Kept x (oddTerm a b 0) := by
  have chain := Chain.Kept.start unguarded.inside (oddTerm_unit a_pos unit 0)
  rw [lentzStart_eq a_pos unit unguarded]
  exact ⟨chain, zero_lt_one.trans_le chain.d_low⟩

theorem lentz_low : 1 / (1 - oddTerm a b 0 * x) ≤ (lentz a b x).1.h := by
  calc 1 / (1 - oddTerm a b 0 * x) = (lentzStart a b x).h := by rw [lentzStart_eq a_pos unit unguarded]
    _ ≤ (lentz a b x).1.h := loop_grows a_pos unit unguarded (lentzStart_kept a_pos unit unguarded)

/-- The fraction of all rounds is next to what the loop returns. -/
theorem lentz_value : (lentz a b x).1.h ≤ Chain.value x (lentzTerms a b) ∧
    Chain.value x (lentzTerms a b) ≤ (lentz a b x).1.h * (1 + x / (1 - x) * (3 / 10 ^ 7)) := by
  have whole : (lentzStart a b x).reached (Chain.rest x (oddTerm a b 0) (roundTerms a b 200 1)) =
      Chain.value x (lentzTerms a b) := by
    rw [lentzStart_eq a_pos unit unguarded]
    exact Chain.reached_start unguarded.inside (lentzTerms_proper a_pos unit)
  rw [← whole]
  exact loop_value a_pos unit unguarded (lentzStart_kept a_pos unit unguarded)

theorem lentz_high : (lentz a b x).1.h ≤ 1 / (1 - x) :=
  (lentz_value a_pos unit unguarded).1.trans (Chain.value_le unguarded.inside (lentzTerms_proper a_pos unit))

theorem lentz_converges (half : x ≤ 1 / 2) : (lentz a b x).2 = true := by
  have kept := lentzStart_kept a_pos unit unguarded
  have above := kept.chain.d_high
  have share : oddTerm a b 0 * x ≤ 1 / 2 := by
    have product := mul_le_mul (oddTerm_unit a_pos unit 0).2 half unguarded.low zero_le_one
    linarith
  have below := mul_le_mul_of_nonneg_left (sub_le_sub_left share 1) (zero_le_one.trans kept.chain.d_low)
  have near : (lentzStart a b x).d * (lentzStart a b x).c - 1 ≤ 1 := by
    have one : (lentzStart a b x).c = 1 := rfl
    rw [one]
    linarith
  apply loop_converges a_pos unit unguarded kept half (near.trans_lt _) (by decide)
  norm_num

end Whole

/- What the replaced denominators leave of the value, next to one as well. -/
section Bounded

theorem guard_bounds (d : ℝ) : 1 / 10 ^ 30 ≤ |lentzGuard d| ∧ |lentzGuard d| ≤ |d| + 1 / 10 ^ 30 := by
  have least : (0 : ℝ) < 1 / 10 ^ 30 := by positivity
  simp only [lentzGuard, ratio, Nat.cast_one, Nat.cast_pow, Nat.cast_ofNat]
  split
  · rw [abs_of_pos least]
    exact ⟨le_rfl, le_add_of_nonneg_left (abs_nonneg d)⟩
  · rename_i away
    exact ⟨not_lt.mp away, le_add_of_nonneg_right least.le⟩

theorem inverse_bounded {r : ℝ} (away : 1 / 10 ^ 30 ≤ |r|) : |1 / r| ≤ 10 ^ 30 := by
  rw [abs_div, abs_one]
  exact (one_div_le (by positivity) (lt_of_lt_of_le (by positivity) away)).mp away

/-- The most that the factor of one coefficient is. -/
noncomputable def takeBound : ℝ := (10 : Nat) ^ 30 * ((2 : Nat) + (10 : Nat) ^ 30)

theorem takeBound_large : 1 ≤ takeBound := by norm_num [takeBound]

theorem take_bounded {s : Lentz ℝ} {aa : ℝ} (small : |aa| ≤ 1) (away : 1 / 10 ^ 30 ≤ |s.c|) :
    1 / 10 ^ 30 ≤ |(s.take aa).c| ∧ |(s.take aa).h| ≤ |s.h| * takeBound := by
  obtain ⟨c_low, c_high⟩ := guard_bounds (1 + aa / s.c)
  obtain ⟨d_low, _⟩ := guard_bounds (1 + aa * s.d)
  have share : |aa / s.c| ≤ 10 ^ 30 := by
    have inverse := inverse_bounded away
    rw [div_eq_mul_one_div, abs_mul]
    exact (mul_le_of_le_one_left (abs_nonneg _) small).trans inverse
  have c_bound : |lentzGuard (1 + aa / s.c)| ≤ 2 + 10 ^ 30 := by
    have sum := abs_add_le 1 (aa / s.c)
    rw [abs_one] at sum
    have tiny : (1 : ℝ) / 10 ^ 30 ≤ 1 := by norm_num
    linarith
  refine ⟨c_low, ?_⟩
  simp only [Lentz.take, abs_mul, takeBound, Nat.cast_ofNat]
  have factor := mul_le_mul (inverse_bounded d_low) c_bound (abs_nonneg _) (by positivity)
  exact mul_le_mul_of_nonneg_left factor (abs_nonneg _)

variable {a b x : ℝ} (inside : x ∈ Set.Icc 0 1)

include inside in
theorem coefficient_small {p q : ℝ} (first : p ∈ Set.Icc 0 1) (second : q ∈ Set.Icc 0 1) :
    |-((1 - p) * q * x)| ≤ 1 := by
  have left : 0 ≤ 1 - p := sub_nonneg.mpr first.2
  have product : 0 ≤ (1 - p) * q := mul_nonneg left second.1
  rw [abs_neg, abs_of_nonneg (mul_nonneg product inside.1)]
  exact mul_le_one₀ (mul_le_one₀ (by linarith [first.1]) second.1 second.2) inside.1 inside.2

variable (a_pos : 0 < a) (unit : b ∈ Set.Icc 0 1)
include inside a_pos unit

theorem round_bounded {m : Nat} {s : Lentz ℝ} (away : 1 / 10 ^ 30 ≤ |s.c|) :
    1 / 10 ^ 30 ≤ |(lentzRound a b x (m + 1) s).c| ∧
      |(lentzRound a b x (m + 1) s).h| ≤ |s.h| * (takeBound * takeBound) := by
  have even := coefficient_small inside (oddTerm_unit a_pos unit m) (evenTerm_unit a_pos (m + 1))
  have odd := coefficient_small inside (evenTerm_unit a_pos (m + 1)) (oddTerm_unit a_pos unit (m + 1))
  rw [← evenCoefficient_eq a_pos] at even
  rw [← oddCoefficient_eq a_pos] at odd
  obtain ⟨middle_away, middle_bound⟩ := take_bounded even away
  obtain ⟨next_away, next_bound⟩ := take_bounded odd middle_away
  refine ⟨next_away, next_bound.trans ?_⟩
  rw [← mul_assoc]
  exact mul_le_mul_of_nonneg_right middle_bound (zero_le_one.trans takeBound_large)

theorem loop_bounded {m rounds : Nat} {s : Lentz ℝ} (away : 1 / 10 ^ 30 ≤ |s.c|) :
    |(lentzLoop a b x rounds (m + 1) s).1.h| ≤ |s.h| * (takeBound * takeBound) ^ rounds := by
  have large : 1 ≤ takeBound * takeBound := one_le_mul_of_one_le_of_one_le takeBound_large takeBound_large
  induction rounds generalizing m s with
  | zero =>
    rw [pow_zero, mul_one]
    exact le_rfl
  | succ rounds ih =>
    obtain ⟨next_away, next_bound⟩ := round_bounded inside a_pos unit away (m := m)
    have product := mul_le_mul_of_nonneg_right next_bound (pow_nonneg (zero_le_one.trans large) rounds)
    rw [mul_assoc, ← pow_succ'] at product
    rw [lentzLoop]
    split
    · exact (le_mul_of_one_le_right (abs_nonneg _) (one_le_pow₀ large)).trans product
    · exact (ih next_away).trans product

omit inside in
/-- For all arguments at once the value is bounded. -/
theorem lentz_bounded : ∃ bound, 0 < bound ∧ ∀ x ∈ Set.Icc 0 1, |(lentz a b x).1.h| ≤ bound := by
  have positive : 0 < takeBound := zero_lt_one.trans_le takeBound_large
  refine ⟨10 ^ 30 * (takeBound * takeBound) ^ 200, by positivity, fun x inside => ?_⟩
  have away : 1 / 10 ^ 30 ≤ |(lentzStart a b x).c| := by
    norm_num [lentzStart]
  have start : |(lentzStart a b x).h| ≤ 10 ^ 30 := inverse_bounded (guard_bounds _).1
  exact (loop_bounded inside a_pos unit away).trans (mul_le_mul_of_nonneg_right start (by positivity))

end Bounded

open ProbabilityTheory (beta beta_pos)

/-- The prefactor. That of the integral is x^a(1-x)^b/(a B(a,b)). -/
theorem betaFront_eq {a b x : ℝ} (a_pos : 0 < a) (b_pos : 0 < b) (low : 0 < x) (high : x < 1) :
    betaFront Special.lgamma a b x = x * (1 - x) ^ b / beta a b := by
  have sum : Real.log a + Real.log x + b * Real.log (1 - x) - Real.log a -
      (Special.lgamma a + Special.lgamma b - Special.lgamma (a + b)) =
      Real.log x + Real.log (1 - x) * b - (Special.lgamma a + Special.lgamma b - Special.lgamma (a + b)) := by ring
  change Real.exp (Real.log a + Real.log x + b * Real.log (1 - x) - Real.log a -
    (Special.lgamma a + Special.lgamma b - Special.lgamma (a + b))) = _
  rw [sum, Real.exp_sub, Real.exp_add, Real.exp_log low, ← Real.rpow_def_of_pos (sub_pos.mpr high), Real.exp_sub,
    Real.exp_add, Special.exp_lgamma a_pos, Special.exp_lgamma b_pos, Special.exp_lgamma (add_pos a_pos b_pos), beta]

section Half
variable {a x : ℝ} (a_pos : 0 < a) (positive : 0 < x) (unguarded : Unguarded x)
include a_pos positive

theorem betaInc_half (high : x < 1) : betaInc Special.lgamma a (1 / 2) x =
    x * √(1 - x) / beta a (1 / 2) * ((lentz a (1 / 2) x).1.h - 1) := by
  have outside : ¬ (x < 0 ∨ x > 1) := by
    rintro (negative | more) <;> linarith
  have between : ¬ (x = 0 ∨ x = 1) := by
    rintro (zero | one) <;> linarith
  rw [betaInc, if_neg outside, if_neg between, betaFront_eq a_pos (by norm_num) positive high, Real.sqrt_eq_rpow]

theorem front_nonneg : 0 ≤ x * √(1 - x) / beta a (1 / 2) :=
  div_nonneg (mul_nonneg positive.le (Real.sqrt_nonneg _)) (beta_pos a_pos (by norm_num)).le

include unguarded

/-- The first term of the fraction alone. -/
theorem betaInc_low : x * √(1 - x) / beta a (1 / 2) * (x * (a + 1 / 2) / ((a + 1 / 2) * (1 - x) + 1 / 2)) ≤
    betaInc Special.lgamma a (1 / 2) x := by
  have lower := lentz_low a_pos half_unit unguarded
  have size : a + 1 ≠ 0 := by positivity
  have room : 0 < (a + 1 / 2) * (1 - x) + 1 / 2 := by
    have part : 0 ≤ (a + 1 / 2) * (1 - x) := mul_nonneg (by linarith) (sub_pos.mpr unguarded.inside.2).le
    linarith
  have term : 1 - oddTerm a (1 / 2) 0 * x = ((a + 1 / 2) * (1 - x) + 1 / 2) / (a + 1) := by
    rw [oddTerm]
    push_cast
    field_simp
    ring
  have value : 1 / (1 - oddTerm a (1 / 2) 0 * x) = 1 + x * (a + 1 / 2) / ((a + 1 / 2) * (1 - x) + 1 / 2) := by
    rw [term, one_div_div, one_add_div room.ne']
    congr 1
    ring
  rw [value] at lower
  rw [betaInc_half a_pos positive unguarded.inside.2]
  exact mul_le_mul_of_nonneg_left (by linarith) (front_nonneg a_pos positive)

/-- All terms of the chain. -/
theorem betaInc_high : betaInc Special.lgamma a (1 / 2) x ≤ x * √(1 - x) / beta a (1 / 2) * (x / (1 - x)) := by
  have upper := lentz_high a_pos half_unit unguarded
  have room : 0 < 1 - x := sub_pos.mpr unguarded.inside.2
  have value : 1 / (1 - x) = 1 + x / (1 - x) := by
    field_simp
    ring
  rw [value] at upper
  rw [betaInc_half a_pos positive unguarded.inside.2]
  exact mul_le_mul_of_nonneg_left (by linarith) (front_nonneg a_pos positive)

end Half

/-- The call returns before the fraction, or the fraction converges in its rounds. -/
def Converges (a b x : ℝ) : Prop := x = 0 ∨ x = 1 ∨ (lentz a b x).2 = true

/-- Where the fraction converges the result is next to the regularized incomplete beta function. -/
def ComputesBeta (a b x : ℝ) : Prop :=
  Converges a b x → |betaInc Special.lgamma a b x - Special.incompleteBeta a b x| ≤ ratio 1 (10 ^ 4)

noncomputable def studentCdf (t df : ℝ) : ℝ :=
  let ib := Special.incompleteBeta (df / (2 : Nat)) (ratio 1 2) (df / (df + t * t))
  if t ≥ 0 then 1 - ratio 1 2 * ib else ratio 1 2 * ib

theorem computesBeta_def (a b x : ℝ) : ComputesBeta a b x ↔
    (Converges a b x → |betaInc Special.lgamma a b x - Special.incompleteBeta a b x| ≤ 1 / 10 ^ 4) := by
  simp only [ComputesBeta, ratio, Nat.cast_one, Nat.cast_pow, Nat.cast_ofNat]

theorem computesBeta_ends {a b : ℝ} (a_pos : 0 < a) (b_pos : 0 < b) : ComputesBeta a b 0 ∧ ComputesBeta a b 1 := by
  rw [computesBeta_def, computesBeta_def]
  constructor
  · intro _
    norm_num [betaInc, Special.incompleteBeta_zero]
  · intro _
    norm_num [betaInc, Special.incompleteBeta_one a_pos b_pos]

section Student
variable {a x : ℝ} (a_pos : 0 < a)

include a_pos in
theorem beta_small (small : a ≤ 1) : a * beta a (1 / 2) ≤ 3 := by
  have bound := Special.beta_half_high a_pos
  have root : √(Real.pi * (a + 1 / 2)) ≤ 3 := by
    rw [Real.sqrt_le_left (by norm_num)]
    have product := mul_le_mul Real.pi_lt_d2.le (by linarith : a + 1 / 2 ≤ 3 / 2) (by linarith) (by norm_num)
    linarith
  rw [le_div_iff₀ a_pos] at bound
  linarith

theorem beta_large (large : 1 ≤ a) : beta a (1 / 2) ≤ 3 := by
  have a_pos : 0 < a := zero_lt_one.trans_le large
  apply (Special.beta_half_high a_pos).trans
  rw [div_le_iff₀ a_pos, Real.sqrt_le_left (by linarith)]
  have product := mul_le_mul_of_nonneg_right Real.pi_lt_d2.le (by linarith : 0 ≤ a + 1 / 2)
  have square := mul_le_mul_of_nonneg_left large a_pos.le
  linarith

theorem unguarded_half (positive : 0 < x) (half : x ≤ 1 / 2) : Unguarded x :=
  ⟨positive.le, by norm_num; linarith⟩

section Bounds
variable (positive : 0 < x) (half : x ≤ 1 / 2)
include a_pos positive half

/-- Where the integral, times the beta function, exceeds the bound of all terms. -/
theorem integral_above {l : ℝ} (lower : l ≤ x ^ a / a)
    (apart : beta a (1 / 2) / 10 ^ 4 < l - x * √(1 - x) * (x / (1 - x))) :
    1 / 10 ^ 4 < Special.incompleteBeta a (1 / 2) x - betaInc Special.lgamma a (1 / 2) x := by
  have b_pos := beta_pos a_pos one_half_pos
  have upper := betaInc_high a_pos positive (unguarded_half positive half)
  have integral := (Special.incompleteBeta_between a_pos one_half_pos (by norm_num) positive.le (by linarith)).1
  rw [div_mul_eq_mul_div, le_div_iff₀ b_pos] at upper
  rw [div_le_iff₀ b_pos] at integral
  have scaled : 1 / 10 ^ 4 * beta a (1 / 2) <
      (Special.incompleteBeta a (1 / 2) x - betaInc Special.lgamma a (1 / 2) x) * beta a (1 / 2) := by linarith
  exact lt_of_mul_lt_mul_right scaled b_pos.le

/-- Where the first term alone exceeds the integral. -/
theorem integral_below {u : ℝ} (upper : x ^ a / a * (1 - x) ^ (1 / 2 - 1 : ℝ) ≤ u)
    (apart : beta a (1 / 2) / 10 ^ 4 < x * √(1 - x) * (x * (a + 1 / 2) / ((a + 1 / 2) * (1 - x) + 1 / 2)) - u) :
    1 / 10 ^ 4 < betaInc Special.lgamma a (1 / 2) x - Special.incompleteBeta a (1 / 2) x := by
  have b_pos := beta_pos a_pos one_half_pos
  have lower := betaInc_low a_pos positive (unguarded_half positive half)
  have integral := (Special.incompleteBeta_between a_pos one_half_pos (by norm_num) positive.le (by linarith)).2
  rw [div_mul_eq_mul_div, div_le_iff₀ b_pos] at lower
  rw [le_div_iff₀ b_pos] at integral
  have scaled : 1 / 10 ^ 4 * beta a (1 / 2) <
      (betaInc Special.lgamma a (1 / 2) x - Special.incompleteBeta a (1 / 2) x) * beta a (1 / 2) := by linarith
  exact lt_of_mul_lt_mul_right scaled b_pos.le

end Bounds

theorem root_half : 707 / 1000 ≤ √(1 - 1 / 2 : ℝ) ∧ √(1 - 1 / 2 : ℝ) ≤ 708 / 1000 := by
  constructor
  · exact Real.le_sqrt_of_sq_le (by norm_num)
  · rw [Real.sqrt_le_left (by norm_num)]
    norm_num

include a_pos in
theorem missed_small (small : a ≤ 1) :
    1 / 10 ^ 4 < Special.incompleteBeta a (1 / 2) (1 / 2) - betaInc Special.lgamma a (1 / 2) (1 / 2) := by
  have power : 1 / 2 ≤ (1 / 2 : ℝ) ^ a := by
    calc (1 / 2 : ℝ) = (1 / 2) ^ (1 : ℝ) := (Real.rpow_one _).symm
      _ ≤ (1 / 2) ^ a := Real.rpow_le_rpow_of_exponent_ge one_half_pos (by norm_num) small
  apply integral_above a_pos one_half_pos le_rfl (div_le_div_of_nonneg_right power a_pos.le)
  have b_bound := beta_small a_pos small
  have scaled : a * (beta a (1 / 2) / 10 ^ 4) < a * (1 / 2 / a - 1 / 2 * √(1 - 1 / 2) * (1 / 2 / (1 - 1 / 2))) := by
    have cancel : a * (1 / 2 / a - 1 / 2 * √(1 - 1 / 2) * (1 / 2 / (1 - 1 / 2))) = 1 / 2 - a * √(1 - 1 / 2) / 2 := by
      field_simp
      norm_num
    have root : a * √(1 - 1 / 2) ≤ 1 * (708 / 1000) := mul_le_mul small root_half.2 (Real.sqrt_nonneg _) zero_le_one
    rw [cancel]
    linarith
  exact lt_of_mul_lt_mul_left scaled a_pos.le

theorem missed_middle (low : 1 ≤ a) (high : a ≤ 7 / 4) :
    1 / 10 ^ 4 < Special.incompleteBeta a (1 / 2) (1 / 16) - betaInc Special.lgamma a (1 / 2) (1 / 16) := by
  have a_pos : 0 < a := zero_lt_one.trans_le low
  have power : 1 / 128 ≤ (1 / 16 : ℝ) ^ a := by
    calc (1 / 128 : ℝ) = (1 / 16) ^ (7 / 4 : ℝ) := by
          have base : (1 / 16 : ℝ) = (1 / 2) ^ (4 : ℝ) := by norm_num
          rw [base, ← Real.rpow_mul one_half_pos.le]
          norm_num
      _ ≤ (1 / 16) ^ a := Real.rpow_le_rpow_of_exponent_ge (by norm_num) (by norm_num) high
  have integral : 1 / 224 ≤ (1 / 16 : ℝ) ^ a / a := by
    rw [le_div_iff₀ a_pos]
    linarith
  have root : √(1 - 1 / 16 : ℝ) ≤ 31 / 32 := by
    rw [Real.sqrt_le_left (by norm_num)]
    norm_num
  apply integral_above a_pos (by norm_num) (by norm_num) integral
  have b_bound := beta_large low
  norm_num at root ⊢
  linarith

theorem missed_large (large : 7 / 4 ≤ a) :
    1 / 10 ^ 4 < betaInc Special.lgamma a (1 / 2) (1 / 2) - Special.incompleteBeta a (1 / 2) (1 / 2) := by
  have a_pos : 0 < a := lt_of_lt_of_le (by norm_num) large
  have power : (1 / 2 : ℝ) ^ a * (1 - 1 / 2) ^ (1 / 2 - 1 : ℝ) ≤ 421 / 1000 := by
    have fifth : (1 / 2 : ℝ) ^ (5 / 4 : ℝ) ≤ 421 / 1000 := by
      have fourth : ((1 / 2 : ℝ) ^ (5 / 4 : ℝ)) ^ 4 = 1 / 32 := by
        rw [← Real.rpow_natCast, ← Real.rpow_mul one_half_pos.le]
        norm_num
      apply (pow_le_pow_iff_left₀ (by positivity) (by norm_num) four_ne_zero).mp
      rw [fourth]
      norm_num
    calc (1 / 2 : ℝ) ^ a * (1 - 1 / 2) ^ (1 / 2 - 1 : ℝ) = (1 / 2) ^ (a - 1 / 2) := by
          rw [sub_half, ← Real.rpow_add one_half_pos]
          congr 1
          ring
      _ ≤ (1 / 2) ^ (5 / 4 : ℝ) := Real.rpow_le_rpow_of_exponent_ge one_half_pos (by norm_num) (by linarith)
      _ ≤ 421 / 1000 := fifth
  have integral : (1 / 2 : ℝ) ^ a / a * (1 - 1 / 2) ^ (1 / 2 - 1 : ℝ) ≤ 2406 / 10000 := by
    rw [div_mul_eq_mul_div, div_le_iff₀ a_pos]
    linarith
  apply integral_below a_pos one_half_pos le_rfl integral
  have b_bound := beta_large (by linarith : 1 ≤ a)
  have share : 9 / 13 ≤ 1 / 2 * (a + 1 / 2) / ((a + 1 / 2) * (1 - 1 / 2) + 1 / 2) := by
    rw [le_div_iff₀ (by linarith)]
    linarith
  have product := mul_le_mul root_half.1 share (by norm_num) (Real.sqrt_nonneg _)
  linarith

include a_pos in
theorem missed_somewhere : ∃ x, 0 < x ∧ x ≤ 1 / 2 ∧
    1 / 10 ^ 4 < |betaInc Special.lgamma a (1 / 2) x - Special.incompleteBeta a (1 / 2) x| := by
  rcases le_total a 1 with small | more
  · refine ⟨1 / 2, one_half_pos, le_rfl, ?_⟩
    rw [abs_sub_comm]
    exact (missed_small a_pos small).trans_le (le_abs_self _)
  · rcases le_total a (7 / 4) with middle | large
    · refine ⟨1 / 16, by norm_num, by norm_num, ?_⟩
      rw [abs_sub_comm]
      exact (missed_middle more middle).trans_le (le_abs_self _)
    · exact ⟨1 / 2, one_half_pos, le_rfl, (missed_large large).trans_le (le_abs_self _)⟩

include a_pos in
theorem missed_not_computed {x : ℝ} (positive : 0 < x) (half : x ≤ 1 / 2)
    (apart : 1 / 10 ^ 4 < |betaInc Special.lgamma a (1 / 2) x - Special.incompleteBeta a (1 / 2) x|) :
    ¬ ComputesBeta a (1 / 2) x := by
  have converged := lentz_converges a_pos half_unit (unguarded_half positive half) half
  rw [computesBeta_def]
  exact fun computes => absurd (computes (Or.inr (Or.inr converged))) apart.not_ge

end Student

/-- Each argument between the ends is that of a positive t. -/
theorem argument_reached {df x : ℝ} (positive : 0 < df) (x_pos : 0 < x) (high : x < 1) :
    ∃ t, 0 < t ∧ df / (df + t * t) = x := by
  have square : 0 < df * (1 - x) / x := div_pos (mul_pos positive (sub_pos.mpr high)) x_pos
  refine ⟨√(df * (1 - x) / x), Real.sqrt_pos.mpr square, ?_⟩
  rw [Real.mul_self_sqrt square.le]
  field_simp
  ring

theorem tDistCdf_difference {t : ℝ} (t_pos : 0 < t) (df : ℝ) : |tDistCdf Special.lgamma t df - studentCdf t df| =
    1 / 2 * |betaInc Special.lgamma (df / 2) (1 / 2) (df / (df + t * t)) -
      Special.incompleteBeta (df / 2) (1 / 2) (df / (df + t * t))| := by
  have difference (p q : ℝ) : 1 - 1 / 2 * p - (1 - 1 / 2 * q) = -(1 / 2) * (p - q) := by ring
  simp only [tDistCdf, studentCdf, ge_iff_le, t_pos.le, if_true, ratio, Nat.cast_one, Nat.cast_ofNat, difference,
    abs_mul, abs_neg, abs_of_pos (one_half_pos (α := ℝ))]

/-- At both ends, where it returns before the fraction, the function is the integral. With b = 1/2, as the
distribution function with 2a degrees of freedom calls it, there is a t where it is not, though the fraction
converges, and where the distribution function is not Student's. -/
theorem beta_computed_at_ends (a b : ℝ) (a_pos : 0 < a) (b_pos : 0 < b) :
    (∀ x, x = 0 ∨ x = 1 → ComputesBeta a b x) ∧
    (b = 1 / 2 → ∃ t, 0 < t ∧ ¬ ComputesBeta a b (2 * a / (2 * a + t * t)) ∧
      5 / 10 ^ 5 < |tDistCdf Special.lgamma t (2 * a) - studentCdf t (2 * a)|) := by
  constructor
  · rintro x (rfl | rfl)
    · exact (computesBeta_ends a_pos b_pos).1
    · exact (computesBeta_ends a_pos b_pos).2
  · rintro rfl
    obtain ⟨x, x_pos, half, apart⟩ := missed_somewhere a_pos
    obtain ⟨t, t_pos, rfl⟩ := argument_reached (by linarith : 0 < 2 * a) x_pos (half.trans_lt (by norm_num))
    refine ⟨t, t_pos, missed_not_computed a_pos x_pos half apart, ?_⟩
    rw [tDistCdf_difference t_pos, mul_div_cancel_left₀ a two_ne_zero]
    linarith

theorem one_degree_computed_at_ends : (∀ x : ℝ, x = 0 ∨ x = 1 → ComputesBeta (1 / 2) (1 / 2) x) ∧
    ((1 / 2 : ℝ) = 1 / 2 → ∃ t : ℝ, 0 < t ∧ ¬ ComputesBeta (1 / 2) (1 / 2) (2 * (1 / 2) / (2 * (1 / 2) + t * t)) ∧
      5 / 10 ^ 5 < |tDistCdf Special.lgamma t (2 * (1 / 2)) - studentCdf t (2 * (1 / 2))|) :=
  beta_computed_at_ends (1 / 2) (1 / 2) one_half_pos one_half_pos

/-- With t = 1 the integral is one half, and what is returned is far below it. -/
theorem one_degree_missed : ¬ ComputesBeta (1 / 2) (1 / 2) (1 / 2) := by
  apply missed_not_computed one_half_pos one_half_pos le_rfl
  rw [abs_sub_comm]
  exact (missed_small one_half_pos (by norm_num)).trans_le (le_abs_self _)

end ServMark
