import Mathlib.Analysis.SpecialFunctions.Pow.Real
import Mathlib.Tactic

/-! Continued fractions 1/(1 - k₁x/(1 - k₂x/(1 - ...))) with k = (1 - g)g' for the numbers g and g' of
two terms in a row, all from 0 to 1. First the value from the last term to the first, then the forward
recurrence for the ratio c of the last two numerators, the inverse d of that of the denominators, and the
value h so far; they give the same. -/
namespace Chain

def Proper (gs : List ℝ) : Prop := ∀ g ∈ gs, g ∈ Set.Icc 0 1

/-- What the terms after g take away of the denominator at g. -/
noncomputable def rest (x : ℝ) : ℝ → List ℝ → ℝ
  | _, [] => 0
  | g, g' :: gs => (1 - g) * g' * x / (1 - rest x g' gs)

noncomputable def value (x : ℝ) (gs : List ℝ) : ℝ := 1 / (1 - rest x 0 gs)

section Backward
variable {x y g : ℝ} {gs : List ℝ}

theorem Proper.head (proper : Proper (g :: gs)) : g ∈ Set.Icc 0 1 := proper g List.mem_cons_self

theorem Proper.tail (proper : Proper (g :: gs)) : Proper gs := fun r member => proper r (List.mem_cons_of_mem g member)

theorem rest_bounds (inside : x ∈ Set.Ico 0 1) (proper : Proper (g :: gs)) :
    0 ≤ rest x g gs ∧ rest x g gs ≤ (1 - g) * x := by
  obtain ⟨low, high⟩ := inside
  induction gs generalizing g with
  | nil => exact ⟨le_rfl, mul_nonneg (sub_nonneg.mpr proper.head.2) low⟩
  | cons g' gs ih =>
    obtain ⟨low', high'⟩ := proper.tail.head
    obtain ⟨nonneg, above⟩ := ih proper.tail
    have share : (1 - g') * x ≤ (1 - g') * 1 := mul_le_mul_of_nonneg_left high.le (sub_nonneg.mpr high')
    have room : 0 < 1 - rest x g' gs := by
      have small : (1 - g') * x ≤ 1 * x := mul_le_mul_of_nonneg_right (by linarith) low
      linarith
    have part : 0 ≤ (1 - g) * x := mul_nonneg (sub_nonneg.mpr proper.head.2) low
    constructor
    · exact div_nonneg (mul_nonneg (mul_nonneg (sub_nonneg.mpr proper.head.2) low') low) room.le
    · rw [rest, div_le_iff₀ room, mul_right_comm]
      exact mul_le_mul_of_nonneg_left (by linarith) part

theorem rest_room (inside : x ∈ Set.Ico 0 1) (proper : Proper (g :: gs)) : 1 - x ≤ 1 - rest x g gs := by
  have above := (rest_bounds inside proper).2
  have small : (1 - g) * x ≤ 1 * x := mul_le_mul_of_nonneg_right (by linarith [proper.head.1]) inside.1
  linarith

theorem rest_mono (low : 0 ≤ x) (order : x ≤ y) (high : y < 1) (proper : Proper (g :: gs)) :
    rest x g gs ≤ rest y g gs := by
  induction gs generalizing g with
  | nil => exact le_rfl
  | cons g' gs ih =>
    have room := rest_room ⟨low.trans order, high⟩ proper.tail
    have factor : 0 ≤ (1 - g) * g' := mul_nonneg (sub_nonneg.mpr proper.head.2) proper.tail.head.1
    exact div_le_div₀ (mul_nonneg factor (low.trans order)) (mul_le_mul_of_nonneg_left order factor) (by linarith)
      (by linarith [ih proper.tail])

/-- The rest grows with x no faster than at a rate e that a further term does not raise. -/
theorem rest_lipschitz {e : ℝ} (nonneg : 0 ≤ e) (rate : 1 + e / (4 * (1 - y)) ≤ e) (low : 0 ≤ x) (order : x ≤ y)
    (high : y < 1) (proper : Proper (g :: gs)) : rest y g gs - rest x g gs ≤ e * (y - x) := by
  have gap : 0 ≤ y - x := sub_nonneg.mpr order
  have c_pos : 0 < 1 - y := sub_pos.mpr high
  induction gs generalizing g with
  | nil => simpa [rest] using mul_nonneg nonneg gap
  | cons g' gs ih =>
    obtain ⟨g_low, g_high⟩ := proper.head
    obtain ⟨low', high'⟩ := proper.tail.head
    have grows := ih proper.tail
    have more := rest_mono low order high proper.tail
    have above := (rest_bounds ⟨low.trans order, high⟩ proper.tail).2
    set u := rest x g' gs
    set v := rest y g' gs
    set w := g' * y with w_def
    have w_nonneg : 0 ≤ w := mul_nonneg low' (low.trans order)
    have v_room : 1 - y + w ≤ 1 - v := by linarith
    have u_room : 1 - y + w ≤ 1 - u := by linarith
    have base : 0 < 1 - y + w := by linarith
    have v_pos : 0 < 1 - v := base.trans_le v_room
    have u_pos : 0 < 1 - u := base.trans_le u_room
    have factor : 0 ≤ (1 - g) * g' := mul_nonneg (sub_nonneg.mpr g_high) low'
    have factor_le : (1 - g) * g' ≤ g' := mul_le_of_le_one_left low' (by linarith)
    have split : (1 - g) * g' * y / (1 - v) - (1 - g) * g' * x / (1 - u) =
        (1 - g) * g' / (1 - v) * (y - x) + (1 - g) * g' * x / ((1 - v) * (1 - u)) * (v - u) := by
      field_simp
      ring
    have first : (1 - g) * g' / (1 - v) ≤ 1 := by
      rw [div_le_one v_pos]
      have part : 0 ≤ (1 - g') * (1 - y) := mul_nonneg (sub_nonneg.mpr high') c_pos.le
      linarith
    have second : (1 - g) * g' * x / ((1 - v) * (1 - u)) ≤ 1 / (4 * (1 - y)) := by
      have above : (1 - g) * g' * x ≤ w :=
        (mul_le_mul_of_nonneg_right factor_le low).trans (mul_le_mul_of_nonneg_left order low')
      have below : (1 - y + w) * (1 - y + w) ≤ (1 - v) * (1 - u) := mul_le_mul v_room u_room base.le v_pos.le
      have squares := four_mul_le_sq_add (1 - y) w
      calc (1 - g) * g' * x / ((1 - v) * (1 - u)) ≤ w / ((1 - y + w) * (1 - y + w)) :=
            div_le_div₀ w_nonneg above (mul_pos base base) below
        _ ≤ 1 / (4 * (1 - y)) := by
          rw [div_le_div_iff₀ (mul_pos base base) (by linarith)]
          linarith
    have inner : (1 - g) * g' * x / ((1 - v) * (1 - u)) * (v - u) ≤ 1 / (4 * (1 - y)) * (e * (y - x)) :=
      mul_le_mul second grows (sub_nonneg.mpr more) (by positivity)
    rw [rest, rest, split]
    calc _ ≤ 1 * (y - x) + 1 / (4 * (1 - y)) * (e * (y - x)) :=
          add_le_add (mul_le_mul_of_nonneg_right first gap) inner
      _ = (1 + e / (4 * (1 - y))) * (y - x) := by ring
      _ ≤ e * (y - x) := mul_le_mul_of_nonneg_right rate gap

end Backward

/-- What the recurrence keeps after the term g. -/
structure Kept (x g c d : ℝ) : Prop where
  c_low : 1 - g * x ≤ c
  c_high : c ≤ 1
  d_low : 1 ≤ d
  d_high : d * (1 - g * x) ≤ 1
  cross : 1 ≤ c * d

/-- The value if the rest takes u. -/
noncomputable def reached (c d h u : ℝ) : ℝ := h * ((1 - u / c) / (1 - u * d))

theorem reached_zero (c d h : ℝ) : reached c d h 0 = h := by simp [reached]

section Forward
variable {x g g' c d h u : ℝ} (inside : x ∈ Set.Ico 0 1) (term : g ∈ Set.Icc 0 1) (term' : g' ∈ Set.Icc 0 1)

section Term
include inside term

theorem term_room : 1 - x ≤ 1 - g * x ∧ 0 < 1 - g * x := by
  have small : g * x ≤ 1 * x := mul_le_mul_of_nonneg_right term.2 inside.1
  constructor <;> linarith [inside.2]

/-- The part that g leaves is no more than x of a denominator that is 1 - gx at least. -/
theorem share_le : (1 - g) * x ≤ x * (1 - g * x) := by
  have square : g * x * x ≤ g * x * 1 := mul_le_mul_of_nonneg_left inside.2.le (mul_nonneg term.1 inside.1)
  linarith

theorem Kept.start : Kept x g 1 (1 / (1 - g * x)) := by
  have room := (term_room inside term).2
  have part : 0 ≤ g * x := mul_nonneg term.1 inside.1
  have inverse : 1 ≤ 1 / (1 - g * x) := by
    rw [le_div_iff₀ room]
    linarith
  exact ⟨by linarith, le_rfl, inverse, (one_div_mul_cancel room.ne').le, by rwa [one_mul]⟩

end Term

section Kept
variable (kept : Kept x g c d)
include inside term kept

theorem Kept.c_positive : 0 < c := (term_room inside term).2.trans_le kept.c_low

theorem Kept.inverse_le : 1 / c ≤ d := by
  rw [div_le_iff₀ (kept.c_positive inside term), mul_comm]
  exact kept.cross

/-- What is taken later is at most x, of c as of the denominator. -/
theorem Kept.shares (nonneg : 0 ≤ u) (above : u ≤ (1 - g) * x) : u / c ≤ u * d ∧ u / c ≤ x ∧ u * d ≤ x := by
  have whole : u ≤ x * (1 - g * x) := above.trans (share_le inside term)
  refine ⟨?_, ?_, ?_⟩
  · have scaled := mul_le_mul_of_nonneg_left (kept.inverse_le inside term) nonneg
    rwa [mul_one_div] at scaled
  · rw [div_le_iff₀ (kept.c_positive inside term)]
    exact whole.trans (mul_le_mul_of_nonneg_left kept.c_low inside.1)
  · have scaled : u * d ≤ x * (1 - g * x) * d := mul_le_mul_of_nonneg_right whole (zero_le_one.trans kept.d_low)
    have one : x * (d * (1 - g * x)) ≤ x * 1 := mul_le_mul_of_nonneg_left kept.d_high inside.1
    linarith

/-- The terms that are left out multiply the value by a factor next to one. -/
theorem Kept.reached_bounds (positive : 0 < h) (nonneg : 0 ≤ u) (above : u ≤ (1 - g) * x) :
    h ≤ reached c d h u ∧ reached c d h u ≤ h * (1 + x / (1 - x) * (c * d - 1)) := by
  obtain ⟨order, c_share, d_share⟩ := kept.shares inside term nonneg above
  have c_pos := kept.c_positive inside term
  have x_room : 0 < 1 - x := sub_pos.mpr inside.2
  have room : 1 - x ≤ 1 - u * d := by linarith
  have room_pos : 0 < 1 - u * d := x_room.trans_le room
  have excess : 0 ≤ c * d - 1 := sub_nonneg.mpr kept.cross
  constructor
  · apply le_mul_of_one_le_right positive.le
    rw [le_div_iff₀ room_pos]
    linarith
  · apply mul_le_mul_of_nonneg_left _ positive.le
    rw [div_le_iff₀ room_pos]
    have difference : u * d - u / c = u / c * (c * d - 1) := by
      field_simp
    have part : u / c * (c * d - 1) ≤ x * (c * d - 1) := mul_le_mul_of_nonneg_right c_share excess
    have rate : x / (1 - x) * (c * d - 1) * (1 - x) = x * (c * d - 1) := by
      field_simp
    have scaled : x / (1 - x) * (c * d - 1) * (1 - x) ≤ x / (1 - x) * (c * d - 1) * (1 - u * d) :=
      mul_le_mul_of_nonneg_left room (mul_nonneg (div_nonneg inside.1 x_room.le) excess)
    linarith

include term'

theorem Kept.step : Kept x g' (1 + -((1 - g) * g' * x) / c) (1 / (1 + -((1 - g) * g' * x) * d)) := by
  obtain ⟨rest, room⟩ := term_room inside term'
  have part : 0 ≤ (1 - g) * x := mul_nonneg (sub_nonneg.mpr term.2) inside.1
  obtain ⟨order, c_share, d_share⟩ := kept.shares inside term part le_rfl
  have c_form : 1 + -((1 - g) * g' * x) / c = 1 - g' * ((1 - g) * x / c) := by ring
  have d_form : 1 + -((1 - g) * g' * x) * d = 1 - g' * ((1 - g) * x * d) := by ring
  have c_nonneg : 0 ≤ g' * ((1 - g) * x / c) := mul_nonneg term'.1 (div_nonneg part (kept.c_positive inside term).le)
  have c_scaled := mul_le_mul_of_nonneg_left c_share term'.1
  have d_scaled := mul_le_mul_of_nonneg_left d_share term'.1
  have scaled := mul_le_mul_of_nonneg_left order term'.1
  rw [c_form, d_form]
  have d_room : 0 < 1 - g' * ((1 - g) * x * d) := by linarith
  constructor
  · linarith
  · linarith
  · rw [le_div_iff₀ d_room]
    linarith
  · rw [one_div, inv_mul_le_one₀ d_room]
    linarith
  · rw [mul_one_div, le_div_iff₀ d_room]
    linarith

/-- How far the factor of a term is from one, against that of the term before. -/
theorem Kept.excess :
    (1 / (1 + -((1 - g) * g' * x) * d) * (1 + -((1 - g) * g' * x) / c) - 1) * (1 - g' * x) ≤ g' * x * (c * d - 1) := by
  have part : 0 ≤ (1 - g) * x := mul_nonneg (sub_nonneg.mpr term.2) inside.1
  obtain ⟨order, c_share, d_share⟩ := kept.shares inside term part le_rfl
  have d_scaled := mul_le_mul_of_nonneg_left d_share term'.1
  have room := (term_room inside term').2
  have c_pos := kept.c_positive inside term
  set t := 1 - g' * ((1 - g) * x * d) with t_def
  have t_low : 1 - g' * x ≤ t := by linarith
  have t_pos : 0 < t := room.trans_le t_low
  have form : 1 / (1 + -((1 - g) * g' * x) * d) * (1 + -((1 - g) * g' * x) / c) - 1 =
      g' * ((1 - g) * x / c) * (c * d - 1) / t := by
    have denominator : 1 + -((1 - g) * g' * x) * d = t := by rw [t_def]; ring
    rw [denominator]
    field_simp
    rw [t_def]
    ring
  have excess : 0 ≤ c * d - 1 := sub_nonneg.mpr kept.cross
  have top : g' * ((1 - g) * x / c) * (c * d - 1) ≤ g' * x * (c * d - 1) :=
    mul_le_mul_of_nonneg_right (mul_le_mul_of_nonneg_left c_share term'.1) excess
  have top_nonneg : 0 ≤ g' * x * (c * d - 1) := mul_nonneg (mul_nonneg term'.1 inside.1) excess
  rw [form]
  calc _ ≤ g' * x * (c * d - 1) / t * (1 - g' * x) :=
        mul_le_mul_of_nonneg_right (div_le_div_of_nonneg_right top t_pos.le) room.le
    _ ≤ g' * x * (c * d - 1) / t * t := mul_le_mul_of_nonneg_left t_low (div_nonneg top_nonneg t_pos.le)
    _ = g' * x * (c * d - 1) := div_mul_cancel₀ _ t_pos.ne'

/-- The forward recurrence takes one term off the rest. -/
theorem Kept.reached_step (nonneg : 0 ≤ u) (above : u ≤ (1 - g') * x) :
    reached (1 + -((1 - g) * g' * x) / c) (1 / (1 + -((1 - g) * g' * x) * d))
      (h * (1 / (1 + -((1 - g) * g' * x) * d) * (1 + -((1 - g) * g' * x) / c))) u =
    reached c d h ((1 - g) * g' * x / (1 - u)) := by
  have next := kept.step inside term term'
  have next_pos := next.c_positive inside term'
  have d_below := (next.shares inside term' nonneg above).2.2
  have c_pos := kept.c_positive inside term
  have u_pos : 0 < 1 - u := by
    have small : (1 - g') * x ≤ 1 * x := mul_le_mul_of_nonneg_right (by linarith [term'.1]) inside.1
    linarith [inside.2]
  have d_pos : 0 < 1 / (1 + -((1 - g) * g' * x) * d) := zero_lt_one.trans_le next.d_low
  set k := (1 - g) * g' * x
  set p := 1 + -k / c with p_def
  set q := 1 + -k * d with q_def
  have q_pos : 0 < q := one_div_pos.mp d_pos
  have q_room : 0 < q - u := by
    rw [mul_one_div, div_le_iff₀ q_pos] at d_below
    have scaled : x * q < 1 * q := mul_lt_mul_of_pos_right inside.2 q_pos
    linarith
  have left : h * (1 / q * p) * ((1 - u / p) / (1 - u * (1 / q))) = h * ((p - u) / (q - u)) := by
    have numerator : 1 - u / p = (p - u) / p := by rw [sub_div, div_self next_pos.ne']
    have denominator : 1 - u * (1 / q) = (q - u) / q := by rw [mul_one_div, sub_div, div_self q_pos.ne']
    rw [numerator, denominator]
    field_simp
  have numerator : 1 - k / (1 - u) / c = (p - u) / (1 - u) := by
    rw [p_def]
    field_simp
    ring
  have denominator : 1 - k / (1 - u) * d = (q - u) / (1 - u) := by
    rw [q_def]
    field_simp
    ring
  rw [reached, reached, left, numerator, denominator, div_div_div_cancel_right₀ u_pos.ne']

end Kept

section Value
variable {gs : List ℝ}

include inside in
/-- From the first term on the recurrence reaches the value of the fraction. -/
theorem reached_start (proper : Proper (g :: gs)) :
    reached 1 (1 / (1 - g * x)) (1 / (1 - g * x)) (rest x g gs) = value x (g :: gs) := by
  have room := (term_room inside proper.head).2
  have inner := rest_room inside proper
  have above := (rest_bounds inside proper).2
  have share := share_le inside proper.head
  have u_pos : 0 < 1 - rest x g gs := by linarith [inside.2]
  have below : rest x g gs < 1 - g * x := by
    have scaled : x * (1 - g * x) < 1 * (1 - g * x) := mul_lt_mul_of_pos_right inside.2 room
    linarith
  have whole : 0 < 1 - g * x - rest x g gs := by linarith
  have denominator : 1 - rest x g gs * (1 / (1 - g * x)) = (1 - g * x - rest x g gs) / (1 - g * x) := by
    rw [sub_div, div_self room.ne', mul_one_div]
  have turned : 1 - (1 - 0) * g * x / (1 - rest x g gs) = (1 - g * x - rest x g gs) / (1 - rest x g gs) := by
    field_simp
    ring
  rw [reached, value, rest, turned, denominator, div_one]
  field_simp

theorem Proper.whole (proper : Proper gs) : Proper (0 :: gs) := by
  rintro g (_ | ⟨_, member⟩)
  · exact ⟨le_rfl, zero_le_one⟩
  · exact proper g member

include inside in
theorem value_le (proper : Proper gs) : value x gs ≤ 1 / (1 - x) :=
  one_div_le_one_div_of_le (sub_pos.mpr inside.2) (rest_room inside proper.whole)

include inside in
theorem one_le_value (proper : Proper gs) : 1 ≤ value x gs := by
  have room := rest_room inside proper.whole
  have nonneg := (rest_bounds inside proper.whole).1
  rw [value, le_div_iff₀ (by linarith [inside.2])]
  linarith

theorem value_mono {y : ℝ} (low : 0 ≤ x) (order : x ≤ y) (high : y < 1) (proper : Proper gs) :
    value x gs ≤ value y gs := by
  have room := rest_room ⟨low.trans order, high⟩ proper.whole
  apply one_div_le_one_div_of_le (by linarith)
  linarith [rest_mono low order high proper.whole]

theorem value_lipschitz {y e : ℝ} (nonneg : 0 ≤ e) (rate : 1 + e / (4 * (1 - y)) ≤ e) (low : 0 ≤ x) (order : x ≤ y)
    (high : y < 1) (proper : Proper gs) : value y gs - value x gs ≤ e * (y - x) / ((1 - y) * (1 - y)) := by
  have grows := rest_lipschitz nonneg rate low order high proper.whole
  have more := rest_mono low order high proper.whole
  have y_room := rest_room ⟨low.trans order, high⟩ proper.whole
  have c_pos : 0 < 1 - y := sub_pos.mpr high
  have y_pos : 0 < 1 - rest y 0 gs := c_pos.trans_le y_room
  have x_room : 1 - y ≤ 1 - rest x 0 gs := by linarith
  have x_pos : 0 < 1 - rest x 0 gs := c_pos.trans_le x_room
  have difference : value y gs - value x gs =
      (rest y 0 gs - rest x 0 gs) / ((1 - rest y 0 gs) * (1 - rest x 0 gs)) := by
    rw [value, value]
    field_simp
    ring
  rw [difference]
  exact div_le_div₀ (mul_nonneg nonneg (sub_nonneg.mpr order)) grows (mul_pos c_pos c_pos)
    (mul_le_mul y_room x_room c_pos.le y_pos.le)

end Value
end Forward
end Chain
