import Mathlib.Tactic

/-! The shuffle that exchanges each cell with one in front of it or itself, and what follows a
closed round of links. -/
namespace Shuffle
variable {β : Type}

/-- The cells i and j exchanged. -/
def exchange (order : Nat → β) (i j : Nat) : Nat → β :=
  Function.update (Function.update order i (order j)) j (order i)

/-- The loop from a cell down to cell one, each turn with the next random number. -/
def shuffle (rand : Nat → Nat) : Nat → (Nat → β) → Nat → β
  | 0, order => order
  | i + 1, order => shuffle (fun call => rand (call + 1)) i (exchange order (i + 1) (rand 0 % (i + 2)))

theorem exchange_eq (order : Nat → β) (i j : Nat) : exchange order i j = order ∘ Equiv.swap i j := by
  funext k
  simp only [exchange, Function.update_apply, Function.comp_apply, Equiv.swap_apply_def]
  split_ifs <;> simp_all

theorem exchange_bijOn {n i j : Nat} {order : Nat → β} {cells : Set β} (bij : Set.BijOn order (Set.Iio n) cells)
    (first : i < n) (second : j < n) : Set.BijOn (exchange order i j) (Set.Iio n) cells := by
  rw [exchange_eq]
  exact bij.comp (Equiv.swap_bijOn_self (iff_of_true first second))

/-- Whatever the random numbers, the cells are permuted. -/
theorem shuffle_bijOn {n i : Nat} {order : Nat → β} {cells : Set β} (bij : Set.BijOn order (Set.Iio n) cells)
    (inside : i < n) (rand : Nat → Nat) : Set.BijOn (shuffle rand i order) (Set.Iio n) cells := by
  induction i generalizing rand order with
  | zero => exact bij
  | succ i ih =>
    have below : rand 0 % (i + 2) < n := (Nat.mod_lt _ (by omega)).trans_le inside
    exact ih (exchange_bijOn bij inside below) (by omega) _

section Round
variable {next : β → β} {n : Nat} {cell : Nat → β} (links : ∀ i < n, next (cell i) = cell ((i + 1) % n))
include links

theorem round_walk {k : Nat} (inside : k < n) (t : Nat) : next^[t] (cell k) = cell ((k + t) % n) := by
  induction t with
  | zero => rw [Nat.add_zero, Nat.mod_eq_of_lt inside, Function.iterate_zero_apply]
  | succ t ih =>
    rw [Function.iterate_succ_apply', ih, links _ (Nat.mod_lt _ (by omega)), Nat.mod_add_mod, Nat.add_assoc]

theorem round_returns {k : Nat} (inside : k < n) : next^[n] (cell k) = cell k := by
  rw [round_walk links inside, Nat.add_mod_right, Nat.mod_eq_of_lt inside]

/-- A walk of n steps meets every cell once. -/
theorem round_once (single : Set.InjOn cell (Set.Iio n)) {k j : Nat} (start : k < n) (inside : j < n) :
    ∃! t, t < n ∧ next^[t] (cell k) = cell j := by
  have meets : ∀ t, next^[t] (cell k) = cell j ↔ (k + t) % n = j := by
    intro t
    rw [round_walk links start]
    exact single.eq_iff (Nat.mod_lt _ (by omega)) inside
  have place : (k + (j + n - k) % n) % n = j := by
    rw [Nat.add_mod_mod, show k + (j + n - k) = j + n by omega, Nat.add_mod_right, Nat.mod_eq_of_lt inside]
  refine ⟨(j + n - k) % n, ⟨Nat.mod_lt _ (by omega), (meets _).mpr place⟩, ?_⟩
  rintro t ⟨below, met⟩
  have same : (k + t) % n = (k + (j + n - k) % n) % n := ((meets t).mp met).trans place.symm
  have equal : t ≡ (j + n - k) % n [MOD n] := Nat.ModEq.add_left_cancel' k same
  rwa [Nat.ModEq, Nat.mod_eq_of_lt below, Nat.mod_mod] at equal

end Round
end Shuffle
