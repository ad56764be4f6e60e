import Mathlib.Data.Nat.Prime.Basic
import Mathlib.Tactic

/-! What a sieve keeps once the primes below some number have struck out their multiples, each from
its square on: up to the square of that number these are the primes. -/
namespace Sifting

/-- No prime below p has struck out j. -/
def Kept (p j : Nat) : Prop := 2 ≤ j ∧ ∀ q, q.Prime → q < p → q ∣ j → j < q * q

theorem kept_two (j : Nat) : Kept 2 j ↔ 2 ≤ j := by
  refine and_iff_left_of_imp (fun _ q prime less => ?_)
  exact absurd prime.two_le (not_le.mpr less)

theorem kept_prime {p j : Nat} (prime : j.Prime) : Kept p j := by
  refine ⟨prime.two_le, fun q factor _ divides => ?_⟩
  rw [(Nat.prime_dvd_prime_iff_eq factor prime).mp divides]
  exact Nat.lt_mul_self_iff.mpr prime.one_lt

/-- A composite number is struck out by its least factor. -/
theorem kept_below {p j : Nat} (below : j < p * p) : Kept p j ↔ j.Prime := by
  refine ⟨fun kept => ?_, kept_prime⟩
  by_contra composite
  have factor := Nat.minFac_prime (show j ≠ 1 by have := kept.1; omega)
  have square : j.minFac * j.minFac ≤ j := by
    rw [← sq]
    exact Nat.minFac_sq_le_self (by have := kept.1; omega) composite
  have less : j.minFac < p := Nat.mul_self_lt_mul_self_iff.mp (square.trans_lt below)
  exact absurd (kept.2 _ factor less (Nat.minFac_dvd j)) (not_lt.mpr square)

/-- So the number whose turn it is has been kept exactly if it is prime. -/
theorem kept_self {p : Nat} (two : 2 ≤ p) : Kept p p ↔ p.Prime := kept_below (Nat.lt_mul_self_iff.mpr two)

/-- The turn of a prime strikes out its multiples from its square on. -/
theorem kept_succ_prime {p : Nat} (prime : p.Prime) (j : Nat) :
    Kept (p + 1) j ↔ Kept p j ∧ ¬ (p * p ≤ j ∧ p ∣ j) := by
  constructor
  · rintro ⟨two, free⟩
    refine ⟨⟨two, fun q factor less => free q factor (Nat.lt_succ_of_lt less)⟩, ?_⟩
    rintro ⟨from_, divides⟩
    exact absurd (free p prime (Nat.lt_succ_self p) divides) (not_lt.mpr from_)
  · rintro ⟨⟨two, free⟩, own⟩
    refine ⟨two, fun q factor less divides => ?_⟩
    rcases Nat.lt_succ_iff_lt_or_eq.mp less with before | rfl
    · exact free q factor before divides
    · exact not_le.mp (fun from_ => own ⟨from_, divides⟩)

/-- The turn of another number strikes out nothing. -/
theorem kept_succ_other {p : Nat} (composite : ¬ p.Prime) (j : Nat) : Kept (p + 1) j ↔ Kept p j := by
  refine and_congr_right (fun _ => forall_congr' (fun q => ?_))
  refine imp_congr_right (fun factor => ?_)
  have less : q < p + 1 ↔ q < p := by
    have other : q ≠ p := fun same => composite (same ▸ factor)
    omega
  rw [less]

end Sifting
