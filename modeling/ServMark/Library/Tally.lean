import Mathlib.Algebra.BigOperators.Fin
import Mathlib.Tactic

/-! The sum of a weight over the phases of several threads. When one thread moves, only its own
weight changes. -/
namespace Tally
variable {ι φ : Type} [Fintype ι]

def tally (weight : φ → Nat) (phases : ι → φ) : Nat := ∑ i, weight (phases i)

theorem tally_const {weight : φ → Nat} {phases : ι → φ} {c : Nat} (all : ∀ i, weight (phases i) = c) :
    tally weight phases = Fintype.card ι * c := by
  simp only [tally, all, Finset.sum_const, Finset.card_univ, smul_eq_mul]

theorem tally_le (weight : φ → Nat) {c : Nat} (most : ∀ x, weight x ≤ c) (phases : ι → φ) :
    tally weight phases ≤ Fintype.card ι * c := by
  have bound := Finset.sum_le_card_nsmul Finset.univ (fun i => weight (phases i)) c (fun i _ => most (phases i))
  rw [Finset.card_univ, smul_eq_mul] at bound
  exact bound

theorem le_tally (weight : φ → Nat) (phases : ι → φ) (i : ι) : weight (phases i) ≤ tally weight phases :=
  Finset.single_le_sum (f := fun i => weight (phases i)) (fun _ _ => Nat.zero_le _) (Finset.mem_univ i)

theorem tally_move [DecidableEq ι] (weight : φ → Nat) (phases : ι → φ) (i : ι) (x : φ) :
    tally weight (Function.update phases i x) + weight (phases i) = tally weight phases + weight x := by
  have others : ∑ j ∈ Finset.univ.erase i, weight (Function.update phases i x j) =
      ∑ j ∈ Finset.univ.erase i, weight (phases j) :=
    Finset.sum_congr rfl (fun j member => by rw [Function.update_of_ne (Finset.ne_of_mem_erase member)])
  unfold tally
  rw [← Finset.add_sum_erase _ _ (Finset.mem_univ i), ← Finset.add_sum_erase _ (fun j => weight (phases j))
    (Finset.mem_univ i), others, Function.update_self]
  omega

end Tally
