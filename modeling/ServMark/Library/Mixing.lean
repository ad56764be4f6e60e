import Mathlib.Data.BitVec
import Mathlib.Data.Nat.ModEq
import Mathlib.Tactic

/-! Steps of a hash function that lose nothing: a word is mixed with its own higher bits, or
multiplied by an odd number. -/
namespace Mixing
variable {w : Nat}

def xorShift (s : Nat) (x : BitVec w) : BitVec w := x ^^^ (x >>> s)

/-- A difference that its own shift hides would be no smaller than before the shift. -/
theorem xorShift_injective {s : Nat} (pos : 0 < s) : Function.Injective (xorShift s : BitVec w → BitVec w) := by
  intro x y same
  have zero : xorShift s x ^^^ xorShift s y = 0#w := BitVec.xor_eq_zero_iff.mpr same
  have fixed : x ^^^ y = (x ^^^ y) >>> s := by
    rw [← BitVec.xor_eq_zero_iff, ← zero, BitVec.ushiftRight_xor_distrib, xorShift, xorShift]
    ac_rfl
  have number := congrArg BitVec.toNat fixed
  rw [BitVec.toNat_ushiftRight, Nat.shiftRight_eq_div_pow] at number
  have none : (x ^^^ y).toNat = 0 := by
    by_contra some_
    exact (Nat.div_lt_self (Nat.pos_of_ne_zero some_) (Nat.one_lt_two_pow pos.ne')).ne' number
  exact BitVec.xor_eq_zero_iff.mp (BitVec.eq_of_toNat_eq none)

theorem mul_odd_injective {m : BitVec w} (odd : m.toNat % 2 = 1) : Function.Injective (fun x : BitVec w => x * m) := by
  intro x y same
  have number : x.toNat * m.toNat ≡ y.toNat * m.toNat [MOD 2 ^ w] := by
    have equal := congrArg BitVec.toNat same
    rwa [BitVec.toNat_mul, BitVec.toNat_mul] at equal
  have coprime : Nat.Coprime (2 ^ w) m.toNat := Nat.Coprime.pow_left w (Nat.coprime_two_left.mpr (Nat.odd_iff.mpr odd))
  have cancelled : x.toNat ≡ y.toNat [MOD 2 ^ w] := Nat.ModEq.cancel_right_of_coprime coprime number
  exact BitVec.eq_of_toNat_eq (cancelled.eq_of_lt_of_lt x.isLt y.isLt)

/- A sum of shifts is a product. -/

theorem add_shiftLeft (x m : BitVec w) (s : Nat) : x * m + x <<< s = x * (m + BitVec.twoPow w s) := by
  rw [BitVec.mul_add, BitVec.mul_twoPow_eq_shiftLeft]

theorem self_add_shiftLeft (x : BitVec w) (s : Nat) : x + x <<< s = x * (1#w + BitVec.twoPow w s) := by
  rw [← add_shiftLeft, BitVec.mul_one]

theorem not_add_shiftLeft (x : BitVec w) (s : Nat) : ~~~x + x <<< s = x * (BitVec.twoPow w s - 1#w) - 1#w := by
  rw [BitVec.not_eq_neg_add, BitVec.shiftLeft_eq_mul_twoPow, mul_sub, BitVec.mul_one]
  abel

end Mixing
