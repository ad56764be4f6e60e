import Mathlib.Tactic

/-! A memory of bytes and the words that memcpy stores in it and loads from it, lowest byte
first. -/
namespace Words

def load (mem : Nat → UInt8) : Nat → Nat → Nat
  | 0, _ => 0
  | width + 1, a => (mem a).toNat + 256 * load mem width (a + 1)

def store (mem : Nat → UInt8) : Nat → Nat → Nat → Nat → UInt8
  | 0, _, _ => mem
  | width + 1, a, value => store (Function.update mem a (UInt8.ofNat value)) width (a + 1) (value / 256)

theorem store_outside {width a i : Nat} (outside : i < a ∨ a + width ≤ i) (mem : Nat → UInt8) (value : Nat) :
    store mem width a value i = mem i := by
  induction width generalizing mem a value with
  | zero => rfl
  | succ width ih =>
    have other : i ≠ a := by omega
    rw [store, ih (by omega), Function.update_of_ne other]

theorem load_congr {width a : Nat} {mem mem' : Nat → UInt8}
    (same : ∀ i, a ≤ i → i < a + width → mem i = mem' i) : load mem width a = load mem' width a := by
  induction width generalizing a with
  | zero => rfl
  | succ width ih =>
    rw [load, load, same a le_rfl (by omega), ih (fun i lower upper => same i (by omega) (by omega))]

/-- A word is loaded as it was stored, as far as it fits. -/
theorem load_store (mem : Nat → UInt8) (width a value : Nat) :
    load (store mem width a value) width a = value % 256 ^ width := by
  induction width generalizing mem a value with
  | zero => rw [load, pow_zero, Nat.mod_one]
  | succ width ih =>
    have first : store mem (width + 1) a value a = UInt8.ofNat value := by
      rw [store, store_outside (by omega), Function.update_self]
    have byte : (UInt8.ofNat value).toNat = value % 256 := UInt8.toNat_ofNat'
    rw [load, first, byte, store, ih, pow_succ', Nat.mod_mul]

theorem load_apart {width a b : Nat} (apart : a + width ≤ b ∨ b + width ≤ a) (mem : Nat → UInt8) (value : Nat) :
    load (store mem width a value) width b = load mem width b :=
  load_congr (fun i lower upper => store_outside (by omega) mem value)

end Words
