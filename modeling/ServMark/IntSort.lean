import ServMark.Library.CountingSort

/-! The radix sort of int_sort.c, least significant digit first, with one buffer to sort and one
to work in. An int counts no more than the n values, so no counter overflows. -/
namespace ServMark
open CountingSort

abbrev radixBits : Nat := 8
abbrev radixSize : Nat := 2 ^ radixBits
abbrev radixMask : UInt64 := 255

/-- (x >> shift) & RADIX_MASK -/
def radixDigit (shift : Nat) (x : UInt64) : Nat := ((x >>> UInt64.ofNat shift) &&& radixMask).toNat

inductive SortBuffer where
  | first | second
deriving DecidableEq

/-- The two buffers, the pointers to them, and the cells stored to so far. -/
structure RadixState where
  memory : SortBuffer → Nat → UInt64
  src : SortBuffer
  dst : SortBuffer
  writes : List (SortBuffer × Nat)

def firstCells (n : Nat) (a : Nat → UInt64) : List UInt64 := (List.range n).map a

/-- What src points to. -/
def RadixState.items (n : Nat) (s : RadixState) : List UInt64 := firstCells n (s.memory s.src)

/-- One turn of the loop over the shifts; at its end the pointers change places. -/
def radixPass (n : Nat) (s : RadixState) (shift : Nat) : RadixState :=
  let stores := sortStores (radixDigit shift) (s.items n)
  { memory := Function.update s.memory s.dst (Stores.apply stores (s.memory s.dst))
    src := s.dst
    dst := s.src
    writes := s.writes ++ stores.map (fun store => (s.dst, store.1)) }

/-- The state after so many turns. -/
def radixPasses (n : Nat) (memory : SortBuffer → Nat → UInt64) (turns : Nat) : RadixState :=
  ((List.range turns).map (fun turn => turn * radixBits)).foldl (radixPass n) ⟨memory, .first, .second, []⟩

/- The shifts are 0, 8, ..., 56. -/
def lsbRadixSort (n : Nat) (memory : SortBuffer → Nat → UInt64) : RadixState :=
  radixPasses n memory (64 / radixBits)

theorem radixPasses_succ (n : Nat) (memory : SortBuffer → Nat → UInt64) (turns : Nat) :
    radixPasses n memory (turns + 1) = radixPass n (radixPasses n memory turns) (turns * radixBits) := by
  simp [radixPasses, List.range_succ]

theorem radixDigit_eq {shift : Nat} (small : shift < 64) (x : UInt64) :
    radixDigit shift x = x.toNat / 2 ^ shift % radixSize := by
  have amount : (UInt64.ofNat shift).toNat = shift :=
    UInt64.toNat_ofNat_of_lt (small.trans (by decide))
  have mask : radixMask.toNat = 2 ^ radixBits - 1 := rfl
  rw [radixDigit, UInt64.toNat_and, UInt64.toNat_shiftRight, amount, Nat.mod_eq_of_lt small, mask,
    Nat.and_two_pow_sub_one_eq_mod, Nat.shiftRight_eq_div_pow]

theorem radixDigit_lt (shift : Nat) (x : UInt64) : radixDigit shift x < radixSize := by
  have mask : radixMask.toNat = 2 ^ radixBits - 1 := rfl
  rw [radixDigit, UInt64.toNat_and, mask, Nat.and_two_pow_sub_one_eq_mod]
  exact Nat.mod_lt _ (by decide)

theorem items_length (n : Nat) (s : RadixState) : (s.items n).length = n := by simp [RadixState.items, firstCells]

/-- One turn sorts by its digit and leaves the values of a digit in their order. -/
theorem radixPass_stable (n : Nat) (s : RadixState) (shift : Nat) :
    StableBy (radixDigit shift) (s.items n) ((radixPass n s shift).items n) := by
  have stable := sort_stable (fun x (_ : x ∈ s.items n) => radixDigit_lt shift x) (s.memory s.dst)
  rw [items_length] at stable
  simpa [RadixState.items, radixPass, firstCells] using stable

/-- Sorted by the digits below a shift. -/
def SortedBelow (shift : Nat) (items : List UInt64) : Prop :=
  items.Pairwise (fun x y => x.toNat % 2 ^ shift ≤ y.toNat % 2 ^ shift)

theorem sortedBelow_step {shift : Nat} (small : shift < 64) {before after : List UInt64}
    (stable : StableBy (radixDigit shift) before after) (sorted : SortedBelow shift before) :
    SortedBelow (shift + radixBits) after := by
  have split : ∀ x : UInt64, x.toNat % 2 ^ (shift + radixBits) =
      x.toNat % 2 ^ shift + 2 ^ shift * radixDigit shift x := by
    intro x
    rw [pow_add, Nat.mod_mul, radixDigit_eq small]
  refine (stable.refines sorted).imp (fun {x y} order => ?_)
  rw [split, split]
  rcases order with less | ⟨same, le⟩
  · have low := Nat.mod_lt x.toNat (show 0 < 2 ^ shift by positivity)
    have high : 2 ^ shift * (radixDigit shift x + 1) ≤ 2 ^ shift * radixDigit shift y :=
      Nat.mul_le_mul_left _ less
    rw [Nat.mul_add, Nat.mul_one] at high
    omega
  · rw [same]
    omega

/-- What holds after so many turns. -/
structure RadixSorted (n : Nat) (memory : SortBuffer → Nat → UInt64) (turns : Nat) (s : RadixState) : Prop where
  sorted : SortedBelow (turns * radixBits) (s.items n)
  perm : (s.items n).Perm (firstCells n (memory .first))
  inside : ∀ write ∈ s.writes, write.2 < n
  parity : s.src = if turns % 2 = 0 then .first else .second
  apart : s.dst = if turns % 2 = 0 then .second else .first

theorem radixSorted_start (n : Nat) (memory : SortBuffer → Nat → UInt64) :
    RadixSorted n memory 0 (radixPasses n memory 0) := by
  refine ⟨?_, List.Perm.refl _, by simp [radixPasses], rfl, rfl⟩
  simp only [SortedBelow, Nat.zero_mul, pow_zero, Nat.mod_one, le_refl]
  exact List.pairwise_of_forall (fun _ _ => trivial)

theorem radixSorted_step {n turns : Nat} {memory : SortBuffer → Nat → UInt64} {s : RadixState}
    (inv : RadixSorted n memory turns s) (more : turns < 64 / radixBits) :
    RadixSorted n memory (turns + 1) (radixPass n s (turns * radixBits)) := by
  have stable := radixPass_stable n s (turns * radixBits)
  refine ⟨?_, stable.perm.trans inv.perm, ?_, ?_, ?_⟩
  · rw [Nat.add_mul, Nat.one_mul]
    exact sortedBelow_step (by simp [radixBits] at more ⊢; omega) stable inv.sorted
  · intro write member
    rcases List.mem_append.mp member with before | now
    · exact inv.inside write before
    · obtain ⟨store, among, rfl⟩ := List.mem_map.mp now
      simpa only [items_length] using sort_inside (s.items n) store among
  · rw [show (radixPass n s (turns * radixBits)).src = s.dst from rfl, inv.apart]
    split_ifs <;> first | rfl | omega
  · rw [show (radixPass n s (turns * radixBits)).dst = s.src from rfl, inv.parity]
    split_ifs <;> first | rfl | omega

theorem radixSorted_run (n : Nat) (memory : SortBuffer → Nat → UInt64) {turns : Nat} (within : turns ≤ 64 / radixBits) :
    RadixSorted n memory turns (radixPasses n memory turns) := by
  induction turns with
  | zero => exact radixSorted_start n memory
  | succ turns ih =>
    rw [radixPasses_succ]
    exact radixSorted_step (ih (by omega)) (by omega)

/-- The values end in the buffer of the caller, in ascending order. -/
theorem lsb_radix_sort_in_place (n : Nat) (memory : SortBuffer → Nat → UInt64) :
    (firstCells n ((lsbRadixSort n memory).memory .first)).Pairwise (· ≤ ·) ∧
      (firstCells n ((lsbRadixSort n memory).memory .first)).Perm (firstCells n (memory .first)) ∧
      (∀ write ∈ (lsbRadixSort n memory).writes, write.2 < n) ∧
      ∀ turn < 64 / radixBits, StableBy (radixDigit (turn * radixBits))
        ((radixPasses n memory turn).items n) ((radixPasses n memory (turn + 1)).items n) := by
  have inv : RadixSorted n memory (64 / radixBits) (lsbRadixSort n memory) := radixSorted_run n memory le_rfl
  have src : (lsbRadixSort n memory).src = .first := inv.parity
  have items : (lsbRadixSort n memory).items n = firstCells n ((lsbRadixSort n memory).memory .first) := by
    rw [RadixState.items, src]
  refine ⟨?_, items ▸ inv.perm, inv.inside, fun turn _ => ?_⟩
  · rw [← items]
    refine inv.sorted.imp (fun {x y} le => UInt64.le_iff_toNat_le.mpr ?_)
    simpa only [radixBits, Nat.reduceDiv, Nat.reduceMul, Nat.mod_eq_of_lt (UInt64.toNat_lt _)] using le
  · rw [radixPasses_succ]
    exact radixPass_stable n _ _

example : firstCells 3 ((lsbRadixSort 3 (fun _ i => if i = 0 then 515 else 257)).memory .first) =
    [257, 257, 515] := by decide +kernel

end ServMark
