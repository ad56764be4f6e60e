import ServMark.Types
import ServMark.Library.Shuffle
import ServMark.Library.Words

/-! The pointer chases of mem_latency.c and numa_latency.c over a memory of bytes. A pointer is
the address it holds; the array of slot numbers is apart from the buffer and is allocated. -/
namespace ServMark
open Shuffle Words

/-- sizeof(uintptr_t). -/
abbrev pointerSize : Nat := 8

/-- The address buf + slot * stride, the product that of two ints. -/
def slotAddress (buf stride slot : Nat) : Nat := ((buf + intMul slot stride) % 2 ^ 64).toNat

/-- The loop over i below slots - 1: the slot order[i] receives a pointer to order[i + 1]. -/
def linkSlots (mem : Nat → UInt8) (address order : Nat → Nat) (count : Nat) : Nat → UInt8 :=
  (List.range count).foldl
    (fun mem i => store mem pointerSize (address (order i)) (address (order (i + 1)))) mem

/-- Both functions from the array of slot numbers on. -/
def linkRound (mem : Nat → UInt8) (buf stride slots : Nat) (order : Nat → Nat) : Nat → UInt8 :=
  let address := slotAddress buf stride
  let mem := linkSlots mem address order (slots - 1)
  store mem pointerSize (address (order (slots - 1))) (address (order 0))

def setupPointerChase (rand : Nat → Nat) (mem : Nat → UInt8) (buf size stride : Nat) : Nat → UInt8 :=
  let numSlots := size / stride
  if numSlots < 2 then mem
  else linkRound mem buf stride numSlots (shuffle rand (numSlots - 1) (fun i => i))

/- Without a slot the first index of the loop wraps around, and it leaves the array. -/
def setupChase (rand : Nat → Nat) (mem : Nat → UInt8) (buf size stride : Nat) : Except Fault (Nat → UInt8) :=
  let slots := size / stride
  if slots = 0 then .error .overflow
  else .ok (linkRound mem buf stride slots (shuffle rand (slots - 1) (fun i => i)))

/-- One step of chase_latency and of the loops like it: p = *p. -/
def chase (mem : Nat → UInt8) (p : Nat) : Nat := load mem pointerSize p

/-- The walk from the first slot comes back after as many steps as there are slots, meets each of
them once on the way, and stays inside the buffer. -/
structure OneRound (mem : Nat → UInt8) (buf size stride : Nat) : Prop where
  returns : (chase mem)^[size / stride] buf = buf
  once : ∀ slot < size / stride, ∃! t, t < size / stride ∧ (chase mem)^[t] buf = buf + slot * stride
  inside : ∀ t, (∃ slot < size / stride, (chase mem)^[t] buf = buf + slot * stride) ∧
    buf ≤ (chase mem)^[t] buf ∧ (chase mem)^[t] buf + pointerSize ≤ buf + size

section Links
variable {address order : Nat → Nat} {n : Nat}

/-- Two slots have no byte in common. -/
def SlotsApart (address : Nat → Nat) (n : Nat) : Prop :=
  ∀ s < n, ∀ t < n, s ≠ t → address s + pointerSize ≤ address t ∨ address t + pointerSize ≤ address s

variable (apart : SlotsApart address n) (bij : Set.BijOn order (Set.Iio n) (Set.Iio n))
  (range : ∀ slot < n, address slot < 2 ^ 64)
include apart bij range

/-- A store to one slot leaves the pointers in the others. -/
theorem slot_store (mem : Nat → UInt8) {i j target : Nat} (first : i < n) (second : j < n) (pointer : target < n) :
    load (store mem pointerSize (address (order i)) (address target)) pointerSize (address (order j)) =
      if j = i then address target else load mem pointerSize (address (order j)) := by
  split
  · rename_i same
    rw [same, load_store]
    exact Nat.mod_eq_of_lt (range target pointer)
  · rename_i other
    have slots : order i ≠ order j := fun eq => other (bij.injOn second first eq.symm)
    exact load_apart (apart _ (bij.mapsTo first) _ (bij.mapsTo second) slots) mem _

theorem linkSlots_load (mem : Nat → UInt8) {count : Nat} (inside : count < n) {j : Nat} (linked : j < count) :
    load (linkSlots mem address order count) pointerSize (address (order j)) = address (order (j + 1)) := by
  induction count with
  | zero => exact absurd linked (Nat.not_lt_zero j)
  | succ count ih =>
    rw [linkSlots, List.range_succ, List.foldl_append, ← linkSlots, List.foldl_cons, List.foldl_nil,
      slot_store apart bij range _ (by omega) (by omega) (bij.mapsTo (show count + 1 < n from inside))]
    split
    · rename_i same
      rw [same]
    · exact ih (by omega) (by omega)

end Links

section Slots
variable {buf size stride : Nat} (room : pointerSize ≤ stride) (ints : (size / stride - 1) * stride ≤ intMax)
  (space : buf + size ≤ 2 ^ 64)
include room

theorem stride_positive : 0 < stride := lt_of_lt_of_le (by decide) room

include ints space

theorem slotAddress_eq {slot : Nat} (inside : slot < size / stride) :
    slotAddress buf stride slot = buf + slot * stride ∧ buf + slot * stride + stride ≤ buf + size := by
  have end_ : (slot + 1) * stride ≤ size :=
    (Nat.mul_le_mul_right stride inside).trans (Nat.div_mul_le_self size stride)
  have positive := stride_positive room
  have product : slot * stride ≤ intMax := (Nat.mul_le_mul_right stride (by omega)).trans ints
  rw [Nat.add_mul, Nat.one_mul] at end_
  have below : ((buf + slot * stride : Nat) : Int) % 2 ^ 64 = (buf + slot * stride : Nat) :=
    Int.emod_eq_of_lt (by omega) (by norm_cast; omega)
  constructor
  · rw [slotAddress, intMul_exact product]
    push_cast at below ⊢
    rw [below]
    omega
  · omega

theorem slots_apart : SlotsApart (slotAddress buf stride) (size / stride) := by
  intro s first t second other
  rw [(slotAddress_eq room ints space first).1, (slotAddress_eq room ints space second).1]
  rcases Nat.lt_or_gt_of_ne other with less | greater
  · have := Nat.mul_le_mul_right stride less
    rw [Nat.succ_mul] at this
    omega
  · have := Nat.mul_le_mul_right stride greater
    rw [Nat.succ_mul] at this
    omega

section Order
variable (mem : Nat → UInt8) {order : Nat → Nat}
  (bij : Set.BijOn order (Set.Iio (size / stride)) (Set.Iio (size / stride)))
include bij

/-- The slot of place i holds the address of the next, and the last one that of the first. -/
theorem linkRound_links {i : Nat} (inside : i < size / stride) :
    chase (linkRound mem buf stride (size / stride) order) (slotAddress buf stride (order i)) =
      slotAddress buf stride (order ((i + 1) % (size / stride))) := by
  have range : ∀ slot < size / stride, slotAddress buf stride slot < 2 ^ 64 := by
    intro slot below
    have fits := slotAddress_eq room ints space below
    have positive := stride_positive room
    omega
  have apart := slots_apart room ints space
  have some_ : 0 < size / stride := by omega
  have last : size / stride - 1 < size / stride := by omega
  simp only [chase, linkRound, slot_store apart bij range _ last inside (bij.mapsTo some_)]
  split
  · rename_i same
    rw [same, Nat.sub_add_cancel some_, Nat.mod_self]
  · rename_i other
    rw [linkSlots_load apart bij range mem last (by omega), Nat.mod_eq_of_lt (by omega)]

theorem slots_single : Set.InjOn (fun i => slotAddress buf stride (order i)) (Set.Iio (size / stride)) := by
  intro i first j second same
  have slots : order i = order j := by
    have equal : buf + order i * stride = buf + order j * stride := by
      rw [← (slotAddress_eq room ints space (bij.mapsTo first)).1,
        ← (slotAddress_eq room ints space (bij.mapsTo second)).1]
      exact same
    exact Nat.eq_of_mul_eq_mul_right (stride_positive room) (Nat.add_left_cancel equal)
  exact bij.injOn first second slots

/-- An order that names every slot once gives one round. -/
theorem linkRound_round (some_ : 0 < size / stride) :
    OneRound (linkRound mem buf stride (size / stride) order) buf size stride := by
  have address : ∀ slot < size / stride, slotAddress buf stride slot = buf + slot * stride :=
    fun slot inside => (slotAddress_eq room ints space inside).1
  have single := slots_single room ints space bij
  -- the cell i of the round is the slot order[i]
  let cell := fun i => slotAddress buf stride (order i)
  have links : ∀ i < size / stride,
      chase (linkRound mem buf stride (size / stride) order) (cell i) = cell ((i + 1) % (size / stride)) :=
    fun i inside => linkRound_links room ints space mem bij inside
  obtain ⟨start, inside, first⟩ := bij.surjOn (Set.mem_Iio.mpr some_)
  have begins : cell start = buf := by
    simp only [cell, first]
    rw [address 0 some_, Nat.zero_mul, Nat.add_zero]
  refine ⟨?_, fun slot below => ?_, fun t => ?_⟩
  · have back := round_returns links inside
    rwa [begins] at back
  · obtain ⟨j, within, named⟩ := bij.surjOn (Set.mem_Iio.mpr below)
    have met := round_once links single inside within
    rw [begins] at met
    simpa only [cell, named, address slot below] using met
  · have place : (start + t) % (size / stride) < size / stride := Nat.mod_lt _ some_
    have slot : order ((start + t) % (size / stride)) < size / stride := bij.mapsTo place
    have walk := round_walk links inside t
    rw [begins] at walk
    have fits := slotAddress_eq room ints space slot
    rw [walk]
    refine ⟨⟨_, slot, fits.1⟩, ?_⟩
    simp only [cell, fits.1]
    omega

end Order

end Slots

theorem slot_numbers (rand : Nat → Nat) {n : Nat} (some_ : 0 < n) :
    Set.BijOn (shuffle rand (n - 1) (fun i => i)) (Set.Iio n) (Set.Iio n) :=
  shuffle_bijOn (Set.bijOn_id _) (by omega) rand

/-- Both chases are one round over all slots of the buffer, whatever rand returns. -/
theorem pointer_chase_one_round (rand : Nat → Nat) (mem : Nat → UInt8) (buf size stride : Nat)
    (slots : 2 ≤ size / stride) (room : pointerSize ≤ stride) (ints : (size / stride - 1) * stride ≤ intMax)
    (space : buf + size ≤ 2 ^ 64) :
    OneRound (setupPointerChase rand mem buf size stride) buf size stride ∧
      ∃ mem', setupChase rand mem buf size stride = .ok mem' ∧ OneRound mem' buf size stride := by
  have round := linkRound_round room ints space mem (slot_numbers rand (by omega)) (by omega)
  refine ⟨?_, _, if_neg (by omega), round⟩
  rw [setupPointerChase]
  exact (if_neg (show ¬ size / stride < 2 by omega)) ▸ round

theorem pointer_chase_one_round_lines :
    OneRound (setupPointerChase (fun call => 7 * call) (fun _ => 0) 4096 256 64) 4096 256 64 :=
  (pointer_chase_one_round (fun call => 7 * call) (fun _ => 0) 4096 256 64 (by decide) (by decide) (by decide)
    (by decide)).1

end ServMark
