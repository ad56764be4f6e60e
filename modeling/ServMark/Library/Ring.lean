import Mathlib.Tactic

/-! A ring of cells with two cursors: the cells from one cursor up to the other, cyclically,
hold a queue of at most size - 1 values, which grows at one end and shrinks at the other. -/
namespace Ring
variable {α : Type}

def next (size i : Nat) : Nat := (i + 1) % size

/-- The number of cells from head up to tail. -/
def used (size head tail : Nat) : Nat := if head ≤ tail then tail - head else tail + size - head

def window (size : Nat) (items : Nat → α) (start len : Nat) : List α :=
  (List.range len).map (fun i => items ((start + i) % size))

def contents (size : Nat) (items : Nat → α) (head tail : Nat) : List α :=
  window size items head (used size head tail)

/-- A queue of bounded length: it stays, takes a value at its end or gives up its first one. -/
inductive FifoStep (capacity : Nat) : List α → List α → Prop
  | stay (queue : List α) : FifoStep capacity queue queue
  | push (queue : List α) (x : α) (room : queue.length < capacity) : FifoStep capacity queue (queue ++ [x])
  | pop (x : α) (queue : List α) : FifoStep capacity (x :: queue) queue

section Cursors
variable {size head tail : Nat}

theorem next_eq {i : Nat} (inside : i < size) : next size i = if i + 1 = size then 0 else i + 1 := by
  unfold next
  split
  · rename_i wraps
    simp only [wraps, Nat.mod_self]
  · exact Nat.mod_eq_of_lt (by omega)

theorem next_lt {i : Nat} (inside : i < size) : next size i < size := Nat.mod_lt _ (by omega)

theorem next_ne {i : Nat} (inside : i < size) (several : 1 < size) : next size i ≠ i := by
  rw [next_eq inside]
  split <;> omega

theorem next_inj {i j : Nat} (first : i < size) (second : j < size) : next size i = next size j ↔ i = j := by
  rw [next_eq first, next_eq second]
  split <;> split <;> omega

variable (head_in : head < size) (tail_in : tail < size)
include head_in tail_in

theorem used_lt : used size head tail < size := by
  unfold used
  split <;> omega

omit tail_in in
theorem used_eq_zero : used size head tail = 0 ↔ head = tail := by
  unfold used
  split <;> omega

theorem used_full : used size head tail = size - 1 ↔ next size tail = head := by
  rw [next_eq tail_in]
  unfold used
  split <;> split <;> omega

theorem used_push (room : next size tail ≠ head) : used size head (next size tail) = used size head tail + 1 := by
  rw [next_eq tail_in] at *
  unfold used
  split_ifs at * <;> omega

theorem used_pop (some_ : head ≠ tail) : used size head tail = used size (next size head) tail + 1 := by
  rw [next_eq head_in]
  unfold used
  split_ifs <;> omega

theorem slot_tail : (head + used size head tail) % size = tail := by
  unfold used
  split
  · rename_i ordered
    rw [Nat.add_sub_cancel' ordered, Nat.mod_eq_of_lt tail_in]
  · have around : head + (tail + size - head) = tail + size := by omega
    rw [around, Nat.add_mod_right, Nat.mod_eq_of_lt tail_in]

end Cursors

section Window
variable {size : Nat} (items : Nat → α)

theorem window_length (start len : Nat) : (window size items start len).length = len := by simp [window]

theorem window_push (start len : Nat) :
    window size items start (len + 1) = window size items start len ++ [items ((start + len) % size)] := by
  simp [window, List.range_succ]

theorem window_pop (start len : Nat) :
    window size items start (len + 1) = items (start % size) :: window size items (next size start) len := by
  simp only [window, List.range_succ_eq_map, List.map_cons, List.map_map, Nat.add_zero]
  refine congrArg _ (List.map_congr_left (fun i _ => congrArg items ?_))
  have shifted : start + (i + 1) = start + 1 + i := by omega
  rw [next, Nat.mod_add_mod, ← shifted]

/-- A store at the cell behind the last one leaves the window as it is. -/
theorem window_store {start len : Nat} (inside : start < size) (room : len < size) (x : α) :
    window size (Function.update items ((start + len) % size) x) start len = window size items start len := by
  refine List.map_congr_left (fun i member => Function.update_of_ne ?_ x items)
  have before : i < len := List.mem_range.mp member
  have slot : ∀ j, j < size → (start + j) % size = if start + j < size then start + j else start + j - size := by
    intro j within
    split
    · rename_i low
      exact Nat.mod_eq_of_lt low
    · rename_i high
      rw [Nat.mod_eq_sub_mod (by omega), Nat.mod_eq_of_lt (by omega)]
  rw [slot i (by omega), slot len room]
  split <;> split <;> omega

end Window

section Contents
variable {size head tail : Nat} (items : Nat → α) (head_in : head < size) (tail_in : tail < size)
include head_in tail_in

theorem contents_length : (contents size items head tail).length < size := by
  rw [contents, window_length]
  exact used_lt head_in tail_in

omit tail_in in
theorem contents_empty : contents size items head tail = [] ↔ head = tail := by
  rw [← List.length_eq_zero_iff, contents, window_length]
  exact used_eq_zero head_in

theorem contents_full : (contents size items head tail).length = size - 1 ↔ next size tail = head := by
  rw [contents, window_length]
  exact used_full head_in tail_in

theorem contents_store (x : α) :
    contents size (Function.update items tail x) head tail = contents size items head tail := by
  have kept := window_store items head_in (used_lt head_in tail_in) x
  rwa [slot_tail head_in tail_in] at kept

theorem contents_push (room : next size tail ≠ head) :
    contents size items head (next size tail) = contents size items head tail ++ [items tail] := by
  rw [contents, used_push head_in tail_in room, window_push, slot_tail head_in tail_in, contents]

theorem contents_pop (some_ : head ≠ tail) :
    contents size items head tail = items head :: contents size items (next size head) tail := by
  rw [contents, used_pop head_in tail_in some_, window_pop, Nat.mod_eq_of_lt head_in, contents]

end Contents
end Ring
