import Mathlib.Tactic

/-! An array of fixed capacity filled from its first cell on: a store that finds it full
changes nothing. Where the program keeps the index of the next cell apart from the array, the
store goes to that index, and fails outside the array. -/
namespace Bounded
variable {α β : Type}

def push (capacity : Nat) (xs : List α) (x : α) : List α :=
  if xs.length < capacity then xs ++ [x] else xs

theorem push_take (capacity : Nat) (xs : List α) (x : α) :
    push capacity (xs.take capacity) x = (xs ++ [x]).take capacity := by
  unfold push
  split
  · rename_i room
    have short : xs.length < capacity := by simp at room; omega
    rw [List.take_of_length_le (by omega), List.take_of_length_le (by simp; omega)]
  · rename_i full
    have long : capacity ≤ xs.length := by simp at full; omega
    rw [List.take_append_of_le_length long]

/-- A loop that stores one value after the other keeps the first of them. -/
theorem foldl_push (capacity : Nat) (xs vs : List α) :
    vs.foldl (push capacity) (xs.take capacity) = (xs ++ vs).take capacity := by
  induction vs generalizing xs with
  | nil => simp
  | cons v vs ih => rw [List.foldl_cons, push_take, ih, List.append_assoc, List.singleton_append]

theorem foldl_pushes (capacity : Nat) (f : β → List α) (xs : List α) (items : List β) :
    items.foldl (fun all item => (f item).foldl (push capacity) all) (xs.take capacity) =
      (xs ++ items.flatMap f).take capacity := by
  induction items generalizing xs with
  | nil => simp
  | cons item items ih => rw [List.foldl_cons, foldl_push, ih, List.flatMap_cons, List.append_assoc]

/-- One value more among the first leaves them as they are if it is the one that follows, in every place
there is. -/
theorem take_inserted {capacity : Nat} {xs ys : List α} {x : α} :
    (xs ++ x :: ys).take capacity = (xs ++ ys).take capacity ↔
      ∀ i, xs.length + i < capacity → ys[i]? = some x := by
  constructor
  · intro same
    have cells : ∀ i, xs.length + i < capacity → (x :: ys)[i]? = ys[i]? := by
      intro i room
      have cell := congrArg (·[xs.length + i]?) same
      simpa only [List.getElem?_take, if_pos room, List.getElem?_append_right (Nat.le_add_right _ _),
        Nat.add_sub_cancel_left] using cell
    intro i
    induction i with
    | zero => exact fun room => (cells 0 room).symm
    | succ i ih => exact fun room => (cells (i + 1) room).symm.trans (ih (by omega))
  · intro all
    apply List.ext_getElem?
    intro n
    simp only [List.getElem?_take]
    split
    · rename_i room
      rcases Nat.lt_or_ge n xs.length with before | behind
      · simp only [List.getElem?_append_left before]
      · obtain ⟨i, rfl⟩ := Nat.exists_eq_add_of_le behind
        simp only [List.getElem?_append_right behind, Nat.add_sub_cancel_left]
        rw [all i room]
        cases i with
        | zero => rfl
        | succ i => exact all i (by omega)
    · rfl

theorem take_replaced {capacity : Nat} {xs ys : List α} {x y : α} (other : x ≠ y) :
    (xs ++ x :: ys).take capacity = (xs ++ y :: ys).take capacity ↔ capacity ≤ xs.length := by
  constructor
  · intro same
    by_contra room
    have cell := congrArg (·[xs.length]?) same
    simp only [List.getElem?_take, if_pos (Nat.lt_of_not_le room)] at cell
    simp at cell
    exact other cell
  · intro full
    simp only [List.take_append_of_le_length full]

/-- A value gets in if its item lists it before the array is full. -/
theorem mem_take_flatMap {capacity : Nat} {f : β → List α} {items : List β} {x : α} :
    x ∈ (items.flatMap f).take capacity ↔ ∃ before item after, items = before ++ item :: after ∧
      x ∈ (f item).take (capacity - (before.flatMap f).length) := by
  induction items generalizing capacity with
  | nil => simp
  | cons item items ih =>
    rw [List.flatMap_cons, List.take_append, List.mem_append, ih]
    constructor
    · rintro (first | ⟨before, later, after, rfl, within⟩)
      · exact ⟨[], item, items, rfl, by simpa using first⟩
      · refine ⟨item :: before, later, after, rfl, ?_⟩
        rwa [List.flatMap_cons, List.length_append, ← Nat.sub_sub]
    · rintro ⟨before, later, after, split, within⟩
      cases before with
      | nil =>
        obtain ⟨rfl, rfl⟩ := List.cons.inj split
        exact Or.inl (by simpa using within)
      | cons first before =>
        obtain ⟨rfl, rfl⟩ := List.cons.inj split
        refine Or.inr ⟨before, later, after, rfl, ?_⟩
        rwa [List.flatMap_cons, List.length_append, ← Nat.sub_sub] at within

/-- The cells of an allocated array, none where nothing was stored, and the index of the next. -/
structure Cells (α : Type) where
  cells : List (Option α)
  count : Nat

def Cells.fresh (size : Nat) : Cells α := ⟨List.replicate size none, 0⟩

def Cells.put (a : Cells α) (x : α) : Option (Cells α) :=
  if a.count < a.cells.length then some ⟨a.cells.set a.count (some x), a.count + 1⟩ else none

def Cells.map (f : α → β) (a : Cells α) : Cells β := ⟨a.cells.map (Option.map f), a.count⟩

/-- The array that holds these values, with room for so many more. -/
def Cells.holding (xs : List α) (free : Nat) : Cells α := ⟨xs.map some ++ List.replicate free none, xs.length⟩

theorem Cells.fresh_holding (size : Nat) : Cells.fresh size = Cells.holding ([] : List α) size := rfl

theorem Cells.put_holding (xs : List α) (x : α) (free : Nat) :
    (Cells.holding xs (free + 1)).put x = some (Cells.holding (xs ++ [x]) free) := by
  have inside : (Cells.holding xs (free + 1)).count < (Cells.holding xs (free + 1)).cells.length := by
    simp [Cells.holding]
  have stored : (xs.map some ++ List.replicate (free + 1) none).set xs.length (some x) =
      (xs ++ [x]).map some ++ List.replicate free none := by
    rw [List.set_append_right _ _ (by simp), List.length_map, Nat.sub_self, List.replicate_succ,
      List.set_cons_zero, List.map_append, List.append_assoc]
    rfl
  rw [Cells.put, if_pos inside]
  simp only [Cells.holding, stored, List.length_append, List.length_singleton]

theorem Cells.map_holding (f : α → β) (xs : List α) (free : Nat) :
    (Cells.holding xs free).map f = Cells.holding (xs.map f) free := by
  simp [Cells.map, Cells.holding, Function.comp_def]

theorem Cells.holding_stored (xs : List α) (free : Nat) :
    (Cells.holding xs free).cells.take (Cells.holding xs free).count = xs.map some := by
  simp [Cells.holding]

end Bounded
