import ServMark.MannWhitney
import ServMark.Outliers

/-! The double loop that sorts two arrays in lockstep, in stats_detect_outliers and in
stats_mann_whitney: on the cells of both it is the exchange sort of their pairs. -/
namespace ServMark
open ExchangeSort

section Loop
variable {α γ : Type} [LinearOrder α]

/-- An array of values, and one of what goes along with them. -/
structure PairArrays (α γ : Type) where
  values : Nat → α
  companion : Nat → γ

def PairArrays.cells (n : Nat) (a : PairArrays α γ) : List (α × γ) :=
  (List.range n).map (fun k => (a.values k, a.companion k))

def PairArrays.store (i : Nat) (cell : α × γ) (a : PairArrays α γ) : PairArrays α γ :=
  ⟨Function.update a.values i cell.1, Function.update a.companion i cell.2⟩

/-- The body of the two loops. -/
def exchangeCells (i j : Nat) (a : PairArrays α γ) : PairArrays α γ :=
  if a.values i > a.values j then
    let td := a.values i
    let ti := a.companion i
    (a.store i (a.values j, a.companion j)).store j (td, ti)
  else a

/-- The inner loop: j runs from i + 1 up to n. -/
def exchangeRow (n i : Nat) (a : PairArrays α γ) : PairArrays α γ :=
  (List.range' (i + 1) (n - (i + 1))).foldl (fun a j => exchangeCells i j a) a

/-- The outer loop: i runs up to n - 1. -/
def exchangeLoop (n : Nat) (a : PairArrays α γ) : PairArrays α γ :=
  (List.range (n - 1)).foldl (fun a i => exchangeRow n i a) a

omit [LinearOrder α] in
@[simp] theorem cells_length (n : Nat) (a : PairArrays α γ) : (a.cells n).length = n := by simp [PairArrays.cells]

omit [LinearOrder α] in
theorem cells_getElem? {n k : Nat} (inside : k < n) (a : PairArrays α γ) :
    (a.cells n)[k]? = some (a.values k, a.companion k) := by
  rw [PairArrays.cells, List.getElem?_map, List.getElem?_range inside, Option.map_some]

omit [LinearOrder α] in
theorem cells_store (n i : Nat) (cell : α × γ) (a : PairArrays α γ) :
    (a.store i cell).cells n = (a.cells n).set i cell := by
  apply List.ext_getElem?
  intro k
  rcases Nat.lt_or_ge k n with inside | outside
  · rw [cells_getElem? inside, List.getElem?_set, cells_getElem? inside, cells_length]
    rcases eq_or_ne i k with rfl | other
    · simp [PairArrays.store, inside]
    · simp [PairArrays.store, other, Function.update_of_ne other.symm]
  · rw [List.getElem?_eq_none (by simpa using outside), List.getElem?_eq_none (by simpa using outside)]

/-- A cell and a later one change places if they are out of order. -/
theorem exchangeCells_cells {n : Nat} {a : PairArrays α γ} {front done rest : List (α × γ)} {held next : α × γ}
    (cells : a.cells n = front ++ held :: (done ++ next :: rest)) :
    (exchangeCells front.length (front.length + 1 + done.length) a).cells n =
      if held.1 > next.1 then front ++ next :: (done ++ held :: rest) else a.cells n := by
  have length := congrArg List.length cells
  rw [cells_length, List.length_append, List.length_cons, List.length_append, List.length_cons] at length
  have behind : front.length + 1 + done.length - front.length = done.length + 1 := by omega
  have first : (a.values front.length, a.companion front.length) = held := by
    have cell := cells_getElem? (show front.length < n by omega) a
    rw [cells, List.getElem?_append_right le_rfl, Nat.sub_self, List.getElem?_cons_zero] at cell
    exact (Option.some.inj cell).symm
  have second : (a.values (front.length + 1 + done.length), a.companion (front.length + 1 + done.length)) = next := by
    have cell := cells_getElem? (show front.length + 1 + done.length < n by omega) a
    rw [cells, List.getElem?_append_right (by omega), behind, List.getElem?_cons_succ,
      List.getElem?_append_right le_rfl, Nat.sub_self, List.getElem?_cons_zero] at cell
    exact (Option.some.inj cell).symm
  subst first second
  unfold exchangeCells
  split
  · dsimp only
    rw [cells_store, cells_store, cells, List.set_append_right _ _ le_rfl, Nat.sub_self, List.set_cons_zero,
      List.set_append_right _ _ (by omega), behind, List.set_cons_succ, List.set_append_right _ _ le_rfl, Nat.sub_self,
      List.set_cons_zero]
  · rfl

/-- The inner loop leaves in the cell what a pass over the later cells holds in the end. -/
theorem exchangeRow_cells {n : Nat} (rest : List (α × γ)) {a : PairArrays α γ} {front done : List (α × γ)}
    {held : α × γ} (cells : a.cells n = front ++ held :: (done ++ rest)) :
    ((List.range' (front.length + 1 + done.length) rest.length).foldl
        (fun a j => exchangeCells front.length j a) a).cells n =
      front ++ (ExchangeSort.pass held rest).1 :: (done ++ (ExchangeSort.pass held rest).2) := by
  induction rest generalizing a done held with
  | nil => exact cells
  | cons next rest ih =>
    have step := exchangeCells_cells cells
    rw [List.length_cons, List.range'_succ, List.foldl_cons, ExchangeSort.pass]
    split
    · rename_i greater
      rw [if_pos greater] at step
      have later := @ih _ (done ++ [held]) next (by simpa using step)
      simpa [Nat.add_assoc] using later
    · rename_i le
      rw [if_neg le, cells] at step
      have later := @ih _ (done ++ [next]) held (by simpa using step)
      simpa [Nat.add_assoc] using later

/-- The outer loop goes through the passes from where it stands. -/
theorem exchangeRows_cells {n : Nat} (m : Nat) {a : PairArrays α γ} {front rest : List (α × γ)}
    (cells : a.cells n = front ++ rest) (left : rest.length = m) :
    ((List.range' front.length (m - 1)).foldl (fun a i => exchangeRow n i a) a).cells n = front ++ passes m rest := by
  induction m generalizing a front rest with
  | zero => exact cells
  | succ m ih =>
    obtain ⟨held, later, rfl⟩ := List.exists_cons_of_length_eq_add_one left
    rw [List.length_cons, Nat.add_right_cancel_iff] at left
    cases m with
    | zero =>
      rw [List.eq_nil_of_length_eq_zero left] at cells ⊢
      exact cells
    | succ m =>
      have length := congrArg List.length cells
      rw [cells_length, List.length_append, List.length_cons] at length
      have count : n - (front.length + 1) = later.length := by omega
      have row : (exchangeRow n front.length a).cells n =
          front ++ (ExchangeSort.pass held later).1 :: (ExchangeSort.pass held later).2 := by
        rw [exchangeRow, count]
        exact @exchangeRow_cells _ _ _ n later a front [] held cells
      have next := @ih _ (front ++ [(ExchangeSort.pass held later).1]) (ExchangeSort.pass held later).2
        (by simpa using row)
        ((pass_length held later).trans left)
      rw [Nat.add_sub_cancel, List.range'_succ, List.foldl_cons]
      simpa [passes] using next

/-- The double loop is the exchange sort of the pairs of cells. -/
theorem exchangeLoop_cells (n : Nat) (a : PairArrays α γ) : (exchangeLoop n a).cells n = exchangeSort (a.cells n) := by
  have rows := @exchangeRows_cells _ _ _ n n a [] _ rfl (cells_length n a)
  rw [exchangeSort, cells_length, exchangeLoop, List.range_eq_range']
  exact rows

/-- After the double loop the values ascend, and the pairs are those there were. -/
theorem exchange_sort_pairs (n : Nat) (a : PairArrays α γ) :
    ((List.range n).map (exchangeLoop n a).values).Pairwise (· ≤ ·) ∧
      ((exchangeLoop n a).cells n).Perm (a.cells n) := by
  have sorted := exchangeSort_sorted (a.cells n)
  have values : ((exchangeLoop n a).cells n).map Prod.fst = (List.range n).map (exchangeLoop n a).values := by
    simp [PairArrays.cells, Function.comp_def]
  rw [← exchangeLoop_cells] at sorted
  rw [← values, List.pairwise_map]
  refine ⟨sorted, ?_⟩
  rw [exchangeLoop_cells]
  exact exchangeSort_perm _

end Loop

section Callers
variable {α : Type} [Field α] [LinearOrder α]

/-- The arrays as the two functions fill them before they sort. -/
def loaded (cells : List (α × Nat)) : PairArrays α Nat :=
  ⟨fun i => (cells.map Prod.fst).getD i 0, fun i => (cells.map Prod.snd).getD i 0⟩

omit [LinearOrder α] in
theorem loaded_cells (cells : List (α × Nat)) : (loaded cells).cells cells.length = cells := by
  apply List.ext_getElem?
  intro k
  rcases Nat.lt_or_ge k cells.length with inside | outside
  · rw [cells_getElem? inside, List.getElem?_eq_getElem inside]
    simp [loaded, inside]
  · rw [List.getElem?_eq_none (by simpa using outside), List.getElem?_eq_none outside]

/-- The arrays sorted and indices of stats_detect_outliers. -/
theorem indexed_sorted (values : List α) :
    (exchangeLoop values.length (loaded values.zipIdx)).cells values.length = indexed values := by
  have cells := loaded_cells values.zipIdx
  rw [List.length_zipIdx] at cells
  rw [exchangeLoop_cells, cells, indexed]

/-- The arrays combined and group of stats_mann_whitney. -/
theorem grouped_sorted (a b : List α) : (exchangeLoop (a.length + b.length) (loaded (grouped a b))).cells
    (a.length + b.length) = exchangeSort (grouped a b) := by
  have length : (grouped a b).length = a.length + b.length := by simp [grouped]
  rw [← length, exchangeLoop_cells, loaded_cells]

end Callers

end ServMark
