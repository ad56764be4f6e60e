import Mathlib.Data.Int.Range
import Mathlib.Tactic

/-! What a loop over a list has computed in its accumulator: the largest value, the items of
a kind, and their number; and an array each of whose cells the loop has replaced. -/
namespace Loops
variable {α β : Type}

section Most
variable [LinearOrder α] (f : β → α)

/-- The loop "if (f(x) > most) most = f(x)". -/
def most (start : α) (items : List β) : α := items.foldl (fun most x => if f x > most then f x else most) start

theorem most_cons (start : α) (x : β) (items : List β) :
    most f start (x :: items) = most f (max start (f x)) items := by
  have next : (if f x > start then f x else start) = max start (f x) := (max_def_lt _ _).symm
  rw [most, List.foldl_cons, next, most]

theorem le_most (items : List β) (start : α) :
    start ≤ most f start items ∧ ∀ x ∈ items, f x ≤ most f start items := by
  induction items generalizing start with
  | nil => simp [most]
  | cons y items ih =>
    obtain ⟨above, all⟩ := ih (max start (f y))
    rw [most_cons]
    refine ⟨(le_max_left _ _).trans above, List.forall_mem_cons.mpr ⟨(le_max_right _ _).trans above, all⟩⟩

/-- The largest value is the one at the start or that of an item. -/
theorem most_reached (items : List β) (start : α) :
    most f start items = start ∨ ∃ x ∈ items, f x = most f start items := by
  induction items generalizing start with
  | nil => exact Or.inl rfl
  | cons y items ih =>
    rw [most_cons]
    rcases ih (max start (f y)) with same | ⟨x, later, eq⟩
    · rw [same]
      exact (max_choice start (f y)).imp_right (fun own => ⟨y, List.mem_cons_self, own.symm⟩)
    · exact Or.inr ⟨x, List.mem_cons_of_mem _ later, eq⟩

end Most

variable (p : β → Prop) [DecidablePred p]

theorem foldl_collect (items start : List β) :
    items.foldl (fun list x => if p x then list ++ [x] else list) start = start ++ items.filter p := by
  induction items generalizing start with
  | nil => simp
  | cons x items ih =>
    rw [List.foldl_cons, ih]
    by_cases own : p x <;> simp [own]

theorem foldl_count (items : List β) (start : Nat) :
    items.foldl (fun count x => if p x then count + 1 else count) start = start + (items.filter p).length := by
  induction items generalizing start with
  | nil => rfl
  | cons x items ih =>
    rw [List.foldl_cons, ih]
    by_cases own : p x
    · simp [own]
      omega
    · simp [own]

/-- The loop that replaces the cells below n, each from what it held. -/
theorem foldl_cells (f : Nat → α → α) (n : Nat) (cells : Nat → α) (c : Nat) :
    (List.range n).foldl (fun cells i => Function.update cells i (f i (cells i))) cells c =
      if c < n then f c (cells c) else cells c := by
  induction n with
  | zero => rfl
  | succ n ih =>
    rw [List.range_succ, List.foldl_append, List.foldl_cons, List.foldl_nil]
    rcases Nat.lt_trichotomy c n with before | same | after
    · rw [Function.update_of_ne (Nat.ne_of_lt before), ih, if_pos before, if_pos (by omega)]
    · subst same
      rw [Function.update_self, ih, if_neg (Nat.lt_irrefl c), if_pos (Nat.lt_succ_self c)]
    · rw [Function.update_of_ne (Nat.ne_of_gt after), ih, if_neg (by omega), if_neg (by omega)]

/-- The loop that leaves in its accumulator the value at the last index of a kind. -/
theorem foldl_last (q : Nat → Prop) [DecidablePred q] (f : Nat → α) (start : α) (n : Nat) :
    let last := (List.range n).foldl (fun held i => if q i then f i else held) start
    ((∀ i < n, ¬ q i) ∧ last = start) ∨
      ∃ j < n, q j ∧ (∀ i, j < i → i < n → ¬ q i) ∧ last = f j := by
  induction n with
  | zero => exact Or.inl ⟨fun i below => absurd below (Nat.not_lt_zero i), rfl⟩
  | succ n ih =>
    rw [List.range_succ, List.foldl_append, List.foldl_cons, List.foldl_nil]
    by_cases own : q n
    · exact Or.inr ⟨n, Nat.lt_succ_self n, own, fun i above below => absurd below (by omega), if_pos own⟩
    · simp only [if_neg own]
      rcases ih with ⟨none, same⟩ | ⟨j, below, holds, later, same⟩
      · refine Or.inl ⟨fun i inside => ?_, same⟩
        rcases Nat.lt_succ_iff_lt_or_eq.mp inside with before | rfl
        · exact none i before
        · exact own
      · refine Or.inr ⟨j, by omega, holds, fun i above inside => ?_, same⟩
        rcases Nat.lt_succ_iff_lt_or_eq.mp inside with before | rfl
        · exact later i above before
        · exact own

/-- A loop whose every turn changes each cell by itself changes each cell by a loop of its own. -/
theorem foldl_pointwise {ι κ : Type} {step : (κ → α) → ι → κ → α} (turn : ι → κ → α → α)
    (own : ∀ cells i c, step cells i c = turn i c (cells c)) (items : List ι) (cells : κ → α) (c : κ) :
    items.foldl step cells c = items.foldl (fun value i => turn i c value) (cells c) := by
  induction items generalizing cells with
  | nil => rfl
  | cons i items ih => rw [List.foldl_cons, ih, own, List.foldl_cons]

/-- A loop that acts in one turn only. -/
theorem foldl_once (turn : Nat → α → α) (q n : Nat) (start : α) :
    (List.range n).foldl (fun value i => if i = q then turn i value else value) start =
      if q < n then turn q start else start := by
  induction n with
  | zero => rfl
  | succ n ih =>
    rw [List.range_succ, List.foldl_append, ih, List.foldl_cons, List.foldl_nil]
    rcases Nat.lt_trichotomy q n with before | rfl | after
    · rw [if_pos before, if_neg (Nat.ne_of_gt before), if_pos (Nat.lt_succ_of_lt before)]
    · rw [if_pos rfl, if_neg (Nat.lt_irrefl q), if_pos (Nat.lt_succ_self q)]
    · rw [if_neg (Nat.ne_of_lt after), if_neg (by omega), if_neg (by omega)]

/-- The cells from r on, each replaced from what it held. -/
theorem foldl_block (turn : Nat → α → α) (r m : Nat) (cells : Nat → α) (c : Nat) :
    (List.range m).foldl (fun cells j => Function.update cells (r + j) (turn j (cells (r + j)))) cells c =
      if r ≤ c ∧ c < r + m then turn (c - r) (cells c) else cells c := by
  rw [foldl_pointwise (fun j c value => if j = c - r then if r ≤ c then turn j value else value else value)]
  · rw [foldl_once (fun j value => if r ≤ c then turn j value else value)]
    split_ifs <;> first | rfl | omega
  · intro cells j c
    by_cases own : c = r + j
    · subst own
      rw [Function.update_self, Nat.add_sub_cancel_left, if_pos rfl, if_pos (Nat.le_add_right r j)]
    · rw [Function.update_of_ne own]
      split_ifs <;> first | rfl | omega

/-- A loop over rows of one width, each turn of which changes the cells of its own row only. -/
theorem foldl_rows {step : (Nat → α) → Nat → Nat → α} {width : Nat} (turn : Nat → Nat → α → α)
    (own : ∀ cells y c, step cells y c =
      if y * width ≤ c ∧ c < y * width + width then turn y (c - y * width) (cells c) else cells c)
    (rows : Nat) (cells : Nat → α) (c : Nat) :
    (List.range rows).foldl step cells c =
      if c < rows * width then turn (c / width) (c % width) (cells c) else cells c := by
  rw [foldl_pointwise (fun y c value => if y * width ≤ c ∧ c < y * width + width then turn y (c - y * width) value
    else value) own]
  rcases Nat.eq_zero_or_pos width with rfl | positive
  · simp only [Nat.mul_zero, Nat.add_zero, Nat.not_lt_zero, and_false, if_false, List.foldl_fixed]
  · have split := Nat.div_add_mod c width
    have rest := Nat.mod_lt c positive
    rw [Nat.mul_comm] at split
    have inside : ∀ y, (y * width ≤ c ∧ c < y * width + width) ↔ y = c / width := by
      intro y
      rw [eq_comm, Nat.div_eq_iff positive]
      omega
    have below : c / width < rows ↔ c < rows * width := Nat.div_lt_iff_lt_mul positive
    have left : c - c / width * width = c % width := by omega
    simp only [inside]
    rw [foldl_once (fun y value => turn y (c - y * width) value)]
    simp only [below, left]

/-- A loop over ints meets each once. -/
theorem range_nodup (m n : Int) : (Int.range m n).Nodup :=
  List.Nodup.map (fun a b eq => by simpa using eq) List.nodup_range

/-- What a loop that meets each item once keeps is a list of the kept items, in some order. -/
theorem kept_perm {items kept : List α} (once : items.Nodup) (single : kept.Nodup) {p : α → Bool}
    (same : ∀ x, x ∈ items ∧ p x = true ↔ x ∈ kept) : (items.filter p).Perm kept :=
  (List.perm_ext_iff_of_nodup (once.filter _) single).mpr (fun x => List.mem_filter.trans (same x))

end Loops
