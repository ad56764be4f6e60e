import ServMark.Library.Stores

/-! Counting sort: every item moves to the next free cell of its key, and the cells of a key
begin where those of the smaller keys end. -/
namespace CountingSort
variable {α : Type} (key : α → Nat)

/-- Sorted by the key, and items of one key in the order they had. -/
structure StableBy (before after : List α) : Prop where
  sorted : after.Pairwise (fun x y => key x ≤ key y)
  same : ∀ k, after.filter (fun x => key x = k) = before.filter (fun x => key x = k)

/-- The loop "count[key(x)]++". -/
def counts (items : List α) : Nat → Nat :=
  items.foldl (fun count x => Function.update count (key x) (count (key x) + 1)) (fun _ => 0)

/-- The loop "pos[k] = pos[k-1] + count[k-1]". -/
def positions (count : Nat → Nat) : Nat → Nat
  | 0 => 0
  | k + 1 => positions count k + count k

/-- The stores of the loop "dst[pos[key(x)]++] = x". -/
def placed (pos : Nat → Nat) : List α → List (Nat × α)
  | [] => []
  | x :: items => (pos (key x), x) :: placed (Function.update pos (key x) (pos (key x) + 1)) items

def sortStores (items : List α) : List (Nat × α) := placed key (positions (counts key items)) items

example : sortStores id [2, 0, 2, 1] = [(2, 2), (0, 0), (3, 2), (1, 1)] := by decide

variable {key}

theorem StableBy.perm [DecidableEq α] {before after : List α} (stable : StableBy key before after) :
    after.Perm before := by
  rw [List.perm_iff_count]
  intro x
  have own : ∀ items : List α, (items.filter (fun y => key y = key x)).count x = items.count x :=
    fun items => List.count_filter (by simp)
  rw [← own after, ← own before, stable.same]

/-- A stable sort refines the order that the items had. -/
theorem StableBy.refines {R : α → α → Prop} {before after : List α} (stable : StableBy key before after)
    (ordered : before.Pairwise R) : after.Pairwise (fun x y => key x < key y ∨ key x = key y ∧ R x y) := by
  have groups : ∀ k, (after.filter (fun x => key x = k)).Pairwise R := by
    intro k
    rw [stable.same]
    exact ordered.filter _
  have sorted := stable.sorted
  clear stable
  induction after with
  | nil => exact List.Pairwise.nil
  | cons x after ih =>
    obtain ⟨first, rest⟩ := List.pairwise_cons.mp sorted
    refine List.Pairwise.cons (fun y later => ?_) (ih (fun k => ?_) rest)
    · rcases (first y later).lt_or_eq with less | same
      · exact Or.inl less
      · have group := groups (key x)
        rw [List.filter_cons_of_pos (by simp), List.pairwise_cons] at group
        exact Or.inr ⟨same, group.1 y (List.mem_filter.mpr ⟨later, by simp [same]⟩)⟩
    · exact (groups k).sublist ((List.sublist_cons_self x after).filter _)

/- The two tables. -/

theorem counts_eq (items : List α) (k : Nat) : counts key items k = items.countP (fun x => key x = k) := by
  induction items using List.reverseRecOn with
  | nil => rfl
  | append_singleton items x ih =>
    rw [counts, List.foldl_append, ← counts, List.foldl_cons, List.foldl_nil, List.countP_append, ← ih]
    rcases eq_or_ne (key x) k with rfl | other
    · simp
    · simp [Function.update_of_ne other.symm, other]

theorem positions_eq (items : List α) (k : Nat) :
    positions (counts key items) k = items.countP (fun x => key x < k) := by
  induction k with
  | zero => simp [positions]
  | succ k ih =>
    rw [positions, ih, counts_eq]
    clear ih
    induction items with
    | nil => rfl
    | cons x items ih =>
      simp only [List.countP_cons, decide_eq_true_eq]
      split_ifs <;> omega

/- The stores. A key owns the cells from its position on, as many as items of it are left. -/

def Owns (key : α → Nat) (pos : Nat → Nat) (items : List α) (k i : Nat) : Prop :=
  pos k ≤ i ∧ i < pos k + items.countP (fun x => key x = k)

/-- The cells of a key end before those of a larger key begin. -/
def Apart (key : α → Nat) (pos : Nat → Nat) (items : List α) : Prop :=
  ∀ k l, k < l → pos k + items.countP (fun x => key x = k) ≤ pos l

section Step
variable {pos : Nat → Nat} {x : α} {items : List α}

theorem owns_step {k i : Nat} (owns : Owns key (Function.update pos (key x) (pos (key x) + 1)) items k i) :
    Owns key pos (x :: items) k i := by
  unfold Owns at owns ⊢
  rcases eq_or_ne k (key x) with rfl | other
  · rw [Function.update_self] at owns
    rw [List.countP_cons_of_pos (by simp)]
    omega
  · rw [Function.update_of_ne other] at owns
    rwa [List.countP_cons_of_neg (by simpa using other.symm)]

theorem owns_first : Owns key pos (x :: items) (key x) (pos (key x)) := by
  unfold Owns
  rw [List.countP_cons_of_pos (by simp)]
  omega

theorem apart_step (apart : Apart key pos (x :: items)) :
    Apart key (Function.update pos (key x) (pos (key x) + 1)) items := by
  intro k l less
  have old := apart k l less
  have grows : pos l ≤ Function.update pos (key x) (pos (key x) + 1) l := by
    rcases eq_or_ne l (key x) with rfl | other
    · simp
    · rw [Function.update_of_ne other]
  refine le_trans ?_ grows
  rcases eq_or_ne k (key x) with rfl | other
  · rw [List.countP_cons_of_pos (by simp)] at old
    rw [Function.update_self]
    omega
  · rw [List.countP_cons_of_neg (by simpa using other.symm)] at old
    rwa [Function.update_of_ne other]

/-- The cell of the first item is not stored to again. -/
theorem first_kept (apart : Apart key pos (x :: items)) (k : Nat) :
    ¬ Owns key (Function.update pos (key x) (pos (key x) + 1)) items k (pos (key x)) := by
  intro owns
  have own : Owns key pos (x :: items) k (pos (key x)) := owns_step owns
  have first : Owns key pos (x :: items) (key x) (pos (key x)) := owns_first
  unfold Owns at own first owns
  rcases Nat.lt_trichotomy k (key x) with less | rfl | greater
  · have := apart k (key x) less
    omega
  · rw [Function.update_self] at owns
    omega
  · have := apart (key x) k greater
    omega

end Step

theorem placed_owned (items : List α) (pos : Nat → Nat) :
    ∀ store ∈ placed key pos items, Owns key pos items (key store.2) store.1 := by
  induction items generalizing pos with
  | nil => simp [placed]
  | cons x items ih => exact List.forall_mem_cons.mpr ⟨owns_first, fun store later => owns_step (ih _ store later)⟩

theorem placed_frame (items : List α) (pos : Nat → Nat) (cells : Nat → α) {i : Nat}
    (free : ∀ k, ¬ Owns key pos items k i) : Stores.apply (placed key pos items) cells i = cells i := by
  rcases Stores.apply_mem (placed key pos items) cells i with same | ⟨store, member, rfl, -⟩
  · exact same
  · exact absurd (placed_owned items pos store member) (free _)

/-- The cells of a key receive its items in their order. -/
theorem placed_group {items : List α} {pos : Nat → Nat} (apart : Apart key pos items) (cells : Nat → α) (k : Nat) :
    (List.range (items.countP (fun x => key x = k))).map
      (fun j => Stores.apply (placed key pos items) cells (pos k + j)) = items.filter (fun x => key x = k) := by
  induction items generalizing pos cells with
  | nil => rfl
  | cons x items ih =>
    have rest := ih (apart_step apart) (Function.update cells (pos (key x)) x)
    have stored : Stores.apply (placed key pos (x :: items)) cells =
        Stores.apply (placed key (Function.update pos (key x) (pos (key x) + 1)) items)
          (Function.update cells (pos (key x)) x) := rfl
    rw [stored]
    rcases eq_or_ne (key x) k with rfl | other
    · have first := placed_frame items _ (Function.update cells (pos (key x)) x) (first_kept apart)
      rw [Function.update_self] at first rest
      rw [List.countP_cons_of_pos (by simp), List.filter_cons_of_pos (by simp), List.range_succ_eq_map,
        List.map_cons, List.map_map, ← rest]
      refine congrArg₂ List.cons first (List.map_congr_left (fun j _ => ?_))
      rw [Function.comp_apply, Nat.succ_eq_add_one, Nat.add_assoc, Nat.add_comm 1 j]
    · rw [Function.update_of_ne other.symm] at rest
      rw [List.countP_cons_of_neg (by simpa using other), List.filter_cons_of_neg (by simpa using other), rest]

theorem positions_apart (key : α → Nat) (items : List α) : Apart key (positions (counts key items)) items := by
  intro k l less
  rw [← counts_eq, ← positions, positions_eq, positions_eq]
  refine List.countP_mono_left (fun x _ small => ?_)
  simp only [decide_eq_true_eq] at small ⊢
  omega

/-- The items of the keys below a bound, key after key. -/
def buckets (key : α → Nat) (items : List α) (bound : Nat) : List α :=
  (List.range bound).flatMap (fun k => items.filter (fun x => key x = k))

theorem buckets_succ (items : List α) (bound : Nat) :
    buckets key items (bound + 1) = buckets key items bound ++ items.filter (fun x => key x = bound) := by
  simp [buckets, List.range_succ]

theorem mem_buckets {items : List α} {bound : Nat} {x : α} :
    x ∈ buckets key items bound ↔ x ∈ items ∧ key x < bound := by
  simp only [buckets, List.mem_flatMap, List.mem_range, List.mem_filter, decide_eq_true_eq]
  constructor
  · rintro ⟨k, below, member, rfl⟩
    exact ⟨member, below⟩
  · rintro ⟨member, below⟩
    exact ⟨key x, below, member, rfl⟩

theorem buckets_sorted (items : List α) (bound : Nat) :
    (buckets key items bound).Pairwise (fun x y => key x ≤ key y) := by
  induction bound with
  | zero => exact List.Pairwise.nil
  | succ bound ih =>
    rw [buckets_succ]
    refine List.pairwise_append.mpr ⟨ih, List.pairwise_of_forall_mem_list ?_, ?_⟩
    · intro x inX y inY
      simp only [List.mem_filter, decide_eq_true_eq] at inX inY
      rw [inX.2, inY.2]
    · intro x inX y inY
      have below := (mem_buckets.mp inX).2
      simp only [List.mem_filter, decide_eq_true_eq] at inY
      omega

theorem buckets_filter (items : List α) (bound k : Nat) : (buckets key items bound).filter (fun x => key x = k) =
    if k < bound then items.filter (fun x => key x = k) else [] := by
  induction bound with
  | zero => rfl
  | succ bound ih =>
    rw [buckets_succ, List.filter_append, ih, List.filter_filter]
    rcases Nat.lt_trichotomy k bound with less | rfl | greater
    · have none : items.filter (fun x => decide (key x = k) && decide (key x = bound)) = [] :=
        List.filter_eq_nil_iff.mpr (fun x _ => by simp; omega)
      rw [if_pos less, if_pos (by omega), none, List.append_nil]
    · rw [if_neg (Nat.lt_irrefl k), if_pos (Nat.lt_succ_self k), List.nil_append]
      exact List.filter_congr (fun x _ => by simp)
    · have none : items.filter (fun x => decide (key x = k) && decide (key x = bound)) = [] :=
        List.filter_eq_nil_iff.mpr (fun x _ => by simp; omega)
      rw [if_neg (by omega), if_neg (by omega), none, List.append_nil]

theorem buckets_stable {items : List α} {bound : Nat} (below : ∀ x ∈ items, key x < bound) :
    StableBy key items (buckets key items bound) := by
  refine ⟨buckets_sorted items bound, fun k => ?_⟩
  rw [buckets_filter]
  split
  · rfl
  · rename_i beyond
    refine (List.filter_eq_nil_iff.mpr (fun x member => ?_)).symm
    have := below x member
    simp only [decide_eq_true_eq]
    omega

theorem sort_buckets (items : List α) (cells : Nat → α) (bound : Nat) :
    (List.range (positions (counts key items) bound)).map (Stores.apply (sortStores key items) cells) =
      buckets key items bound := by
  induction bound with
  | zero => rfl
  | succ bound ih =>
    have group := placed_group (positions_apart key items) cells bound
    rw [positions, List.range_add, List.map_append, ih, List.map_map, buckets_succ, counts_eq, ← group]
    rfl

/-- The cells that the stores fill hold a stable sort of the items. -/
theorem sort_stable {items : List α} {bound : Nat} (below : ∀ x ∈ items, key x < bound) (cells : Nat → α) :
    StableBy key items ((List.range items.length).map (Stores.apply (sortStores key items) cells)) := by
  have all : positions (counts key items) bound = items.length := by
    rw [positions_eq, List.countP_eq_length]
    simpa using below
  rw [← all, sort_buckets]
  exact buckets_stable below

theorem sort_inside (items : List α) : ∀ store ∈ sortStores key items, store.1 < items.length := by
  intro store member
  have owns := placed_owned items _ store member
  have fits : positions (counts key items) (key store.2 + 1) ≤ items.length := by
    rw [positions_eq]
    exact List.countP_le_length
  rw [positions, counts_eq] at fits
  exact owns.2.trans_le fits

end CountingSort
