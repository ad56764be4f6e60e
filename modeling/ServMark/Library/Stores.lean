import Mathlib.Tactic

/-! The cells of an array after a sequence of stores into it: the last store to a cell
decides what the cell holds. -/
namespace Stores
variable {ι α β : Type} [DecidableEq ι]

def apply (stores : List (ι × α)) (cells : ι → α) : ι → α :=
  stores.foldl (fun cells store => Function.update cells store.1 store.2) cells

theorem apply_append (first second : List (ι × α)) (cells : ι → α) :
    apply (first ++ second) cells = apply second (apply first cells) := by
  simp only [apply, List.foldl_append]

/-- A cell holds what it held before or what some store put there. -/
theorem apply_mem (stores : List (ι × α)) (cells : ι → α) (i : ι) :
    apply stores cells i = cells i ∨ ∃ store ∈ stores, store.1 = i ∧ apply stores cells i = store.2 := by
  induction stores using List.reverseRecOn with
  | nil => exact Or.inl rfl
  | append_singleton stores store ih =>
    have last : apply (stores ++ [store]) cells i = if i = store.1 then store.2 else apply stores cells i := by
      simp only [apply_append]
      exact Function.update_apply _ _ _ _
    simp only [last]
    split
    · rename_i own
      exact Or.inr ⟨store, by simp, own.symm, rfl⟩
    · exact ih.imp_right (fun ⟨other, within, set_⟩ => ⟨other, List.mem_append_left _ within, set_⟩)

/-- Where no cell is stored to twice, every store lasts. -/
theorem apply_nodup {stores : List (ι × α)} (single : (stores.map Prod.fst).Nodup) (cells : ι → α) :
    ∀ store ∈ stores, apply stores cells store.1 = store.2 := by
  intro store member
  obtain ⟨before, after, rfl⟩ := List.append_of_mem member
  have later : store.1 ∉ after.map Prod.fst := by
    rw [List.map_append, List.map_cons, List.nodup_append] at single
    exact (List.nodup_cons.mp single.2.1).1
  rw [apply_append]
  rcases apply_mem after (Function.update (apply before cells) store.1 store.2) store.1 with same | ⟨other, within, eq, -⟩
  · exact same.trans (Function.update_self _ _ _)
  · exact absurd (List.mem_map.mpr ⟨other, within, eq⟩) later

/-- One value stored to several cells. -/
theorem apply_block (block : List ι) (value : α) (cells : ι → α) (i : ι) :
    apply (block.map (fun j => (j, value))) cells i = if i ∈ block then value else cells i := by
  induction block generalizing cells with
  | nil => rfl
  | cons j block ih =>
    rw [List.map_cons, apply, List.foldl_cons, ← apply, ih]
    rcases eq_or_ne i j with rfl | other
    · simp
    · simp [other]

/-- Blocks stored one after the other: the last block that names a cell decides. -/
theorem apply_blocks (items : List β) (block : β → List ι) (value : β → α) (cells : ι → α) (i : ι) :
    apply (items.flatMap (fun b => (block b).map (fun j => (j, value b)))) cells i =
      ((items.reverse.find? (fun b => i ∈ block b)).map value).getD (cells i) := by
  induction items generalizing cells with
  | nil => rfl
  | cons b items ih =>
    simp only [List.flatMap_cons, apply_append, ih, apply_block, List.reverse_cons, List.find?_append]
    cases items.reverse.find? (fun b => i ∈ block b) with
    | some later => rfl
    | none => by_cases named : i ∈ block b <;> simp [named]

end Stores
