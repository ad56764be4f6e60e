import Mathlib.Data.List.Basic
import Mathlib.Logic.Function.Basic
import Mathlib.Tactic

/-! Open addressing with linear probing: a key stands at the first cell, cyclically from its own
one on, that was empty when it came. A table finds all its keys as long as no cell between a key
and its own cell is empty. -/
namespace Probing
variable {K V : Type}

/-- The cell at a distance from another one. -/
def cell (size start d : Nat) : Nat := (start + d) % size

section Cell
variable {size : Nat}

theorem cell_zero {start : Nat} (inside : start < size) : cell size start 0 = start := Nat.mod_eq_of_lt inside

theorem cell_shift (start d : Nat) : cell size (start + 1) d = cell size start (d + 1) := by
  unfold cell
  congr 1
  omega

theorem cell_next (start : Nat) : (cell size start 0 + 1) % size = cell size (start + 1) 0 := by
  simp only [cell, Nat.add_zero, Nat.mod_add_mod]

theorem cell_eq {start d : Nat} (inside : start < size) (near : d < size) :
    cell size start d = if start + d < size then start + d else start + d - size := by
  unfold cell
  split
  · rename_i low
    exact Nat.mod_eq_of_lt low
  · rename_i high
    rw [Nat.mod_eq_sub_mod (by omega), Nat.mod_eq_of_lt (by omega)]

theorem cell_inj {start d e : Nat} (inside : start < size) (near : d < size) (near' : e < size)
    (same : cell size start d = cell size start e) : d = e := by
  rw [cell_eq inside near, cell_eq inside near'] at same
  split_ifs at same <;> omega

theorem cell_reaches {start i : Nat} (inside : start < size) (within : i < size) :
    ∃ d, d < size ∧ cell size start d = i := by
  refine ⟨if start ≤ i then i - start else i + size - start, ?_, ?_⟩
  · split <;> omega
  · rw [cell_eq inside (by split <;> omega)]
    split_ifs <;> omega

end Cell

section Seek
variable [DecidableEq K]

/-- The first cell from i on that is empty or holds the key, if there is one that near. -/
def seek (size : Nat) (t : Nat → Option (K × V)) (k : K) : Nat → Nat → Option Nat
  | 0, _ => none
  | fuel + 1, i =>
    match t i with
    | none => some i
    | some p => if p.1 = k then some i else seek size t k fuel ((i + 1) % size)

theorem seek_stops {size fuel i h : Nat} {t : Nat → Option (K × V)} {k : K} (found : seek size t k fuel i = some h) :
    t h = none ∨ ∃ v, t h = some (k, v) := by
  induction fuel generalizing i with
  | zero => cases found
  | succ fuel ih =>
    unfold seek at found
    split at found
    · rename_i empty
      cases found
      exact Or.inl empty
    · rename_i p holds
      split at found
      · rename_i same
        cases found
        exact Or.inr ⟨p.2, by rw [holds, ← same]⟩
      · exact ih found

theorem seek_reaches {size start d fuel : Nat} {t : Nat → Option (K × V)} {k : K}
    (stop : t (cell size start d) = none ∨ ∃ v, t (cell size start d) = some (k, v))
    (before : ∀ e, e < d → ∃ p, t (cell size start e) = some p ∧ p.1 ≠ k) (enough : d < fuel) :
    seek size t k fuel (cell size start 0) = some (cell size start d) := by
  induction d generalizing start fuel with
  | zero =>
    obtain ⟨fuel, rfl⟩ : ∃ f, fuel = f + 1 := ⟨fuel - 1, by omega⟩
    unfold seek
    rcases stop with empty | ⟨v, holds⟩
    · simp only [empty]
    · simp only [holds, if_true]
  | succ d ih =>
    obtain ⟨fuel, rfl⟩ : ∃ f, fuel = f + 1 := ⟨fuel - 1, by omega⟩
    obtain ⟨p, holds, other⟩ := before 0 (by omega)
    unfold seek
    simp only [holds, if_neg other, cell_next, ← cell_shift start d]
    apply ih
    · rwa [cell_shift]
    · intro e earlier
      rw [cell_shift]
      exact before (e + 1) (by omega)
    · omega

end Seek

/-- Every key stands once, and no cell is empty between its own one and where it stands. -/
structure Chained (size : Nat) (home : K → Nat) (t : Nat → Option (K × V)) : Prop where
  inside : ∀ i p, t i = some p → i < size
  once : ∀ i j k v w, t i = some (k, v) → t j = some (k, w) → i = j
  chain : ∀ i k v, t i = some (k, v) →
    ∃ d, d < size ∧ i = cell size (home k) d ∧ ∀ e, e < d → t (cell size (home k) e) ≠ none

/-- No key is reached only through this cell. -/
def Clear (size : Nat) (home : K → Nat) (t : Nat → Option (K × V)) (i : Nat) : Prop :=
  ∀ j k v d, t j = some (k, v) → d < size → j = cell size (home k) d → ∀ e, e < d → cell size (home k) e ≠ i

/-- The table holds the entries of a map. -/
def Holds (t : Nat → Option (K × V)) (m : K → Option V) : Prop := ∀ k v, m k = some v ↔ ∃ i, t i = some (k, v)

section Tables
variable {size : Nat} {home : K → Nat} {t : Nat → Option (K × V)} {m : K → Option V}

theorem holds_absent (holds : Holds t m) {k : K} (absent : m k = none) (i : Nat) (v : V) : t i ≠ some (k, v) := by
  intro here
  have present := (holds k v).mpr ⟨i, here⟩
  rw [absent] at present
  cases present

/-- Where there are fewer keys than cells, a cell is empty. -/
theorem exists_empty (chained : Chained size home t) (holds : Holds t m)
    (fewer : ∀ ks : List K, ks.Nodup → (∀ k ∈ ks, m k ≠ none) → ks.length < size) : ∃ i, i < size ∧ t i = none := by
  by_contra full
  push Not at full
  have keys : ∀ i : Fin size, ∃ p, t i = some p := fun i => Option.ne_none_iff_exists'.mp (full i i.isLt)
  choose entry at_ using keys
  have apart : Function.Injective (fun i => (entry i).1) := by
    intro i j same
    have first : t i = some ((entry i).1, (entry i).2) := at_ i
    have second : t j = some ((entry i).1, (entry j).2) := by
      rw [at_ j, show (entry i).1 = (entry j).1 from same]
    exact Fin.ext (chained.once i j _ _ _ first second)
  have short := fewer ((List.finRange size).map (fun i => (entry i).1))
    ((List.nodup_map_iff apart).mpr (List.nodup_finRange size)) (fun k member absent => ?_)
  · simp at short
  · obtain ⟨i, _, rfl⟩ := List.mem_map.mp member
    exact holds_absent holds absent i (entry i).2 (at_ i)

theorem chained_insert (chained : Chained size home t) {d : Nat} {k : K} {v : V} (near : d < size)
    (home_in : home k < size) (path : ∀ e, e < d → t (cell size (home k) e) ≠ none)
    (own : ∀ p, t (cell size (home k) d) = some p → p.1 = k)
    (only : ∀ j w, t j = some (k, w) → j = cell size (home k) d) :
    Chained size home (Function.update t (cell size (home k) d) (some (k, v))) where
  inside := by
    intro i p here
    rcases eq_or_ne i (cell size (home k) d) with rfl | apart
    · exact Nat.mod_lt _ (by omega)
    · rw [Function.update_of_ne apart] at here
      exact chained.inside i p here
  once := by
    have home_only : ∀ i w, Function.update t (cell size (home k) d) (some (k, v)) i = some (k, w) →
        i = cell size (home k) d := by
      intro i w here
      rcases eq_or_ne i (cell size (home k) d) with same | apart
      · exact same
      · rw [Function.update_of_ne apart] at here
        exact only i w here
    intro i j key u w first second
    rcases eq_or_ne key k with rfl | other
    · rw [home_only i u first, home_only j w second]
    · have left : i ≠ cell size (home k) d := by
        rintro rfl
        rw [Function.update_self] at first
        exact other (Prod.mk.inj (Option.some.inj first)).1.symm
      have right : j ≠ cell size (home k) d := by
        rintro rfl
        rw [Function.update_self] at second
        exact other (Prod.mk.inj (Option.some.inj second)).1.symm
      rw [Function.update_of_ne left] at first
      rw [Function.update_of_ne right] at second
      exact chained.once i j key u w first second
  chain := by
    have kept : ∀ i, t i ≠ none → Function.update t (cell size (home k) d) (some (k, v)) i ≠ none := by
      intro i filled
      rcases eq_or_ne i (cell size (home k) d) with rfl | apart
      · simp
      · rwa [Function.update_of_ne apart]
    intro i key w here
    rcases eq_or_ne i (cell size (home k) d) with rfl | apart
    · rw [Function.update_self] at here
      obtain ⟨rfl, rfl⟩ := Prod.mk.inj (Option.some.inj here)
      exact ⟨d, near, rfl, fun e earlier => kept _ (path e earlier)⟩
    · rw [Function.update_of_ne apart] at here
      obtain ⟨c, close, rfl, filled⟩ := chained.chain i key w here
      exact ⟨c, close, rfl, fun e earlier => kept _ (filled e earlier)⟩

variable [DecidableEq K]

theorem seek_present (chained : Chained size home t) {i : Nat} {k : K} {v : V} (here : t i = some (k, v))
    (home_in : home k < size) {fuel : Nat} (enough : size ≤ fuel) : seek size t k fuel (home k) = some i := by
  obtain ⟨d, near, rfl, path⟩ := chained.chain i k v here
  have before : ∀ e, e < d → ∃ p, t (cell size (home k) e) = some p ∧ p.1 ≠ k := by
    intro e earlier
    obtain ⟨p, filled⟩ := Option.ne_none_iff_exists'.mp (path e earlier)
    refine ⟨p, filled, fun same => ?_⟩
    have again : t (cell size (home k) e) = some (k, p.2) := by rw [filled, ← same]
    have eq := cell_inj home_in (by omega) near (chained.once _ _ _ _ _ again here)
    omega
  have reached : seek size t k fuel (cell size (home k) 0) = some (cell size (home k) d) :=
    seek_reaches (Or.inr ⟨v, here⟩) before (by omega)
  rwa [cell_zero home_in] at reached

/-- A key that is not in the table is sought up to the first empty cell. -/
theorem seek_empty {k : K} (absent : ∀ i v, t i ≠ some (k, v)) (home_in : home k < size)
    (room : ∃ i, i < size ∧ t i = none) {fuel : Nat} (enough : size ≤ fuel) :
    ∃ d, d < size ∧ seek size t k fuel (home k) = some (cell size (home k) d) ∧ t (cell size (home k) d) = none ∧
      ∀ e, e < d → t (cell size (home k) e) ≠ none := by
  classical
  obtain ⟨i, within, empty⟩ := room
  obtain ⟨d, near, rfl⟩ := cell_reaches home_in within
  have some_ : ∃ d, t (cell size (home k) d) = none := ⟨d, empty⟩
  have least : Nat.find some_ ≤ d := Nat.find_min' some_ empty
  have filled : ∀ e, e < Nat.find some_ → t (cell size (home k) e) ≠ none := fun e earlier => Nat.find_min some_ earlier
  have before : ∀ e, e < Nat.find some_ → ∃ p, t (cell size (home k) e) = some p ∧ p.1 ≠ k := by
    intro e earlier
    obtain ⟨p, holds⟩ := Option.ne_none_iff_exists'.mp (filled e earlier)
    refine ⟨p, holds, fun same => absent (cell size (home k) e) p.2 ?_⟩
    rw [holds, ← same]
  have reached : seek size t k fuel (cell size (home k) 0) = some (cell size (home k) (Nat.find some_)) :=
    seek_reaches (Or.inl (Nat.find_spec some_)) before (by omega)
  rw [cell_zero home_in] at reached
  exact ⟨Nat.find some_, by omega, reached, Nat.find_spec some_, filled⟩

/-- The cell a key is sought at, in a table that holds what a map does. -/
theorem seek_finds (chained : Chained size home t) (holds : Holds t m) {k : K} (home_in : home k < size)
    {fuel : Nat} (enough : size ≤ fuel) : ((seek size t k fuel (home k)).bind t).map Prod.snd = m k := by
  cases present : m k with
  | some v =>
    obtain ⟨i, here⟩ := (holds k v).mp present
    rw [seek_present chained here home_in enough, Option.bind_some, here]
    rfl
  | none =>
    cases found : seek size t k fuel (home k) with
    | none => rfl
    | some i =>
      rcases seek_stops found with empty | ⟨v, here⟩
      · rw [Option.bind_some, empty]
        rfl
      · exact absurd here (holds_absent holds present i v)

theorem holds_insert (holds : Holds t m) {i : Nat} {k : K} {v : V} (own : ∀ p, t i = some p → p.1 = k)
    (only : ∀ j w, t j = some (k, w) → j = i) :
    Holds (Function.update t i (some (k, v))) (Function.update m k (some v)) := by
  intro key value
  rcases eq_or_ne key k with rfl | other
  · rw [Function.update_self, Option.some_inj]
    constructor
    · rintro rfl
      exact ⟨i, Function.update_self ..⟩
    · rintro ⟨j, here⟩
      rcases eq_or_ne j i with rfl | apart
      · rw [Function.update_self] at here
        exact (Prod.mk.inj (Option.some.inj here)).2
      · rw [Function.update_of_ne apart] at here
        exact absurd (only j value here) apart
  · rw [Function.update_of_ne other, holds key value]
    refine exists_congr (fun j => ?_)
    rcases eq_or_ne j i with rfl | apart
    · rw [Function.update_self]
      exact iff_of_false (fun here => other (own _ here))
        (fun here => other (Prod.mk.inj (Option.some.inj here)).1.symm)
    · rw [Function.update_of_ne apart]

/-- The cell at which a key is put in, and what the table is then. -/
theorem insert_sound (chained : Chained size home t) (holds : Holds t m) {k : K} (home_in : home k < size)
    (room : m k = none → ∃ i, i < size ∧ t i = none) {fuel : Nat} (enough : size ≤ fuel) (v : V) :
    ∃ i, seek size t k fuel (home k) = some i ∧ i < size ∧ Chained size home (Function.update t i (some (k, v))) ∧
      Holds (Function.update t i (some (k, v))) (Function.update m k (some v)) := by
  cases present : m k with
  | none =>
    have absent := holds_absent holds present
    obtain ⟨d, near, found, empty, path⟩ := seek_empty absent home_in (room present) enough
    have own : ∀ p, t (cell size (home k) d) = some p → p.1 = k := fun p here => by rw [empty] at here; cases here
    have only : ∀ j w, t j = some (k, w) → j = cell size (home k) d := fun j w here => absurd here (absent j w)
    exact ⟨_, found, Nat.mod_lt _ (by omega), chained_insert chained near home_in path own only,
      holds_insert holds own only⟩
  | some u =>
    obtain ⟨i, here⟩ := (holds k u).mp present
    have found := seek_present chained here home_in enough
    have own : ∀ p, t i = some p → p.1 = k := fun p again => by
      rw [here] at again
      rw [← Option.some.inj again]
    have only : ∀ j w, t j = some (k, w) → j = i := fun j w there => chained.once j i k w u there here
    obtain ⟨d, near, rfl, path⟩ := chained.chain i k u here
    exact ⟨_, found, Nat.mod_lt _ (by omega), chained_insert chained near home_in path own only,
      holds_insert holds own only⟩

/-- Taking a key out keeps all others findable if none is reached only through its cell. -/
theorem delete_sound (chained : Chained size home t) (holds : Holds t m) {i : Nat} {k : K} {v : V}
    (here : t i = some (k, v)) (clear : Clear size home t i) :
    Chained size home (Function.update t i none) ∧ Holds (Function.update t i none) (Function.update m k none) := by
  have stays : ∀ {j : Nat} {p : K × V}, Function.update t i none j = some p → j ≠ i ∧ t j = some p := by
    intro j p left
    rcases eq_or_ne j i with rfl | apart
    · rw [Function.update_self] at left
      cases left
    · exact ⟨apart, by rwa [Function.update_of_ne apart] at left⟩
  constructor
  · refine ⟨fun j p left => chained.inside j p (stays left).2, fun a b key u w first second =>
      chained.once a b key u w (stays first).2 (stays second).2, fun j key w left => ?_⟩
    have there := (stays left).2
    obtain ⟨d, near, rfl, path⟩ := chained.chain j key w there
    refine ⟨d, near, rfl, fun e earlier => ?_⟩
    rw [Function.update_of_ne (clear _ key w d there near rfl e earlier)]
    exact path e earlier
  · intro key value
    rcases eq_or_ne key k with rfl | other
    · rw [Function.update_self]
      refine iff_of_false (by simp) ?_
      rintro ⟨j, left⟩
      exact (stays left).1 (chained.once j i key value v (stays left).2 here)
    · rw [Function.update_of_ne other, holds key value]
      refine exists_congr (fun j => ⟨fun there => ?_, fun left => (stays left).2⟩)
      have apart : j ≠ i := by
        rintro rfl
        rw [here] at there
        exact other (Prod.mk.inj (Option.some.inj there)).1.symm
      rwa [Function.update_of_ne apart]

/-- A key that is reached only through an emptied cell is not found any more. -/
theorem broken_lost (chained : Chained size home t) {i j d e : Nat} {k : K} {v : V} (there : t j = some (k, v))
    (home_in : home k < size) (near : d < size) (at_ : j = cell size (home k) d) (earlier : e < d)
    (through : cell size (home k) e = i) {fuel : Nat} (enough : size ≤ fuel) :
    ((seek size (Function.update t i none) k fuel (home k)).bind (Function.update t i none)).map Prod.snd = none := by
  obtain ⟨c, close, same, path⟩ := chained.chain j k v there
  have eq : c = d := cell_inj home_in close near (same.symm.trans at_)
  have apart : ∀ e', e' < e → cell size (home k) e' ≠ i := by
    intro e' before again
    have collide := cell_inj home_in (by omega) (by omega) (again.trans through.symm)
    omega
  have before : ∀ e', e' < e → ∃ p, Function.update t i none (cell size (home k) e') = some p ∧ p.1 ≠ k := by
    intro e' before
    rw [Function.update_of_ne (apart e' before)]
    obtain ⟨p, filled⟩ := Option.ne_none_iff_exists'.mp (path e' (by omega))
    refine ⟨p, filled, fun key => ?_⟩
    have again : t (cell size (home k) e') = some (k, p.2) := by rw [filled, ← key]
    have twice := chained.once _ _ _ _ _ again there
    have collide := cell_inj home_in (by omega) near (twice.trans at_)
    omega
  have reached : seek size (Function.update t i none) k fuel (cell size (home k) 0) = some (cell size (home k) e) :=
    seek_reaches (Or.inl (by rw [through, Function.update_self])) before (by omega)
  rw [cell_zero home_in] at reached
  rw [reached, Option.bind_some, through, Function.update_self]
  rfl

end Tables
end Probing
