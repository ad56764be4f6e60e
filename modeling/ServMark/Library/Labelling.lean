import Mathlib.Tactic

/-! Numbering the classes of a partition: each item that has no number yet gives the next
one to its whole class. -/
namespace Labelling
variable {ι κ : Type}

structure Labels (ι : Type) where
  label : ι → Nat
  seen : ι → Bool
  next : Nat

def empty : Labels ι := ⟨fun _ => 0, fun _ => false, 0⟩

def visit (members : ι → ι → Bool) (s : Labels ι) (x : ι) : Labels ι :=
  if s.seen x then s
  else
    { label := fun y => if members x y then s.next else s.label y
      seen := fun y => members x y || s.seen y
      next := s.next + 1 }

/-- The classes of the items visited so far are numbered, and nothing else is. -/
structure Numbered (domain : Set ι) (cls : ι → κ) (visited : List ι) (s : Labels ι) : Prop where
  seen : ∀ y, s.seen y = true ↔ y ∈ domain ∧ ∃ x ∈ visited, cls x = cls y
  same : ∀ x y, s.seen x = true → s.seen y = true → (s.label x = s.label y ↔ cls x = cls y)
  below : ∀ x, s.seen x = true → s.label x < s.next
  used : ∀ k, k < s.next → ∃ x, s.seen x = true ∧ s.label x = k

variable {domain : Set ι} {cls : ι → κ} {members : ι → ι → Bool}

theorem numbered_empty (domain : Set ι) (cls : ι → κ) : Numbered domain cls [] (empty : Labels ι) :=
  ⟨by simp [empty], by simp [empty], by simp [empty], by simp [empty]⟩

section Visit
variable {visited : List ι} {s : Labels ι} (inv : Numbered domain cls visited s) {x : ι}
include inv

theorem numbered_old (old : s.seen x = true) : Numbered domain cls (visited ++ [x]) s := by
  refine ⟨fun y => ?_, inv.same, inv.below, inv.used⟩
  obtain ⟨_, earlier, member, same⟩ := (inv.seen x).mp old
  simp only [inv.seen y]
  constructor
  · rintro ⟨within, z, before, eq⟩
    exact ⟨within, z, List.mem_append_left _ before, eq⟩
  · rintro ⟨within, z, before, eq⟩
    rcases List.mem_append.mp before with before | last
    · exact ⟨within, z, before, eq⟩
    · simp only [List.mem_singleton.mp last] at eq
      exact ⟨within, earlier, member, same.trans eq⟩

variable (fresh : ¬ s.seen x = true) (inside : x ∈ domain)
include fresh inside

/-- No item of the class of a fresh one has a number yet. -/
theorem fresh_apart {y : ι} (old : s.seen y = true) : cls x ≠ cls y := by
  intro eq
  obtain ⟨_, earlier, before, same⟩ := (inv.seen y).mp old
  exact fresh ((inv.seen x).mpr ⟨inside, earlier, before, same.trans eq.symm⟩)

variable (classes : ∀ y, members x y = true ↔ y ∈ domain ∧ cls x = cls y)
include classes

theorem fresh_members {y : ι} (old : s.seen y = true) : members x y = false := by
  by_contra member
  exact fresh_apart inv fresh inside old ((classes y).mp (by simpa using member)).2

/-- The labels that are in use stay apart from the new one. -/
theorem fresh_same (y z : ι) (oldY : members x y = true ∨ s.seen y = true)
    (oldZ : members x z = true ∨ s.seen z = true) :
    ((if members x y then s.next else s.label y) = if members x z then s.next else s.label z) ↔ cls y = cls z := by
  have other := fun {w : ι} => fresh_members inv fresh inside classes (y := w)
  have apart := fun {w : ι} => fresh_apart inv fresh inside (y := w)
  rcases oldY with newY | oldY <;> rcases oldZ with newZ | oldZ
  · have eqY := ((classes y).mp newY).2
    have eqZ := ((classes z).mp newZ).2
    simp [newY, newZ, ← eqY, ← eqZ]
  · have eqY := ((classes y).mp newY).2
    have lower := inv.below z oldZ
    simp only [newY, other oldZ, if_true, Bool.false_eq_true, if_false]
    exact iff_of_false (by omega) (eqY ▸ apart oldZ)
  · have eqZ := ((classes z).mp newZ).2
    have lower := inv.below y oldY
    simp only [newZ, other oldY, if_true, Bool.false_eq_true, if_false]
    exact iff_of_false (by omega) (eqZ ▸ (apart oldY).symm)
  · simp [other oldY, other oldZ, inv.same y z oldY oldZ]

theorem numbered_fresh : Numbered domain cls (visited ++ [x])
    ⟨fun y => if members x y then s.next else s.label y, fun y => members x y || s.seen y, s.next + 1⟩ := by
  have other := fun {w : ι} => fresh_members inv fresh inside classes (y := w)
  refine ⟨fun y => ?_, fun y z oldY oldZ => ?_, fun y old => ?_, fun k below => ?_⟩
  · simp only [Bool.or_eq_true, classes, inv.seen]
    constructor
    · rintro (⟨within, eq⟩ | ⟨within, z, before, eq⟩)
      · exact ⟨within, x, by simp, eq⟩
      · exact ⟨within, z, List.mem_append_left _ before, eq⟩
    · rintro ⟨within, z, before, eq⟩
      rcases List.mem_append.mp before with before | last
      · exact Or.inr ⟨within, z, before, eq⟩
      · simp only [List.mem_singleton.mp last] at eq
        exact Or.inl ⟨within, eq⟩
  · simp only [Bool.or_eq_true] at oldY oldZ
    exact fresh_same inv fresh inside classes y z oldY oldZ
  · simp only [Bool.or_eq_true] at old
    rcases old with new | old
    · simp [new]
    · have lower := inv.below y old
      simp only [other old, Bool.false_eq_true, if_false]
      omega
  · rcases Nat.lt_succ_iff_lt_or_eq.mp below with lower | rfl
    · obtain ⟨y, old, label⟩ := inv.used k lower
      exact ⟨y, by simp [old], by simp [other old, label]⟩
    · have own : members x x = true := (classes x).mpr ⟨inside, rfl⟩
      exact ⟨x, by simp [own], by simp [own]⟩

omit fresh

theorem numbered_visit : Numbered domain cls (visited ++ [x]) (visit members s x) := by
  unfold visit
  split
  · rename_i old
    exact numbered_old inv old
  · rename_i fresh
    exact numbered_fresh inv fresh inside classes

end Visit

/-- After all items of the domain have been visited, equal numbers mean equal classes, and
the numbers are those below the number of classes. -/
theorem numbered_all (domain : Set ι) (cls : ι → κ) (members : ι → ι → Bool) {items : List ι}
    (inside : ∀ x ∈ items, x ∈ domain)
    (classes : ∀ x ∈ items, ∀ y, members x y = true ↔ y ∈ domain ∧ cls x = cls y) :
    Numbered domain cls items (items.foldl (visit members) empty) := by
  induction items using List.reverseRecOn with
  | nil => exact numbered_empty domain cls
  | append_singleton items x ih =>
    simp only [List.foldl_append, List.foldl_cons, List.foldl_nil]
    exact numbered_visit
      (ih (fun y member => inside y (List.mem_append_left _ member))
        (fun y member => classes y (List.mem_append_left _ member)))
      (inside x (by simp)) (classes x (by simp))

end Labelling
