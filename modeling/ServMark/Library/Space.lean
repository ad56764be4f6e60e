import Mathlib.Tactic

/-! Vectors of three coordinates and Cramer's rule for them. -/
namespace Space

@[ext] structure Vec (α : Type) where
  x : α
  y : α
  z : α
deriving DecidableEq

section Ring
variable {α : Type} [CommRing α]

def Vec.add (a b : Vec α) : Vec α := ⟨a.x + b.x, a.y + b.y, a.z + b.z⟩
def Vec.sub (a b : Vec α) : Vec α := ⟨a.x - b.x, a.y - b.y, a.z - b.z⟩
def Vec.scale (k : α) (a : Vec α) : Vec α := ⟨k * a.x, k * a.y, k * a.z⟩
def Vec.cross (a b : Vec α) : Vec α := ⟨a.y * b.z - a.z * b.y, a.z * b.x - a.x * b.z, a.x * b.y - a.y * b.x⟩
def Vec.dot (a b : Vec α) : α := a.x * b.x + a.y * b.y + a.z * b.z

/-- The volume that three vectors span, with its sign. -/
def triple (a b c : Vec α) : α := a.dot (b.cross c)

def combination (p q r : α) (a b c : Vec α) : Vec α := ((a.scale p).add (b.scale q)).add (c.scale r)

theorem triple_cycle (a b c : Vec α) : triple a b c = triple b c a := by
  simp only [triple, Vec.dot, Vec.cross]
  ring

theorem triple_swap (a b c : Vec α) : triple a c b = -triple a b c := by
  simp only [triple, Vec.dot, Vec.cross]
  ring

/-- The volume with a combination in the place of the first vector. -/
theorem triple_combination (p q r : α) (a b c : Vec α) : triple (combination p q r a b c) b c = p * triple a b c := by
  simp only [triple, combination, Vec.dot, Vec.cross, Vec.add, Vec.scale]
  ring

theorem combination_cycle (p q r : α) (a b c : Vec α) : combination p q r a b c = combination q r p b c a := by
  simp only [combination, Vec.add, Vec.mk.injEq]
  refine ⟨?_, ?_, ?_⟩ <;> ring

/-- Four vectors of a space of three dimensions depend on each other. -/
theorem triple_relation (a b c s : Vec α) :
    combination (triple s b c) (triple s c a) (triple s a b) a b c = s.scale (triple a b c) := by
  simp only [combination, triple, Vec.dot, Vec.cross, Vec.add, Vec.scale, Vec.mk.injEq]
  refine ⟨?_, ?_, ?_⟩ <;> ring

end Ring

section Field
variable {α : Type} [Field α]

/-- Cramer's rule: in a basis every vector has one combination, whose coefficients are quotients
of volumes. -/
theorem combination_iff {a b c : Vec α} (basis : triple a b c ≠ 0) (s : Vec α) (p q r : α) :
    combination p q r a b c = s ↔
      p = triple s b c / triple a b c ∧ q = triple s c a / triple a b c ∧ r = triple s a b / triple a b c := by
  constructor
  · rintro rfl
    have first := triple_combination p q r a b c
    have second := triple_combination q r p b c a
    have third := triple_combination r p q c a b
    rw [← combination_cycle p q r, ← triple_cycle a b c] at second
    rw [← combination_cycle q r p, ← combination_cycle p q r, ← triple_cycle b c a, ← triple_cycle a b c] at third
    rw [first, second, third]
    simp [basis]
  · rintro ⟨rfl, rfl, rfl⟩
    have relation := triple_relation a b c s
    simp only [combination, Vec.add, Vec.scale, Vec.ext_iff] at relation ⊢
    refine ⟨?_, ?_, ?_⟩
    · field_simp
      linear_combination relation.1
    · field_simp
      linear_combination relation.2.1
    · field_simp
      linear_combination relation.2.2

end Field

end Space
