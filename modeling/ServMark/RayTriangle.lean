import Mathlib.Data.Real.Basic
import ServMark.Types
import ServMark.Library.Space

/-! The intersection of a ray with a triangle in fp_ray.c, in exact arithmetic in the place of float. -/
namespace ServMark
open Space

section Code
variable {α : Type} [Field α]

abbrev Vec3 (α : Type) : Type := Vec α

structure Ray (α : Type) where
  orig : Vec3 α
  dir : Vec3 α

structure Tri (α : Type) where
  v0 : Vec3 α
  v1 : Vec3 α
  v2 : Vec3 α

def v3Sub (a b : Vec3 α) : Vec3 α := ⟨a.x - b.x, a.y - b.y, a.z - b.z⟩
def v3Cross (a b : Vec3 α) : Vec3 α := ⟨a.y * b.z - a.z * b.y, a.z * b.x - a.x * b.z, a.x * b.y - a.y * b.x⟩
def v3Dot (a b : Vec3 α) : α := a.x * b.x + a.y * b.y + a.z * b.z

/-- The literal 1e-7f. -/
def rayMargin : α := ratio 1 (10 ^ 7)

def rayTriIntersect [LinearOrder α] (r : Ray α) (t : Tri α) : Int :=
  let e1 := v3Sub t.v1 t.v0
  let e2 := v3Sub t.v2 t.v0
  let h := v3Cross r.dir e2
  let a := v3Dot e1 h
  if a > -rayMargin ∧ a < rayMargin then 0
  else
    let f := 1 / a
    let s := v3Sub r.orig t.v0
    let u := f * v3Dot s h
    if u < 0 ∨ u > 1 then 0
    else
      let q := v3Cross s e1
      let v := f * v3Dot r.dir q
      if v < 0 ∨ u + v > 1 then 0
      else
        let td := f * v3Dot e2 q
        if td > rayMargin then 1 else 0

end Code

/-- The determinant a: the volume of the two edges and the direction. -/
def rayDeterminant (r : Ray ℝ) (t : Tri ℝ) : ℝ := triple (t.v1.sub t.v0) r.dir (t.v2.sub t.v0)

/-- The point of the ray at td is the point of the triangle with the coordinates u and v. -/
def MeetsAt (r : Ray ℝ) (t : Tri ℝ) (td u v : ℝ) : Prop :=
  r.orig.add (r.dir.scale td) = (t.v0.add ((t.v1.sub t.v0).scale u)).add ((t.v2.sub t.v0).scale v)

/-- In front of its origin the ray meets the triangle. -/
def Meets (r : Ray ℝ) (t : Tri ℝ) : Prop :=
  ∃ td u v : ℝ, rayMargin < td ∧ 0 ≤ u ∧ 0 ≤ v ∧ u + v ≤ 1 ∧ MeetsAt r t td u v

/-- The vector from the triangle's corner to the origin in the basis of the edges and the direction. -/
theorem meetsAt_combination (r : Ray ℝ) (t : Tri ℝ) (td u v : ℝ) : MeetsAt r t td u v ↔
    combination u (-td) v (t.v1.sub t.v0) r.dir (t.v2.sub t.v0) = r.orig.sub t.v0 := by
  simp only [MeetsAt, combination, Vec.add, Vec.sub, Vec.scale, Vec.mk.injEq]
  constructor
  · rintro ⟨x, y, z⟩
    exact ⟨by linear_combination -x, by linear_combination -y, by linear_combination -z⟩
  · rintro ⟨x, y, z⟩
    exact ⟨by linear_combination -x, by linear_combination -y, by linear_combination -z⟩

/-- The three numbers that the code computes, of an intersection the only ones. -/
theorem meetsAt_iff {r : Ray ℝ} {t : Tri ℝ} (basis : rayDeterminant r t ≠ 0) (td u v : ℝ) : MeetsAt r t td u v ↔
    u = 1 / rayDeterminant r t * v3Dot (v3Sub r.orig t.v0) (v3Cross r.dir (v3Sub t.v2 t.v0)) ∧
      v = 1 / rayDeterminant r t * v3Dot r.dir (v3Cross (v3Sub r.orig t.v0) (v3Sub t.v1 t.v0)) ∧
      td = 1 / rayDeterminant r t * v3Dot (v3Sub t.v2 t.v0) (v3Cross (v3Sub r.orig t.v0) (v3Sub t.v1 t.v0)) := by
  have first : v3Dot (v3Sub r.orig t.v0) (v3Cross r.dir (v3Sub t.v2 t.v0)) =
      triple (r.orig.sub t.v0) r.dir (t.v2.sub t.v0) := rfl
  have second : v3Dot r.dir (v3Cross (v3Sub r.orig t.v0) (v3Sub t.v1 t.v0)) =
      triple (r.orig.sub t.v0) (t.v1.sub t.v0) r.dir := triple_cycle _ _ _
  have third : v3Dot (v3Sub t.v2 t.v0) (v3Cross (v3Sub r.orig t.v0) (v3Sub t.v1 t.v0)) =
      -triple (r.orig.sub t.v0) (t.v2.sub t.v0) (t.v1.sub t.v0) := by
    rw [triple_swap, neg_neg]
    exact triple_cycle _ _ _
  have sign : -td = triple (r.orig.sub t.v0) (t.v2.sub t.v0) (t.v1.sub t.v0) / rayDeterminant r t ↔
      td = -triple (r.orig.sub t.v0) (t.v2.sub t.v0) (t.v1.sub t.v0) / rayDeterminant r t := by
    rw [neg_eq_iff_eq_neg, neg_div]
  rw [meetsAt_combination, combination_iff basis, first, second, third]
  simp only [one_div_mul_eq_div]
  exact and_congr_right' (and_comm.trans (and_congr_right' sign))

theorem rayMargin_eq : (rayMargin : ℝ) = 1e-7 := by
  unfold rayMargin ratio
  norm_num

/-- Away from a zero determinant the tests are those of an intersection. -/
theorem rayTriIntersect_decides {r : Ray ℝ} {t : Tri ℝ} (basis : rayDeterminant r t ≠ 0)
    (far : ¬ (rayDeterminant r t > -(1e-7) ∧ rayDeterminant r t < 1e-7)) :
    (Meets r t → rayTriIntersect r t = 1) ∧ (¬ Meets r t → rayTriIntersect r t = 0) := by
  have determinant : v3Dot (v3Sub t.v1 t.v0) (v3Cross r.dir (v3Sub t.v2 t.v0)) = rayDeterminant r t := rfl
  unfold Meets rayTriIntersect
  simp only [determinant, rayMargin_eq, if_neg far, meetsAt_iff basis]
  generalize 1 / rayDeterminant r t * v3Dot (v3Sub r.orig t.v0) (v3Cross r.dir (v3Sub t.v2 t.v0)) = u
  generalize 1 / rayDeterminant r t * v3Dot r.dir (v3Cross (v3Sub r.orig t.v0) (v3Sub t.v1 t.v0)) = v
  generalize 1 / rayDeterminant r t * v3Dot (v3Sub t.v2 t.v0) (v3Cross (v3Sub r.orig t.v0) (v3Sub t.v1 t.v0)) = td
  constructor
  · rintro ⟨_, _, _, front, left, right, inside, rfl, rfl, rfl⟩
    rw [if_neg (by push Not; exact ⟨left, by linarith⟩), if_neg (by push Not; exact ⟨right, inside⟩), if_pos front]
  · intro apart
    split
    · rfl
    · rename_i between
      split
      · rfl
      · rename_i inside
        push Not at between inside
        exact if_neg (fun front => apart ⟨td, u, v, front, between.1, inside.1, inside.2, rfl, rfl, rfl⟩)

/-- On triangles that the ray does not run along the code decides the intersection. -/
theorem ray_intersects_iff (r : Ray ℝ) (t : Tri ℝ) (steep : 1e-7 ≤ |rayDeterminant r t|) :
    (rayTriIntersect r t = 1 ↔ Meets r t) ∧ (¬ Meets r t → rayTriIntersect r t = 0) := by
  have basis : rayDeterminant r t ≠ 0 := by
    intro zero
    rw [zero, abs_zero] at steep
    norm_num at steep
  have far : ¬ (rayDeterminant r t > -(1e-7) ∧ rayDeterminant r t < 1e-7) := fun near =>
    absurd (abs_lt.mpr near) (not_lt.mpr steep)
  obtain ⟨met, missed⟩ := rayTriIntersect_decides basis far
  refine ⟨⟨fun one => ?_, met⟩, missed⟩
  by_contra apart
  rw [missed apart] at one
  cases one

/-- A ray along the third axis meets a triangle around that axis. -/
theorem ray_intersects_axis :
    rayTriIntersect (⟨⟨0, 0, -5⟩, ⟨0, 0, 1⟩⟩ : Ray ℝ) ⟨⟨-1, -1, 0⟩, ⟨1, -1, 0⟩, ⟨0, 1, 0⟩⟩ = 1 := by
  refine (ray_intersects_iff _ _ ?_).1.mpr ⟨5, 1 / 4, 1 / 2, ?_⟩
  · norm_num [rayDeterminant, triple, Vec.dot, Vec.cross, Vec.sub]
  · norm_num [rayMargin_eq, MeetsAt, Vec.add, Vec.sub, Vec.scale]

end ServMark
