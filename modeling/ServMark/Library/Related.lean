import Mathlib.Data.List.Forall2
import Mathlib.Tactic

/-! Two lists related element by element: members, numbering, and what is kept of both by
filters that agree on related elements; and a loop that stores what each element gives. -/
namespace Related
variable {α β γ δ : Type} {R : α → β → Prop} {xs : List α} {ys : List β}

/-- A property of related elements that only the left one decides. -/
theorem decided_left {P : α → β → Prop} {Q : α → Prop} (related : List.Forall₂ R xs ys)
    (decided : ∀ x y, R x y → (P x y ↔ Q x)) : List.Forall₂ P xs ys ↔ ∀ x ∈ xs, Q x := by
  induction related with
  | nil => simp
  | cons head tail ih => rw [List.forall₂_cons, ih, decided _ _ head, List.forall_mem_cons]

theorem mem_left (related : List.Forall₂ R xs ys) {x : α} (member : x ∈ xs) : ∃ y ∈ ys, R x y := by
  induction related with
  | nil => cases member
  | cons head tail ih =>
    rcases List.mem_cons.mp member with rfl | later
    · exact ⟨_, List.mem_cons_self, head⟩
    · obtain ⟨y, within, holds⟩ := ih later
      exact ⟨y, List.mem_cons_of_mem _ within, holds⟩

theorem mem_right (related : List.Forall₂ R xs ys) {y : β} (member : y ∈ ys) : ∃ x ∈ xs, R x y :=
  mem_left related.flip member

theorem zipIdx (related : List.Forall₂ R xs ys) (start : Nat) :
    List.Forall₂ (fun p q => R p.1 q.1 ∧ p.2 = q.2) (xs.zipIdx start) (ys.zipIdx start) := by
  induction related generalizing start with
  | nil => exact .nil
  | cons head tail ih => exact .cons ⟨head, rfl⟩ (ih (start + 1))

theorem filter_map {S : γ → δ → Prop} {p : α → Bool} {q : β → Bool} {f : α → γ} {g : β → δ}
    (related : List.Forall₂ R xs ys) (agree : ∀ x y, R x y → p x = q y)
    (image : ∀ x y, R x y → p x = true → S (f x) (g y)) :
    List.Forall₂ S ((xs.filter p).map f) ((ys.filter q).map g) := by
  induction related with
  | nil => exact .nil
  | @cons x y xs ys head tail ih =>
    have same := agree x y head
    cases keeps : p x with
    | true =>
      rw [List.filter_cons_of_pos keeps, List.filter_cons_of_pos (same ▸ keeps)]
      exact .cons (image x y head keeps) ih
    | false =>
      rw [List.filter_cons_of_neg (by simp [keeps]), List.filter_cons_of_neg (by simp [← same, keeps])]
      exact ih

section Collects
variable {ε : Type}

/-- A loop that stores what each item gives, up to the first that fails. -/
def collects (f : α → Except ε β) : List α → List β → Except ε (List β)
  | [], stored => .ok stored
  | x :: rest, stored =>
    match f x with
    | .error fault => .error fault
    | .ok y => collects f rest (stored ++ [y])

theorem collects_iff {f : α → Except ε β} {stored out : List β} :
    collects f xs stored = .ok out ↔ ∃ new, out = stored ++ new ∧ List.Forall₂ (fun x y => f x = .ok y) xs new := by
  induction xs generalizing stored with
  | nil => simp [collects, eq_comm]
  | cons x xs ih =>
    unfold collects
    cases given : f x with
    | error fault =>
      refine iff_of_false nofun (fun ⟨_, _, related⟩ => ?_)
      obtain ⟨y, _, own⟩ := mem_left related List.mem_cons_self
      exact absurd (given.symm.trans own) nofun
    | ok y =>
      simp only [ih, List.forall₂_cons_left_iff, given, Except.ok.injEq, List.append_assoc, List.singleton_append]
      constructor
      · rintro ⟨new, rfl, related⟩
        exact ⟨y :: new, rfl, y, new, rfl, related, rfl⟩
      · rintro ⟨_, rfl, _, new, rfl, related, rfl⟩
        exact ⟨new, rfl, related⟩

theorem collects_ok_iff {f : α → Except ε β} :
    (∃ out, collects f xs [] = .ok out) ↔ ∀ x ∈ xs, ∃ y, f x = .ok y := by
  simp only [collects_iff, List.nil_append, exists_eq_left']
  constructor
  · rintro ⟨out, related⟩ x member
    obtain ⟨y, _, own⟩ := mem_left related member
    exact ⟨y, own⟩
  · intro each
    induction xs with
    | nil => exact ⟨[], .nil⟩
    | cons x xs ih =>
      obtain ⟨own, each⟩ := List.forall_mem_cons.mp each
      obtain ⟨y, own⟩ := own
      obtain ⟨out, related⟩ := ih each
      exact ⟨y :: out, .cons own related⟩

end Collects

end Related
