import Mathlib.Data.List.Sort
import Mathlib.Tactic

/-! Sorting in place by exchange: for each cell, every later cell of a smaller key changes places
with it, and what goes along with the key moves with it. -/
namespace ExchangeSort
variable {α γ : Type} [LinearOrder α]

/-- The inner loop: the pair left in the cell, and the cells behind it. -/
def pass (held : α × γ) : List (α × γ) → (α × γ) × List (α × γ)
  | [] => (held, [])
  | next :: rest =>
    if held.1 > next.1 then ((pass next rest).1, held :: (pass next rest).2)
    else ((pass held rest).1, next :: (pass held rest).2)

def passes : Nat → List (α × γ) → List (α × γ)
  | 0, cells => cells
  | _ + 1, [] => []
  | n + 1, held :: rest => (pass held rest).1 :: passes n (pass held rest).2

def exchangeSort (cells : List (α × γ)) : List (α × γ) := passes cells.length cells

theorem pass_perm (rest : List (α × γ)) (held : α × γ) :
    ((pass held rest).1 :: (pass held rest).2).Perm (held :: rest) := by
  induction rest generalizing held with
  | nil => exact List.Perm.refl _
  | cons next rest ih =>
    unfold pass
    split
    · exact (List.Perm.swap held _ _).trans ((ih next).cons held)
    · exact (List.Perm.swap next _ _).trans (((ih held).cons next).trans (List.Perm.swap held next rest))

theorem pass_length (held : α × γ) (rest : List (α × γ)) : (pass held rest).2.length = rest.length := by
  simpa using (pass_perm rest held).length_eq

theorem pass_least (rest : List (α × γ)) (held : α × γ) :
    ∀ cell ∈ held :: rest, (pass held rest).1.1 ≤ cell.1 := by
  induction rest generalizing held with
  | nil => simp [pass]
  | cons next rest ih =>
    unfold pass
    split
    · rename_i greater
      have least := ih next
      simp only [List.forall_mem_cons] at least ⊢
      exact ⟨least.1.trans greater.le, least.1, least.2⟩
    · rename_i le
      have least := ih held
      simp only [List.forall_mem_cons] at least ⊢
      exact ⟨least.1, least.1.trans (not_lt.mp le), least.2⟩

theorem passes_perm (n : Nat) (cells : List (α × γ)) : (passes n cells).Perm cells := by
  induction n generalizing cells with
  | zero => exact List.Perm.refl _
  | succ n ih =>
    cases cells with
    | nil => exact List.Perm.refl _
    | cons held rest => exact ((ih _).cons _).trans (pass_perm rest held)

theorem passes_sorted (n : Nat) (cells : List (α × γ)) (enough : cells.length ≤ n) :
    (passes n cells).Pairwise (fun x y => x.1 ≤ y.1) := by
  induction n generalizing cells with
  | zero =>
    obtain rfl : cells = [] := List.eq_nil_of_length_eq_zero (Nat.le_zero.mp enough)
    exact List.Pairwise.nil
  | succ n ih =>
    cases cells with
    | nil => exact List.Pairwise.nil
    | cons held rest =>
      have fewer : (pass held rest).2.length ≤ n := by
        rw [pass_length]
        exact Nat.le_of_succ_le_succ enough
      refine List.Pairwise.cons (fun cell later => ?_) (ih _ fewer)
      have among : cell ∈ held :: rest :=
        (pass_perm rest held).subset (List.mem_cons_of_mem _ ((passes_perm n _).subset later))
      exact pass_least rest held cell among

theorem exchangeSort_perm (cells : List (α × γ)) : (exchangeSort cells).Perm cells := passes_perm _ cells

theorem exchangeSort_sorted (cells : List (α × γ)) : (exchangeSort cells).Pairwise (fun x y => x.1 ≤ y.1) :=
  passes_sorted _ cells le_rfl

end ExchangeSort
