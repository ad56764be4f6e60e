import Mathlib.Tactic

/-! The table of the open descriptors of a process: a new one takes the lowest free place. -/
namespace FileTable
variable {α : Type}

abbrev Table (α : Type) := List (Option α)

def lookup (t : Table α) (fd : Nat) : Option α := t[fd]?.join

def lowestFree (t : Table α) : Nat := t.findIdx Option.isNone

def install (t : Table α) (x : α) : Table α :=
  if lowestFree t < t.length then t.set (lowestFree t) (some x) else t ++ [some x]

/-- Closing what is not open changes nothing. -/
def close (t : Table α) (fd : Nat) : Table α := t.set fd none

theorem lookup_lowestFree (t : Table α) : lookup t (lowestFree t) = none := by
  unfold lookup
  cases entry : t[lowestFree t]? with
  | none => rfl
  | some x =>
    obtain ⟨below, eq⟩ := List.getElem?_eq_some_iff.mp entry
    have free : t[lowestFree t].isNone = true := List.findIdx_getElem
    simp only [eq, Option.isNone_iff_eq_none] at free
    simp only [free]
    rfl

theorem lookup_install (t : Table α) (x : α) : lookup (install t x) (lowestFree t) = some x := by
  unfold lookup install
  split_ifs with below
  · simp only [List.getElem?_set_self below]
    rfl
  · have last : lowestFree t = t.length := Nat.le_antisymm List.findIdx_le_length (Nat.not_lt.mp below)
    simp only [last, List.getElem?_concat_length]
    rfl

theorem lookup_install_of_open {t : Table α} {fd : Nat} {y : α} (opened : lookup t fd = some y) (x : α) :
    lookup (install t x) fd = some y := by
  have other : fd ≠ lowestFree t := by
    rintro rfl
    simp only [lookup_lowestFree] at opened
    cases opened
  unfold lookup install at *
  split_ifs with below
  · simp only [List.getElem?_set_ne other.symm]
    exact opened
  · have inside : fd < t.length := by
      by_contra outside
      simp only [List.getElem?_eq_none (Nat.not_lt.mp outside)] at opened
      cases opened
    simp only [List.getElem?_append_left inside]
    exact opened

@[simp] theorem lookup_close (t : Table α) (fd : Nat) : lookup (close t fd) fd = none := by
  unfold lookup close
  simp only [List.getElem?_set_self']
  cases t[fd]? with
  | none => rfl
  | some x => rfl

theorem lookup_close_of_ne (t : Table α) {fd other : Nat} (ne : other ≠ fd) :
    lookup (close t fd) other = lookup t other := by
  unfold lookup close
  simp only [List.getElem?_set_ne ne.symm]

theorem lookup_close_none {t : Table α} {other : Nat} (closed : lookup t other = none) (fd : Nat) :
    lookup (close t fd) other = none := by
  rcases eq_or_ne other fd with rfl | ne
  · exact lookup_close t other
  · simp only [lookup_close_of_ne t ne]
    exact closed

end FileTable
