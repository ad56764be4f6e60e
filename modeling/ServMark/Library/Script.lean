import ServMark.Library.ForkJoin

/-! Workers that each go through a list of operations on one state. No operation waits. -/
namespace Script
open ForkJoin Transition

variable {n : Nat} {ι σ : Type}

def program (script : Fin n → List ι) (apply : ι → σ → σ) : Program n (List ι) σ where
  first := script
  step _
    | [], _ => none
    | op :: rest, d => some (rest, apply op d)
  ended := List.isEmpty
  opened := id
  rest _ x _ ended := by
    cases x with
    | nil => rfl
    | cons op rest => cases ended

/-- The operations that a worker has before it, all of them if it is not created yet. -/
def todo (script : Fin n → List ι) (workers : Fin n → Option (List ι)) (w : Fin n) : List ι :=
  (workers w).getD (script w)

section Lists
variable {op : ι} {past rest front back : List ι}

theorem split_front (split : past ++ op :: rest = front ++ back) (other : op ∉ front) :
    ∃ more, past = front ++ more ∧ more ++ op :: rest = back := by
  rcases List.append_eq_append_iff.mp split with ⟨more, rfl, behind⟩ | ⟨more, rfl, behind⟩
  · cases more with
    | nil => exact ⟨[], by simp, behind⟩
    | cons first more =>
      obtain ⟨rfl, _⟩ := List.cons.inj behind
      exact absurd (List.mem_append_right past List.mem_cons_self) other
  · exact ⟨more, rfl, behind.symm⟩

theorem split_back (split : past ++ op :: rest = front ++ back) (other : op ∉ back) :
    ∃ more, front = past ++ op :: more ∧ rest = more ++ back := by
  rcases List.append_eq_append_iff.mp split with ⟨more, rfl, behind⟩ | ⟨more, rfl, rfl⟩
  · cases more with
    | nil =>
      obtain rfl : op :: rest = back := behind
      exact absurd List.mem_cons_self other
    | cons first more =>
      obtain ⟨rfl, rfl⟩ := List.cons.inj behind
      exact ⟨more, rfl, rfl⟩
  · exact absurd (List.mem_append_right more List.mem_cons_self) other

/-- In front of an operation that is not in the last part all of that part is left. -/
theorem suffix_behind (suffix : op :: rest <:+ front ++ back) (other : op ∉ back) : back <:+ rest := by
  obtain ⟨past, split⟩ := suffix
  obtain ⟨more, _, rfl⟩ := split_back split other
  exact ⟨more, rfl⟩

theorem suffix_within (suffix : op :: rest <:+ front ++ back) (other : op ∉ front) : op :: rest <:+ back := by
  obtain ⟨past, split⟩ := suffix
  obtain ⟨more, _, behind⟩ := split_front split other
  exact ⟨more, behind⟩

end Lists

variable {script : Fin n → List ι} {apply : ι → σ → σ} {start : σ}

/-- What holds of the lists and of the state at first, and survives the first operation of any list. -/
structure Invariant (script : Fin n → List ι) (apply : ι → σ → σ) (start : σ)
    (inv : (Fin n → List ι) → σ → Prop) : Prop where
  initial : inv script start
  step : ∀ lists d w op rest, (∀ v, lists v <:+ script v) → inv lists d → lists w = op :: rest →
    inv (Function.update lists w rest) (apply op d)

theorem step_eq {w : Fin n} {x y : List ι} {d e : σ} (step : (program script apply).step w x d = some (y, e)) :
    ∃ op, x = op :: y ∧ e = apply op d := by
  cases x with
  | nil => cases step
  | cons op rest =>
    cases step
    exact ⟨op, rfl, rfl⟩

theorem todo_works {workers : Fin n → Option (List ι)} (w : Fin n) (rest : List ι) :
    todo script (Function.update workers w (some rest)) = Function.update (todo script workers) w rest := by
  funext v
  rcases eq_or_ne v w with rfl | other
  · simp [todo]
  · simp [todo, other]

theorem todo_creates {workers : Fin n → Option (List ι)} {w : Fin n} (absent : workers w = none) :
    todo script (Function.update workers w (some (script w))) = todo script workers := by
  have own : todo script workers w = script w := by rw [todo, absent, Option.getD_none]
  rw [todo_works, ← own, Function.update_eq_self]

theorem Invariant.reaches {inv : (Fin n → List ι) → σ → Prop} (invariant : Invariant script apply start inv)
    {s : Team n (List ι) σ} (reachable : ((program script apply).team start).system.Reachable s) :
    (∀ v, todo script s.workers v <:+ script v) ∧ inv (todo script s.workers) s.shared := by
  refine team_invariant (fun s => (∀ v, todo script s.workers v <:+ script v) ∧ inv (todo script s.workers) s.shared)
    ⟨fun _ => List.suffix_refl _, invariant.initial⟩ (fun s t formed holds move => ?_) reachable
  cases move with
  | @creates k at_ lt =>
    have same : todo script (Function.update s.workers ⟨k, lt⟩ (some (script ⟨k, lt⟩))) = todo script s.workers :=
      todo_creates (formed.fresh k at_ ⟨k, lt⟩ le_rfl)
    change (∀ v, todo script (Function.update s.workers ⟨k, lt⟩ (some (script ⟨k, lt⟩))) v <:+ script v) ∧
      inv (todo script (Function.update s.workers ⟨k, lt⟩ (some (script ⟨k, lt⟩)))) s.shared
    rwa [same]
  | opens | joins | leaves => exact holds
  | @works w x y d at_ step =>
    obtain ⟨op, rfl, rfl⟩ := step_eq step
    obtain ⟨suffix, own⟩ := holds
    have here : todo script s.workers w = op :: y := by rw [todo, at_, Option.getD_some]
    rw [todo_works]
    refine ⟨fun v => ?_, invariant.step _ _ w op y suffix own here⟩
    rcases eq_or_ne v w with rfl | other
    · rw [Function.update_self]
      exact (List.suffix_cons op y).trans (here ▸ suffix v)
    · rw [Function.update_of_ne other]
      exact suffix v

end Script
