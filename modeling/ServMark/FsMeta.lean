import ServMark.Library.Script
import ServMark.Library.Printf

/-! The instances of fs_meta.c, whose files all have the same names in one directory. Only the state of
the directory makes a call fail. -/
namespace ServMark
open CText Printf ForkJoin Script

def metaName (i : Nat) : List Char := "f_".toList ++ printNat i

/-- The entries of TEST_DIR, none if there is no such directory. -/
abbrev TestDir := Option (Finset (List Char))

inductive FsCall where
  | mkdir
  | create (i : Nat)
  | stat (i : Nat)
  | unlink (i : Nat)
  | rmdir
  deriving DecidableEq

def FsCall.apply : FsCall → TestDir → TestDir
  | mkdir, dir => some (dir.getD ∅)
  | create i, dir => dir.map (fun entries => insert (metaName i) entries)
  | stat _, dir => dir
  | unlink i, dir => dir.map (fun entries => entries.erase (metaName i))
  | rmdir, dir => if dir = some ∅ then none else dir

/- The calls on so many files. -/
section Calls
variable (files : Nat)

def fsMetaInit : List FsCall := .mkdir :: (List.range files).map .create
def fsMetaWarmup : List FsCall := (List.range 100).map .stat
def fsMetaMeasure : List FsCall := (List.range files).map .stat
def fsMetaCleanup : List FsCall := (List.range files).map .unlink ++ [.rmdir]

/-- The calls of run_benchmark_instance that measures so often. -/
def fsMetaInstance (measures : Nat) : List FsCall :=
  fsMetaInit files ++ (fsMetaWarmup ++ (List.replicate measures (fsMetaMeasure files)).flatten) ++ fsMetaCleanup files

/-- The entries that no instance touches. -/
def foreign (dir : TestDir) : Finset (List Char) :=
  (dir.getD ∅).filter (fun x => ∀ i < files, x ≠ metaName i)

end Calls

theorem call_bounds {files measures i : Nat} {op : FsCall} (own : op = .create i ∨ op = .unlink i)
    (among : op ∈ fsMetaInstance files measures) : i < files := by
  rcases own with rfl | rfl <;>
    simpa [fsMetaInstance, fsMetaInit, fsMetaWarmup, fsMetaMeasure, fsMetaCleanup] using among

theorem cleanup_unlinks {files i : Nat} (inside : i < files) : .unlink i ∈ fsMetaCleanup files := by
  simp [fsMetaCleanup, inside]

/-- The cleanup lies before every call that is not one of its own. -/
theorem cleanup_ahead {files measures : Nat} {op : FsCall} {rest : List FsCall}
    (suffix : op :: rest <:+ fsMetaInstance files measures) (other : op ∉ fsMetaCleanup files) :
    ∀ call ∈ fsMetaCleanup files, call ∈ rest :=
  fun _ among => (suffix_behind suffix other).subset among

theorem rmdir_last {files measures : Nat} {rest : List FsCall}
    (suffix : .rmdir :: rest <:+ fsMetaInstance files measures) : rest = [] := by
  rw [fsMetaInstance, fsMetaCleanup, ← List.append_assoc] at suffix
  have last := suffix_within suffix (by simp [fsMetaInit, fsMetaWarmup, fsMetaMeasure])
  exact (List.cons.inj (last.eq_of_length_le (Nat.le_add_left 1 _))).2

/-- An instance that is not at its end has its rmdir before it. -/
theorem rmdir_ahead {files measures : Nat} {op : FsCall} {rest : List FsCall}
    (suffix : op :: rest <:+ fsMetaInstance files measures) : .rmdir ∈ op :: rest := by
  rw [fsMetaInstance, fsMetaCleanup, ← List.append_assoc] at suffix
  by_cases own : op = .rmdir
  · rw [own]
    exact List.mem_cons_self
  · have behind := suffix_behind suffix (by simpa using own)
    exact List.mem_cons_of_mem op (behind.subset List.mem_cons_self)

/-- What is left in the directory, and who is still to clear it away. -/
structure Tidy {n : Nat} (files : Nat) (start : TestDir) (lists : Fin n → List FsCall) (dir : TestDir) : Prop where
  own : ∀ entries ∈ dir, ∀ x ∈ entries, x ∈ foreign files start ∨ ∃ i, x = metaName i ∧ ∃ w, .unlink i ∈ lists w
  kept : foreign files start ≠ ∅ → ∃ entries ∈ dir, foreign files start ⊆ entries
  gone : foreign files start = ∅ → dir ≠ none → ∃ w, .rmdir ∈ lists w

section Step
variable {n files : Nat} {lists : Fin n → List FsCall} {w : Fin n} {op : FsCall} {rest : List FsCall}

theorem still_ahead (here : lists w = op :: rest) {call : FsCall} (other : call ≠ op) {v : Fin n}
    (ahead : call ∈ lists v) : call ∈ Function.update lists w rest v := by
  rcases eq_or_ne v w with rfl | apart
  · rw [Function.update_self]
    rw [here] at ahead
    exact List.mem_of_ne_of_mem other ahead
  · rwa [Function.update_of_ne apart]

variable {start dir : TestDir} (tidy : Tidy files start lists dir)
include tidy

theorem Tidy.own_still (here : lists w = op :: rest) (other : ∀ i, op ≠ .unlink i) : ∀ entries ∈ dir, ∀ x ∈ entries,
    x ∈ foreign files start ∨ ∃ i, x = metaName i ∧ ∃ v, .unlink i ∈ Function.update lists w rest v := by
  intro entries there x among
  rcases tidy.own entries there x among with outside | ⟨i, rfl, v, ahead⟩
  · exact Or.inl outside
  · exact Or.inr ⟨i, rfl, v, still_ahead here (other i).symm ahead⟩

theorem Tidy.gone_still (here : lists w = op :: rest) (other : op ≠ .rmdir) (none_ : foreign files start = ∅)
    (there : dir ≠ none) : ∃ v, .rmdir ∈ Function.update lists w rest v := by
  obtain ⟨v, ahead⟩ := tidy.gone none_ there
  exact ⟨v, still_ahead here other.symm ahead⟩

variable {measures : Nat}

theorem Tidy.mkdir (here : lists w = .mkdir :: rest) (own : .mkdir :: rest <:+ fsMetaInstance files measures) :
    Tidy files start (Function.update lists w rest) (FsCall.mkdir.apply dir) := by
  have ahead := cleanup_ahead own (by simp [fsMetaCleanup])
  have other := tidy.own_still here (by simp)
  refine ⟨fun entries there x among => ?_, fun some_ => ?_, fun _ _ => ⟨w, ?_⟩⟩
  · cases dir with
    | none =>
      obtain rfl : ∅ = entries := Option.some.inj there
      exact absurd among (Finset.notMem_empty x)
    | some old => exact other entries there x among
  · obtain ⟨entries, rfl, inside⟩ := tidy.kept some_
    exact ⟨entries, rfl, inside⟩
  · rw [Function.update_self]
    exact ahead _ (by simp [fsMetaCleanup])

theorem Tidy.create {i : Nat} (here : lists w = .create i :: rest)
    (own : .create i :: rest <:+ fsMetaInstance files measures) :
    Tidy files start (Function.update lists w rest) ((FsCall.create i).apply dir) := by
  have ahead := cleanup_ahead own (by simp [fsMetaCleanup])
  have inside : i < files := call_bounds (Or.inl rfl) (own.subset List.mem_cons_self)
  have other := tidy.own_still here (by simp)
  refine ⟨fun entries there x among => ?_, fun some_ => ?_, fun none_ there => ?_⟩
  · obtain ⟨old, rfl, rfl⟩ := Option.map_eq_some_iff.mp there
    rcases Finset.mem_insert.mp among with rfl | before
    · refine Or.inr ⟨i, rfl, w, ?_⟩
      rw [Function.update_self]
      exact ahead _ (cleanup_unlinks inside)
    · exact other old rfl x before
  · obtain ⟨entries, rfl, within⟩ := tidy.kept some_
    exact ⟨_, rfl, within.trans (Finset.subset_insert _ _)⟩
  · exact tidy.gone_still here (by simp) none_ (fun absent => there (by rw [absent]; rfl))

theorem Tidy.unlink {i : Nat} (here : lists w = .unlink i :: rest)
    (own : .unlink i :: rest <:+ fsMetaInstance files measures) :
    Tidy files start (Function.update lists w rest) ((FsCall.unlink i).apply dir) := by
  have inside : i < files := call_bounds (Or.inr rfl) (own.subset List.mem_cons_self)
  refine ⟨fun entries there x among => ?_, fun some_ => ?_, fun none_ there => ?_⟩
  · obtain ⟨old, rfl, rfl⟩ := Option.map_eq_some_iff.mp there
    obtain ⟨apart, before⟩ := Finset.mem_erase.mp among
    rcases tidy.own old rfl x before with outside | ⟨j, rfl, v, ahead⟩
    · exact Or.inl outside
    · have other : FsCall.unlink j ≠ .unlink i := fun same => apart (by rw [FsCall.unlink.inj same])
      exact Or.inr ⟨j, rfl, v, still_ahead here other ahead⟩
  · obtain ⟨entries, rfl, within⟩ := tidy.kept some_
    refine ⟨_, rfl, fun x among => Finset.mem_erase.mpr ⟨?_, within among⟩⟩
    exact (Finset.mem_filter.mp among).2 i inside
  · exact tidy.gone_still here (by simp) none_ (fun absent => there (by rw [absent]; rfl))

variable {rounds : Fin n → Nat} (suffix : ∀ v, lists v <:+ fsMetaInstance files (rounds v))
include suffix

/-- A directory that cannot be removed yet is left to the instance that is to unlink an entry of it. -/
theorem Tidy.rmdir (here : lists w = .rmdir :: rest) :
    Tidy files start (Function.update lists w rest) (FsCall.rmdir.apply dir) := by
  obtain rfl := rmdir_last (here ▸ suffix w)
  have other := tidy.own_still here (by simp)
  by_cases empty : dir = some ∅
  · have removed : FsCall.rmdir.apply dir = none := if_pos empty
    rw [removed]
    refine ⟨fun _ there => (nomatch there), fun some_ => ?_, fun _ there => absurd rfl there⟩
    obtain ⟨entries, there, within⟩ := tidy.kept some_
    obtain rfl : ∅ = entries := Option.some.inj (empty.symm.trans there)
    exact absurd (Finset.subset_empty.mp within) some_
  · have left : FsCall.rmdir.apply dir = dir := if_neg empty
    rw [left]
    refine ⟨other, tidy.kept, fun none_ there => ?_⟩
    obtain ⟨entries, rfl⟩ := Option.ne_none_iff_exists'.mp there
    obtain ⟨x, among⟩ := Finset.nonempty_iff_ne_empty.mpr (fun same : entries = ∅ => empty (by rw [same]))
    rcases other entries rfl x among with outside | ⟨i, rfl, v, ahead⟩
    · rw [none_] at outside
      exact absurd outside (Finset.notMem_empty x)
    · refine ⟨v, ?_⟩
      have apart : v ≠ w := by
        rintro rfl
        rw [Function.update_self] at ahead
        exact absurd ahead List.not_mem_nil
      rw [Function.update_of_ne apart] at ahead ⊢
      obtain ⟨op_v, rest_v, list⟩ := List.exists_cons_of_ne_nil (List.ne_nil_of_mem ahead)
      rw [list]
      exact rmdir_ahead (list ▸ suffix v)

end Step

/- What calls in a row make of the directory. -/
section Runs

end Runs

end ServMark
