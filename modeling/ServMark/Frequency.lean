import ServMark.Library.CText
import ServMark.Library.Loops

/-! system_lock_frequency and system_restore_frequency over the cpufreq files of sysfs. A file
keeps the text last written to it, and opening it either always or never succeeds. -/
namespace ServMark
open CText

/-- What cpufreq holds for one CPU and which of its files can be opened; frequencies in kHz. -/
structure CpuFreq where
  governor : List Char
  governorReads : Bool
  governorWrites : Bool
  minFreq : UInt32
  minWrites : Bool
  maxFreq : UInt32
  maxReads : Bool

/-- The files and the static variables of system.c; a saved governor is empty at first. -/
structure FreqState where
  sysfs : Nat → CpuFreq
  savedGovernors : Nat → List Char
  savedGovernorCount : Nat

def performance : List Char := "performance".toList

/-- The number of CPUs the lock goes through, from sysconf. -/
def freqCpus (conf : Int) : Nat := if conf ≤ 0 ∨ conf > 4096 then 256 else conf.toNat

/-- The line of scaling_governor in a buffer of 32 bytes, without its newline. -/
def readGovernor (governor : List Char) : List Char :=
  let orig := cString (fgets 31 (governor ++ ['\n'])).1
  if orig.getLast? = some '\n' then orig.dropLast else orig

def origGovernor (f : CpuFreq) : List Char := if f.governorReads then readGovernor f.governor else []

def saveGovernor (st : FreqState) (cpu : Nat) : FreqState :=
  let orig := origGovernor (st.sysfs cpu)
  if orig ≠ [] then { st with savedGovernors := Function.update st.savedGovernors cpu (orig.take 31) } else st

def lockGovernor (st : FreqState) (cpu : Nat) : FreqState :=
  ⟨Function.update st.sysfs cpu { st.sysfs cpu with governor := performance }, st.savedGovernors,
    st.savedGovernorCount + 1⟩

/-- The first loop of the lock, with so many CPUs to go; it ends where a governor cannot be set. -/
def saveLoop : Nat → Nat → FreqState → FreqState
  | 0, _, st => st
  | left + 1, cpu, st =>
    let st := saveGovernor st cpu
    if (st.sysfs cpu).governorWrites then saveLoop left (cpu + 1) (lockGovernor st cpu) else st

def pinFreq (f : CpuFreq) : CpuFreq := if f.maxReads && f.minWrites then { f with minFreq := f.maxFreq } else f

def pinLoop (ncpu : Nat) (sysfs : Nat → CpuFreq) : Nat → CpuFreq :=
  (List.range ncpu).foldl (fun sysfs cpu => Function.update sysfs cpu (pinFreq (sysfs cpu))) sysfs

def systemLockFrequency (conf : Int) (st : FreqState) : FreqState :=
  let st := saveLoop (freqCpus conf) 0 { st with savedGovernorCount := 0 }
  { st with sysfs := pinLoop (freqCpus conf) st.sysfs }

def setGovernor (saved : List Char) (f : CpuFreq) : CpuFreq :=
  if saved ≠ [] ∧ f.governorWrites = true then { f with governor := saved } else f

def restoreLoop (count : Nat) (saved : Nat → List Char) (sysfs : Nat → CpuFreq) : Nat → CpuFreq :=
  (List.range count).foldl (fun sysfs cpu => Function.update sysfs cpu (setGovernor (saved cpu) (sysfs cpu))) sysfs

def systemRestoreFrequency (st : FreqState) : FreqState :=
  ⟨restoreLoop st.savedGovernorCount st.savedGovernors st.sysfs, st.savedGovernors, 0⟩

inductive FreqCall where
  | lock | restore
  deriving DecidableEq

def freqCall (conf : Int) (st : FreqState) : FreqCall → FreqState
  | .lock => systemLockFrequency conf st
  | .restore => systemRestoreFrequency st

/-- The state after these calls, from the files as they are and the static variables of a new process. -/
def freqCalls (conf : Int) (sysfs : Nat → CpuFreq) (calls : List FreqCall) : FreqState :=
  calls.foldl (freqCall conf) ⟨sysfs, fun _ => [], 0⟩

/-- How many CPUs from this one on, up to a number, have a governor that can be set. -/
def writableRun (sysfs : Nat → CpuFreq) : Nat → Nat → Nat
  | 0, _ => 0
  | left + 1, cpu => if (sysfs cpu).governorWrites then writableRun sysfs left (cpu + 1) + 1 else 0

def lockedCpus (conf : Int) (sysfs : Nat → CpuFreq) : Nat := writableRun sysfs (freqCpus conf) 0

/-- The text of a governor file: one line of at most 30 bytes. -/
def GovernorName (governor : List Char) : Prop :=
  governor.length ≤ 30 ∧ ∀ c ∈ governor, c ≠ '\n' ∧ c ≠ Char.ofNat 0

theorem readGovernor_name {governor : List Char} (name : GovernorName governor) : readGovernor governor = governor := by
  have single : '\n' ∉ governor := fun member => (name.2 _ member).1 rfl
  have short := name.1
  have read : fgets 31 (governor ++ ['\n']) = (governor ++ ['\n'], []) := fgets_line single (by omega) []
  have whole : cString (governor ++ ['\n']) = governor ++ ['\n'] := by
    apply cString_eq
    intro c member
    rcases List.mem_append.mp member with inner | last
    · exact (name.2 c inner).2
    · rw [List.mem_singleton.mp last]
      decide
  simp only [readGovernor, read, whole, List.getLast?_append, List.getLast?_singleton, Option.some_or, if_true,
    List.dropLast_concat]

theorem governorName_of {governor : List Char} (short : governor.length ≤ 30)
    (line : governor.all (fun c => c != '\n' && c != Char.ofNat 0) = true) : GovernorName governor := by
  refine ⟨short, fun c member => ?_⟩
  simpa only [Bool.and_eq_true, bne_iff_ne] using List.all_eq_true.mp line c member

theorem performance_name : GovernorName performance := governorName_of (by decide) (by decide)

section Loops
variable {sysfs other : Nat → CpuFreq}

theorem writableRun_congr (same : ∀ c, (sysfs c).governorWrites = (other c).governorWrites) (left cpu : Nat) :
    writableRun sysfs left cpu = writableRun other left cpu := by
  induction left generalizing cpu with
  | zero => rfl
  | succ left ih => simp only [writableRun, same, ih]

theorem writableRun_writes {left cpu c : Nat} (after : cpu ≤ c)
    (before : c < cpu + writableRun sysfs left cpu) :
    (sysfs c).governorWrites = true := by
  induction left generalizing cpu with
  | zero =>
    simp only [writableRun] at before
    omega
  | succ left ih =>
    unfold writableRun at before
    split at before
    · rename_i writes
      rcases Nat.eq_or_lt_of_le after with rfl | later
      · exact writes
      · exact ih (show cpu + 1 ≤ c from later) (by omega)
    · omega

theorem saveGovernor_sysfs (st : FreqState) (cpu : Nat) : (saveGovernor st cpu).sysfs = st.sysfs := by
  unfold saveGovernor
  dsimp only
  split <;> rfl

theorem saveGovernor_count (st : FreqState) (cpu : Nat) :
    (saveGovernor st cpu).savedGovernorCount = st.savedGovernorCount := by
  unfold saveGovernor
  dsimp only
  split <;> rfl

theorem saveGovernor_other (st : FreqState) {cpu c : Nat} (other : c ≠ cpu) :
    (saveGovernor st cpu).savedGovernors c = st.savedGovernors c := by
  unfold saveGovernor
  dsimp only
  split
  · exact Function.update_of_ne other _ _
  · rfl

/-- What the table keeps for a CPU. -/
def savedFor (f : CpuFreq) (before : List Char) : List Char :=
  if origGovernor f ≠ [] then (origGovernor f).take 31 else before

theorem saveGovernor_own (st : FreqState) (cpu : Nat) :
    (saveGovernor st cpu).savedGovernors cpu = savedFor (st.sysfs cpu) (st.savedGovernors cpu) := by
  unfold saveGovernor savedFor
  dsimp only
  split
  · exact Function.update_self ..
  · rfl

theorem lockGovernor_run (st : FreqState) (cpu left next : Nat) :
    writableRun (lockGovernor st cpu).sysfs left next = writableRun st.sysfs left next := by
  apply writableRun_congr
  intro c
  rcases eq_or_ne c cpu with rfl | other
  · simp only [lockGovernor, Function.update_self]
  · simp only [lockGovernor, Function.update_of_ne other]

theorem saveLoop_stops (left : Nat) {cpu : Nat} {st : FreqState} (stops : (st.sysfs cpu).governorWrites = false) :
    saveLoop (left + 1) cpu st = saveGovernor st cpu ∧ writableRun st.sysfs (left + 1) cpu = 0 := by
  simp only [saveLoop, saveGovernor_sysfs, writableRun, stops, Bool.false_eq_true, if_false, and_self]

theorem saveLoop_goes (left : Nat) {cpu : Nat} {st : FreqState} (goes : (st.sysfs cpu).governorWrites = true) :
    saveLoop (left + 1) cpu st = saveLoop left (cpu + 1) (lockGovernor (saveGovernor st cpu) cpu) ∧
      writableRun st.sysfs (left + 1) cpu =
        writableRun (lockGovernor (saveGovernor st cpu) cpu).sysfs left (cpu + 1) + 1 := by
  simp only [saveLoop, saveGovernor_sysfs, writableRun, goes, if_true, lockGovernor_run, and_self]

theorem saveLoop_count (left cpu : Nat) (st : FreqState) :
    (saveLoop left cpu st).savedGovernorCount = st.savedGovernorCount + writableRun st.sysfs left cpu := by
  induction left generalizing cpu st with
  | zero => rfl
  | succ left ih =>
    cases writes : (st.sysfs cpu).governorWrites with
    | false =>
      obtain ⟨loop, run⟩ := saveLoop_stops left writes
      rw [loop, run, saveGovernor_count, Nat.add_zero]
    | true =>
      obtain ⟨loop, run⟩ := saveLoop_goes left writes
      have counted : (lockGovernor (saveGovernor st cpu) cpu).savedGovernorCount = st.savedGovernorCount + 1 :=
        congrArg (· + 1) (saveGovernor_count st cpu)
      rw [loop, run, ih, counted]
      omega

theorem saveLoop_sysfs (left cpu : Nat) (st : FreqState) (c : Nat) : (saveLoop left cpu st).sysfs c =
    if cpu ≤ c ∧ c < cpu + writableRun st.sysfs left cpu then { st.sysfs c with governor := performance }
    else st.sysfs c := by
  induction left generalizing cpu st with
  | zero => exact (if_neg (fun within => by simp only [writableRun] at within; omega)).symm
  | succ left ih =>
    cases writes : (st.sysfs cpu).governorWrites with
    | false =>
      obtain ⟨loop, run⟩ := saveLoop_stops left writes
      rw [loop, run, saveGovernor_sysfs, if_neg (by omega)]
    | true =>
      obtain ⟨loop, run⟩ := saveLoop_goes left writes
      rw [loop, run, ih]
      rcases eq_or_ne c cpu with rfl | other
      · rw [if_neg (by omega), if_pos (by omega)]
        simp only [lockGovernor, saveGovernor_sysfs, Function.update_self]
      · have kept : (lockGovernor (saveGovernor st cpu) cpu).sysfs c = st.sysfs c := by
          simp only [lockGovernor, saveGovernor_sysfs, Function.update_of_ne other]
        rw [kept]
        refine if_congr ?_ rfl rfl
        omega

theorem saveLoop_saved {left cpu : Nat} {st : FreqState} {c : Nat} (before : c < cpu + writableRun st.sysfs left cpu) :
    (saveLoop left cpu st).savedGovernors c =
      if cpu ≤ c then savedFor (st.sysfs c) (st.savedGovernors c) else st.savedGovernors c := by
  induction left generalizing cpu st with
  | zero =>
    simp only [writableRun, Nat.add_zero] at before
    rw [if_neg (by omega)]
    rfl
  | succ left ih =>
    cases writes : (st.sysfs cpu).governorWrites with
    | false =>
      obtain ⟨loop, run⟩ := saveLoop_stops left writes
      rw [run] at before
      rw [loop, saveGovernor_other st (by omega), if_neg (by omega)]
    | true =>
      obtain ⟨loop, run⟩ := saveLoop_goes left writes
      rw [run] at before
      rw [loop, ih (by omega)]
      rcases eq_or_ne c cpu with rfl | other
      · rw [if_neg (by omega), if_pos (Nat.le_refl c)]
        exact saveGovernor_own st c
      · have kept : (lockGovernor (saveGovernor st cpu) cpu).sysfs c = st.sysfs c := by
          simp only [lockGovernor, saveGovernor_sysfs, Function.update_of_ne other]
        have table : (lockGovernor (saveGovernor st cpu) cpu).savedGovernors c = st.savedGovernors c :=
          saveGovernor_other st other
        rw [kept, table]
        refine if_congr ?_ rfl rfl
        omega

end Loops

/-- The saved governor of a CPU can be read and is not empty. -/
def Savable (f : CpuFreq) : Prop := f.governorReads = true ∧ f.governor ≠ []

/-- The frequency files of a CPU the lock goes through work. -/
def Pinnable (conf : Int) (sysfs : Nat → CpuFreq) (cpu : Nat) : Prop :=
  cpu < freqCpus conf ∧ (sysfs cpu).maxReads = true ∧ (sysfs cpu).minWrites = true

instance (f : CpuFreq) : Decidable (Savable f) := inferInstanceAs (Decidable (_ ∧ _))

instance (conf : Int) (sysfs : Nat → CpuFreq) (cpu : Nat) : Decidable (Pinnable conf sysfs cpu) :=
  inferInstanceAs (Decidable (_ ∧ _))

section Calls
variable (conf : Int) (st : FreqState)

theorem lock_count : (systemLockFrequency conf st).savedGovernorCount = lockedCpus conf st.sysfs := by
  simp only [systemLockFrequency, saveLoop_count, lockedCpus, Nat.zero_add]

theorem lock_saved {c : Nat} (inside : c < lockedCpus conf st.sysfs) :
    (systemLockFrequency conf st).savedGovernors c = savedFor (st.sysfs c) (st.savedGovernors c) := by
  have before : c < 0 + writableRun { st with savedGovernorCount := 0 }.sysfs (freqCpus conf) 0 := by
    rwa [Nat.zero_add]
  exact (saveLoop_saved before).trans (if_pos (Nat.zero_le c))

theorem pinLoop_cell (ncpu : Nat) (sysfs : Nat → CpuFreq) (c : Nat) : pinLoop ncpu sysfs c = { sysfs c with
    minFreq := if c < ncpu ∧ (sysfs c).maxReads = true ∧ (sysfs c).minWrites = true then (sysfs c).maxFreq
      else (sysfs c).minFreq } := by
  have cell : pinLoop ncpu sysfs c = if c < ncpu then pinFreq (sysfs c) else sysfs c :=
    Loops.foldl_cells (fun _ => pinFreq) ncpu sysfs c
  simp only [cell, pinFreq, Bool.and_eq_true]
  by_cases counted : c < ncpu
  · by_cases works : (sysfs c).maxReads = true ∧ (sysfs c).minWrites = true
    · rw [if_pos counted, if_pos works, if_pos ⟨counted, works⟩]
    · rw [if_pos counted, if_neg works, if_neg (fun both => works both.2)]
  · rw [if_neg counted, if_neg (fun both => counted both.1)]

theorem lock_sysfs (c : Nat) : (systemLockFrequency conf st).sysfs c = { st.sysfs c with
    governor := if c < lockedCpus conf st.sysfs then performance else (st.sysfs c).governor
    minFreq := if Pinnable conf st.sysfs c then (st.sysfs c).maxFreq else (st.sysfs c).minFreq } := by
  have locked : (saveLoop (freqCpus conf) 0 { st with savedGovernorCount := 0 }).sysfs c = { st.sysfs c with
      governor := if c < lockedCpus conf st.sysfs then performance else (st.sysfs c).governor } := by
    have run : writableRun st.sysfs (freqCpus conf) 0 = lockedCpus conf st.sysfs := rfl
    simp only [saveLoop_sysfs, Nat.zero_le, true_and, Nat.zero_add, run]
    split <;> rfl
  simp only [systemLockFrequency, pinLoop_cell, locked]
  rfl

theorem restore_sysfs (c : Nat) : (systemRestoreFrequency st).sysfs c = { st.sysfs c with
    governor := if c < st.savedGovernorCount ∧ st.savedGovernors c ≠ [] ∧ (st.sysfs c).governorWrites = true then
      st.savedGovernors c else (st.sysfs c).governor } := by
  have cell : (systemRestoreFrequency st).sysfs c = if c < st.savedGovernorCount then
      setGovernor (st.savedGovernors c) (st.sysfs c) else st.sysfs c :=
    Loops.foldl_cells (fun cpu => setGovernor (st.savedGovernors cpu)) _ _ c
  simp only [cell, setGovernor]
  by_cases inside : c < st.savedGovernorCount
  · by_cases set : st.savedGovernors c ≠ [] ∧ (st.sysfs c).governorWrites = true
    · rw [if_pos inside, if_pos set, if_pos ⟨inside, set⟩]
    · rw [if_pos inside, if_neg set, if_neg (fun both => set both.2)]
  · rw [if_neg inside, if_neg (fun both => inside both.1)]

end Calls

/-- How a CPU whose governor is saved fares: as it was, locked, or locked with its own governor
overwritten in the table. -/
inductive Hold where
  | free | held | lost
  deriving DecidableEq

def Hold.next : Hold → FreqCall → Hold
  | .free, .lock => .held
  | .held, .lock => .lost
  | .lost, .lock => .lost
  | .free, .restore => .free
  | .held, .restore => .free
  | .lost, .restore => .lost

def holdAfter (calls : List FreqCall) : Hold := calls.foldl Hold.next .free

theorem holdAfter_append (calls : List FreqCall) (call : FreqCall) :
    holdAfter (calls ++ [call]) = (holdAfter calls).next call := List.foldl_append ..

theorem freqCalls_append (conf : Int) (sysfs : Nat → CpuFreq) (calls : List FreqCall) (call : FreqCall) :
    freqCalls conf sysfs (calls ++ [call]) = freqCall conf (freqCalls conf sysfs calls) call := List.foldl_append ..

theorem hold_last (calls : List FreqCall) :
    (holdAfter calls = .held → calls.getLast? = some .lock) ∧
      (holdAfter calls = .free → calls.getLast? ≠ some .lock) := by
  induction calls using List.reverseRecOn with
  | nil => exact ⟨fun held => (nomatch held), fun _ last => (nomatch last)⟩
  | append_singleton calls call ih =>
    rw [holdAfter_append, List.getLast?_concat]
    cases holdAfter calls <;> cases call <;> simp [Hold.next]

theorem twice_concat (calls : List FreqCall) (call : FreqCall) :
    [FreqCall.lock, .lock] <:+ calls ++ [call] ↔ call = .lock ∧ calls.getLast? = some .lock := by
  rw [List.suffix_concat_iff, ← List.singleton_suffix_iff_getLast?_eq_some]
  constructor
  · rintro (none_ | ⟨front, pair, suffix⟩)
    · cases none_
    · obtain ⟨rfl, last⟩ := List.append_inj' (show [FreqCall.lock] ++ [.lock] = front ++ [call] from pair) rfl
      exact ⟨(List.singleton_inj.mp last).symm, suffix⟩
  · rintro ⟨rfl, suffix⟩
    exact Or.inr ⟨[.lock], rfl, suffix⟩

/-- The saved governor is lost exactly when one lock directly follows another. -/
theorem hold_lost_iff (calls : List FreqCall) : holdAfter calls = .lost ↔ [.lock, .lock] <:+: calls := by
  induction calls using List.reverseRecOn with
  | nil => simp [holdAfter]
  | append_singleton calls call ih =>
    obtain ⟨held, free⟩ := hold_last calls
    rw [holdAfter_append, List.infix_concat_iff, ← ih, twice_concat]
    cases phase : holdAfter calls with
    | free => cases call <;> simp [Hold.next, free phase]
    | held => cases call <;> simp [Hold.next, held phase]
    | lost => cases call <;> simp [Hold.next]

theorem origGovernor_eq {f : CpuFreq} (name : GovernorName f.governor) :
    origGovernor f = if f.governorReads then f.governor else [] := by
  rw [origGovernor, readGovernor_name name]

theorem savedFor_eq {f : CpuFreq} (name : GovernorName f.governor) (before : List Char) :
    savedFor f before = if Savable f then f.governor else before := by
  have orig := origGovernor_eq name
  by_cases savable : Savable f
  · rw [if_pos savable.1] at orig
    rw [savedFor, orig, if_pos savable.2, if_pos savable, List.take_of_length_le (by have := name.1; omega)]
  · have none_ : origGovernor f = [] := by
      rw [orig]
      split
      · rename_i reads
        by_contra some_
        exact savable ⟨reads, some_⟩
      · rfl
    rw [savedFor, none_, if_neg (not_not.mpr rfl), if_neg savable]

/-- The files and the table after some calls, told from the files at the start. -/
structure Tracks (conf : Int) (start : Nat → CpuFreq) (calls : List FreqCall) (st : FreqState) : Prop where
  files : ∀ c, st.sysfs c = { start c with
    governor := (st.sysfs c).governor
    minFreq := if .lock ∈ calls ∧ Pinnable conf start c then (start c).maxFreq else (start c).minFreq }
  count : st.savedGovernorCount = if calls.getLast? = some .lock then lockedCpus conf start else 0
  beyond : ∀ c, lockedCpus conf start ≤ c → (st.sysfs c).governor = (start c).governor
  unsaved : ∀ c, c < lockedCpus conf start → ¬ Savable (start c) →
    (st.savedGovernors c = [] ∨ st.savedGovernors c = performance) ∧
    (st.sysfs c).governor = if .lock ∈ calls then performance else (start c).governor
  saved : ∀ c, c < lockedCpus conf start → Savable (start c) →
    match holdAfter calls with
    | .free => (st.sysfs c).governor = (start c).governor
    | .held => (st.sysfs c).governor = performance ∧ st.savedGovernors c = (start c).governor
    | .lost => (st.sysfs c).governor = performance ∧ st.savedGovernors c = performance

section Tracks
variable {conf : Int} {start : Nat → CpuFreq} {calls : List FreqCall} {st : FreqState}

theorem tracks_start (conf : Int) (start : Nat → CpuFreq) : Tracks conf start [] ⟨start, fun _ => [], 0⟩ where
  files := fun c => by simp
  count := rfl
  beyond := fun _ _ => rfl
  unsaved := fun _ _ _ => ⟨Or.inl rfl, by simp⟩
  saved := fun _ _ _ => rfl

theorem Tracks.cpus (tracks : Tracks conf start calls st) : lockedCpus conf st.sysfs = lockedCpus conf start :=
  writableRun_congr (fun c => by rw [tracks.files c]) _ _

theorem Tracks.savable (tracks : Tracks conf start calls st) {c : Nat} :
    Savable (st.sysfs c) ↔ (start c).governorReads = true ∧ (st.sysfs c).governor ≠ [] := by
  have reads : (st.sysfs c).governorReads = (start c).governorReads := by rw [tracks.files c]
  rw [Savable, reads]

/-- Every governor a run leaves is one of the start or performance. -/
theorem Tracks.governor (tracks : Tracks conf start calls st) (c : Nat) :
    (st.sysfs c).governor = (start c).governor ∨ (st.sysfs c).governor = performance := by
  rcases Nat.lt_or_ge c (lockedCpus conf start) with inside | outside
  · by_cases savable : Savable (start c)
    · have saved := tracks.saved c inside savable
      cases phase : holdAfter calls with
      | free => exact Or.inl (by simpa only [phase] using saved)
      | held => exact Or.inr (by simp only [phase] at saved; exact saved.1)
      | lost => exact Or.inr (by simp only [phase] at saved; exact saved.1)
    · rw [(tracks.unsaved c inside savable).2]
      split
      · exact Or.inr rfl
      · exact Or.inl rfl
  · exact Or.inl (tracks.beyond c outside)

variable (names : ∀ c, GovernorName (start c).governor)
include names

theorem Tracks.name (tracks : Tracks conf start calls st) (c : Nat) : GovernorName (st.sysfs c).governor := by
  rcases tracks.governor c with own | locked
  · rw [own]
    exact names c
  · rw [locked]
    exact performance_name

theorem tracks_lock (tracks : Tracks conf start calls st) :
    Tracks conf start (calls ++ [.lock]) (systemLockFrequency conf st) := by
  have member : FreqCall.lock ∈ calls ++ [.lock] := by simp
  have pinnable : ∀ c, Pinnable conf st.sysfs c ↔ Pinnable conf start c := by
    intro c
    rw [Pinnable, tracks.files c]
    rfl
  have cell : ∀ c, (systemLockFrequency conf st).sysfs c = { start c with
      governor := if c < lockedCpus conf start then performance else (st.sysfs c).governor
      minFreq := if Pinnable conf start c then (start c).maxFreq else (start c).minFreq } := by
    intro c
    rw [lock_sysfs, tracks.cpus, tracks.files c]
    by_cases pins : Pinnable conf start c
    · simp only [(pinnable c).mpr pins, pins, if_true]
    · simp only [pinnable c, pins, and_false, if_false]
  have governor : ∀ c, c < lockedCpus conf start →
      ((systemLockFrequency conf st).sysfs c).governor = performance := by
    intro c inside
    rw [cell c]
    exact if_pos inside
  have table : ∀ c, c < lockedCpus conf start → (systemLockFrequency conf st).savedGovernors c =
      if Savable (st.sysfs c) then (st.sysfs c).governor else st.savedGovernors c := by
    intro c inside
    rw [lock_saved conf st (by rwa [tracks.cpus]), savedFor_eq (tracks.name names c)]
  refine ⟨fun c => ?_, ?_, fun c outside => ?_, fun c inside unsavable => ?_, fun c inside savable => ?_⟩
  · rw [cell c]
    simp only [member, true_and]
  · rw [lock_count, tracks.cpus, List.getLast?_concat, if_pos rfl]
  · rw [cell c]
    exact (if_neg (Nat.not_lt_of_le outside)).trans (tracks.beyond c outside)
  · refine ⟨?_, ?_⟩
    · rw [table c inside]
      split
      · rename_i found
        obtain ⟨reads, some_⟩ := tracks.savable.mp found
        refine Or.inr ((tracks.governor c).resolve_left (fun own => unsavable ⟨reads, ?_⟩))
        rwa [← own]
      · exact (tracks.unsaved c inside unsavable).1
    · rw [governor c inside, if_pos member]
  · have now := tracks.saved c inside savable
    have found : (st.sysfs c).governor ≠ [] → (systemLockFrequency conf st).savedGovernors c = (st.sysfs c).governor :=
      fun some_ => (table c inside).trans (if_pos (tracks.savable.mpr ⟨savable.1, some_⟩))
    have solid : performance ≠ [] := by decide
    rw [holdAfter_append]
    cases phase : holdAfter calls with
    | free =>
      simp only [phase] at now
      rw [now] at found
      exact ⟨governor c inside, found savable.2⟩
    | held =>
      simp only [phase] at now
      rw [now.1] at found
      exact ⟨governor c inside, found solid⟩
    | lost =>
      simp only [phase] at now
      rw [now.1] at found
      exact ⟨governor c inside, found solid⟩

omit names in
theorem tracks_restore (tracks : Tracks conf start calls st) :
    Tracks conf start (calls ++ [.restore]) (systemRestoreFrequency st) := by
  have member : FreqCall.lock ∈ calls ++ [.restore] ↔ .lock ∈ calls := by simp
  have some_lock : calls.getLast? = some .lock → FreqCall.lock ∈ calls := List.mem_of_getLast?
  have writes : ∀ c, (st.sysfs c).governorWrites = (start c).governorWrites := fun c => by rw [tracks.files c]
  have written : ∀ c, ((systemRestoreFrequency st).sysfs c).governor =
      if c < st.savedGovernorCount ∧ st.savedGovernors c ≠ [] ∧ (start c).governorWrites = true then
        st.savedGovernors c else (st.sysfs c).governor := by
    intro c
    rw [restore_sysfs, ← writes c]
  have count := tracks.count
  refine ⟨fun c => ?_, ?_, fun c outside => ?_, fun c inside unsavable => ?_, fun c inside savable => ?_⟩
  · rw [restore_sysfs, tracks.files c]
    simp only [member]
  · rw [List.getLast?_concat, if_neg (by decide)]
    rfl
  · have unwritten : ¬ c < st.savedGovernorCount := by
      rw [count]
      split <;> omega
    rw [written c, if_neg (fun both => unwritten both.1)]
    exact tracks.beyond c outside
  · obtain ⟨table, governor⟩ := tracks.unsaved c inside unsavable
    refine ⟨table, ?_⟩
    rw [written c]
    split
    · rename_i goes
      have last : calls.getLast? = some .lock := by
        by_contra other
        rw [count, if_neg other] at goes
        exact absurd goes.1 (Nat.not_lt_zero c)
      rw [if_pos (member.mpr (some_lock last))]
      exact table.resolve_left goes.2.1
    · simp only [governor, member]
  · have now := tracks.saved c inside savable
    obtain ⟨held, free⟩ := hold_last calls
    rw [holdAfter_append]
    cases phase : holdAfter calls with
    | free =>
      simp only [phase] at now
      rw [if_neg (free phase)] at count
      refine (written c).trans ((if_neg (fun both => ?_)).trans now)
      rw [count] at both
      exact absurd both.1 (Nat.not_lt_zero c)
    | held =>
      simp only [phase] at now
      rw [if_pos (held phase)] at count
      have opens : (start c).governorWrites = true :=
        writableRun_writes (Nat.zero_le c) (by rw [Nat.zero_add]; exact inside)
      refine (written c).trans ((if_pos ⟨?_, ?_, opens⟩).trans now.2)
      · rw [count]
        exact inside
      · rw [now.2]
        exact savable.2
    | lost =>
      simp only [phase] at now
      refine ⟨?_, now.2⟩
      rw [written c]
      split
      · exact now.2
      · exact now.1

theorem freqCalls_tracks (calls : List FreqCall) : Tracks conf start calls (freqCalls conf start calls) := by
  induction calls using List.reverseRecOn with
  | nil => exact tracks_start conf start
  | append_singleton calls call ih =>
    rw [freqCalls_append]
    cases call with
    | lock => exact tracks_lock names ih
    | restore => exact tracks_restore ih

end Tracks

/-- Everything is as before exactly if every locked CPU had the governor performance or one that
could be saved, with no lock on top of another, and every pinned CPU had its minimum at its maximum. -/
theorem restore_undoes_iff (conf : Int) (sysfs : Nat → CpuFreq) (names : ∀ c, GovernorName (sysfs c).governor)
    (calls : List FreqCall) (starts : calls.head? = some .lock) (ends : calls.getLast? = some .restore) :
    (∀ c, ((freqCalls conf sysfs calls).sysfs c).governor = (sysfs c).governor ∧
        ((freqCalls conf sysfs calls).sysfs c).minFreq = (sysfs c).minFreq) ↔
      (∀ c, c < lockedCpus conf sysfs → (sysfs c).governor = performance ∨
          Savable (sysfs c) ∧ ¬ [.lock, .lock] <:+: calls) ∧
        ∀ c, Pinnable conf sysfs c → (sysfs c).minFreq = (sysfs c).maxFreq := by
  have tracks : Tracks conf sysfs calls (freqCalls conf sysfs calls) := freqCalls_tracks names calls
  have member : FreqCall.lock ∈ calls := List.mem_of_head? starts
  have freq : ∀ c, ((freqCalls conf sysfs calls).sysfs c).minFreq =
      if Pinnable conf sysfs c then (sysfs c).maxFreq else (sysfs c).minFreq := by
    intro c
    rw [tracks.files c]
    simp only [member, true_and]
  have governor : ∀ c, ((freqCalls conf sysfs calls).sysfs c).governor = (sysfs c).governor ↔
      (c < lockedCpus conf sysfs → (sysfs c).governor = performance ∨
        Savable (sysfs c) ∧ ¬ [.lock, .lock] <:+: calls) := by
    intro c
    rcases Nat.lt_or_ge c (lockedCpus conf sysfs) with inside | outside
    · rw [forall_prop_of_true inside]
      by_cases savable : Savable (sysfs c)
      · have now := tracks.saved c inside savable
        rw [← hold_lost_iff]
        cases phase : holdAfter calls with
        | free =>
          simp only [phase] at now
          exact iff_of_true now (Or.inr ⟨savable, fun lost => (nomatch lost)⟩)
        | held =>
          have last := (hold_last calls).1 phase
          rw [ends] at last
          cases last
        | lost =>
          simp only [phase] at now
          rw [now.1]
          exact ⟨fun same => Or.inl same.symm, fun either => (either.resolve_right (fun both => both.2 rfl)).symm⟩
      · rw [(tracks.unsaved c inside savable).2, if_pos member]
        exact ⟨fun same => Or.inl same.symm, fun either => (either.resolve_right (fun both => savable both.1)).symm⟩
    · exact iff_of_true (tracks.beyond c outside) (fun inside => absurd inside (Nat.not_lt_of_le outside))
  have minimum : ∀ c, ((freqCalls conf sysfs calls).sysfs c).minFreq = (sysfs c).minFreq ↔
      (Pinnable conf sysfs c → (sysfs c).minFreq = (sysfs c).maxFreq) := by
    intro c
    rw [freq c]
    by_cases pins : Pinnable conf sysfs c
    · rw [if_pos pins, forall_prop_of_true pins]
      exact eq_comm
    · rw [if_neg pins]
      exact iff_of_true rfl (fun own => absurd own pins)
  rw [forall_and]
  exact and_congr (forall_congr' governor) (forall_congr' minimum)

/- Every CPU saves power and may run slower than its maximum. -/
def slowCpus (_ : Nat) : CpuFreq := ⟨"powersave".toList, true, true, 800000, true, 3000000, true⟩

theorem slowCpus_names (c : Nat) : GovernorName (slowCpus c).governor :=
  have name : GovernorName "powersave".toList := governorName_of (by decide) (by decide)
  name

theorem slowCpus_undoes_iff :
    (∀ c, ((freqCalls 1 slowCpus [.lock, .restore]).sysfs c).governor = (slowCpus c).governor ∧
        ((freqCalls 1 slowCpus [.lock, .restore]).sysfs c).minFreq = (slowCpus c).minFreq) ↔
      (∀ c, c < lockedCpus 1 slowCpus → (slowCpus c).governor = performance ∨
          Savable (slowCpus c) ∧ ¬ [.lock, .lock] <:+: [FreqCall.lock, .restore]) ∧
        ∀ c, Pinnable 1 slowCpus c → (slowCpus c).minFreq = (slowCpus c).maxFreq :=
  restore_undoes_iff 1 slowCpus slowCpus_names [.lock, .restore] rfl rfl

/-- The minimum stays at the maximum, and after two locks in a row the governor stays as well. -/
theorem minFreq_stays :
    (∀ c, GovernorName (slowCpus c).governor) ∧
      ((freqCalls 1 slowCpus [.lock, .restore]).sysfs 0).minFreq ≠ (slowCpus 0).minFreq ∧
      ((freqCalls 1 slowCpus [.lock, .lock, .restore]).sysfs 0).governor ≠ (slowCpus 0).governor :=
  ⟨slowCpus_names, by decide, by decide⟩

end ServMark
