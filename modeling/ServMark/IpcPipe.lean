import ServMark.Library.FileTable

/-! ipc_pipe.c: the descriptors of the process from ipc_pipe_init through any number of calls of
ipc_pipe_measure, and the bytes that go through its pipes. -/
namespace ServMark
open FileTable

def msgSize : Nat := 512

def numMsgs : Nat := 500000

/-- The rounds of ipc_pipe_warmup. -/
def warmupMsgs : Nat := 1000

inductive Descriptor where
  | other
  | readEnd (pipe : Nat)
  | writeEnd (pipe : Nat)
  deriving DecidableEq

/-- The descriptors of a process, the pipes made so far and the bytes in each that are not read. -/
structure PipeProcess where
  table : Table Descriptor
  pipes : Nat
  unread : Nat → Nat

structure IpcPipe where
  process : PipeProcess
  pipeFd0 : Nat
  pipeFd1 : Nat

/-- What a call of ipc_pipe_measure divides by the time, and what its child has read. -/
@[ext] structure PipeResult where
  totalBytes : Nat
  received : Nat
  deriving DecidableEq

/-- pipe(s->pipe_fd). -/
def makePipe (p : PipeProcess) : IpcPipe :=
  let opened := install p.table (.readEnd p.pipes)
  ⟨⟨install opened (.writeEnd p.pipes), p.pipes + 1, Function.update p.unread p.pipes 0⟩, lowestFree p.table,
    lowestFree opened⟩

/-- write, of which the callers do not look at the result. -/
def writeFd (p : PipeProcess) (fd n : Nat) : PipeProcess :=
  match lookup p.table fd with
  | some (.writeEnd q) => { p with unread := Function.update p.unread q (p.unread q + n) }
  | _ => p

/-- read behind all writes, with no writer left: what there is, or 0. -/
def readFd (p : PipeProcess) (fd n : Nat) : Nat × PipeProcess :=
  match lookup p.table fd with
  | some (.readEnd q) => (min n (p.unread q), { p with unread := Function.update p.unread q (p.unread q - n) })
  | _ => (0, p)

/-- The loop of the parent, with the bytes it has counted. -/
def writerLoop (fd : Nat) : Nat → PipeProcess × Nat → PipeProcess × Nat
  | 0, counted => counted
  | n + 1, (p, total) => writerLoop fd n (writeFd p fd msgSize, total + msgSize)

/-- The loop of the child of ipc_pipe_warmup. -/
def warmupReader (fd : Nat) : Nat → PipeProcess → PipeProcess
  | 0, p => p
  | n + 1, p => if (readFd p fd msgSize).1 = 0 then p else warmupReader fd n (readFd p fd msgSize).2

/-- The loop of the child of ipc_pipe_measure. -/
def readerLoop (limit fd bytes : Nat) (p : PipeProcess) : Nat × PipeProcess :=
  if bytes < limit then
    if (readFd p fd msgSize).1 = 0 then (bytes, p)
    else readerLoop limit fd (bytes + (readFd p fd msgSize).1) (readFd p fd msgSize).2
  else (bytes, p)
termination_by limit - bytes

def ipcPipeInit (table : Table Descriptor) : IpcPipe := makePipe ⟨table, 0, fun _ => 0⟩

/-- The child works on a copy of the descriptors and closes the end that the parent writes to. -/
def ipcPipeWarmup (s : IpcPipe) : IpcPipe :=
  let child := close s.process.table s.pipeFd1
  let parent := close s.process.table s.pipeFd0
  let written := (writerLoop s.pipeFd1 warmupMsgs ({ s.process with table := parent }, 0)).1
  let taken := warmupReader s.pipeFd0 warmupMsgs { written with table := child }
  makePipe { taken with table := close parent s.pipeFd1 }

def ipcPipeMeasure (s : IpcPipe) : IpcPipe × PipeResult :=
  let child := close s.process.table s.pipeFd1
  let parent := close s.process.table s.pipeFd0
  let written := writerLoop s.pipeFd1 numMsgs ({ s.process with table := parent }, 0)
  let taken := readerLoop (numMsgs * msgSize) s.pipeFd0 0 { written.1 with table := child }
  ({ s with process := { taken.2 with table := close parent s.pipeFd1 } }, ⟨written.2, taken.1⟩)

def pipeMeasures : Nat → IpcPipe → List PipeResult
  | 0, _ => []
  | k + 1, s => (ipcPipeMeasure s).2 :: pipeMeasures k (ipcPipeMeasure s).1

/-- init, warmup and k calls of measure in a process with these descriptors. -/
def ipcPipeRun (table : Table Descriptor) (k : Nat) : List PipeResult :=
  pipeMeasures k (ipcPipeWarmup (ipcPipeInit table))

/-- Every call counts as many bytes as its child reads. -/
def Transferred (results : List PipeResult) : Prop := ∀ result ∈ results, result.totalBytes = result.received

theorem writerLoop_total (fd n total : Nat) (p : PipeProcess) :
    (writerLoop fd n (p, total)).2 = total + n * msgSize := by
  induction n generalizing p total with
  | zero => simp only [writerLoop, Nat.zero_mul, Nat.add_zero]
  | succ n ih =>
    simp only [writerLoop, ih, Nat.succ_mul]
    omega

theorem writerLoop_filled {fd q : Nat} (n total : Nat) {p : PipeProcess}
    (opened : lookup p.table fd = some (.writeEnd q)) :
    (writerLoop fd n (p, total)).1 = { p with unread := Function.update p.unread q (p.unread q + n * msgSize) } := by
  induction n generalizing p total with
  | zero => simp only [writerLoop, Nat.zero_mul, Nat.add_zero, Function.update_eq_self]
  | succ n ih =>
    have one : writeFd p fd msgSize = { p with unread := Function.update p.unread q (p.unread q + msgSize) } := by
      simp only [writeFd, opened]
    have rest := ih (total + msgSize) (p := writeFd p fd msgSize) (by rw [one]; exact opened)
    rw [writerLoop, rest, one]
    simp only [Function.update_self, Function.update_idem, Nat.succ_mul]
    simp only [Nat.add_assoc, Nat.add_comm msgSize]

theorem readerLoop_closed {limit fd bytes : Nat} {p : PipeProcess} (closed : lookup p.table fd = none) :
    readerLoop limit fd bytes p = (bytes, p) := by
  have nothing : (readFd p fd msgSize).1 = 0 := by simp only [readFd, closed]
  rw [readerLoop, if_pos nothing, ite_self]

/-- The child takes whole messages until there are none. -/
theorem readerLoop_all {fd q limit : Nat} (n bytes : Nat) {p : PipeProcess}
    (opened : lookup p.table fd = some (.readEnd q)) (there : p.unread q = n * msgSize)
    (room : bytes + n * msgSize = limit) : (readerLoop limit fd bytes p).1 = limit := by
  have size : 0 < msgSize := by decide
  induction n generalizing p bytes with
  | zero =>
    simp only [Nat.zero_mul, Nat.add_zero] at room
    rw [readerLoop, if_neg (by omega)]
    exact room
  | succ n ih =>
    simp only [Nat.succ_mul] at there room
    have one : readFd p fd msgSize = (msgSize, { p with unread := Function.update p.unread q (n * msgSize) }) := by
      have whole : min msgSize (p.unread q) = msgSize := by omega
      have left : p.unread q - msgSize = n * msgSize := by omega
      simp only [readFd, opened, whole, left]
    rw [readerLoop, if_pos (by omega), one, if_neg (Nat.ne_of_gt size)]
    exact ih _ opened (Function.update_self q _ _) (by omega)

/-- The two descriptors of the state are the ends of one pipe with nothing in it. -/
structure Fresh (s : IpcPipe) (q : Nat) : Prop where
  reads : lookup s.process.table s.pipeFd0 = some (.readEnd q)
  writes : lookup s.process.table s.pipeFd1 = some (.writeEnd q)
  empty : s.process.unread q = 0

structure BothClosed (s : IpcPipe) : Prop where
  reads : lookup s.process.table s.pipeFd0 = none
  writes : lookup s.process.table s.pipeFd1 = none

theorem makePipe_fresh (p : PipeProcess) : Fresh (makePipe p) p.pipes where
  reads := lookup_install_of_open (lookup_install p.table _) _
  writes := lookup_install _ _
  empty := Function.update_self p.pipes 0 p.unread

theorem Fresh.apart {s : IpcPipe} {q : Nat} (fresh : Fresh s q) : s.pipeFd1 ≠ s.pipeFd0 := by
  intro same
  have reads := fresh.reads
  simp only [← same, fresh.writes] at reads
  cases reads

theorem measure_closes (s : IpcPipe) : BothClosed (ipcPipeMeasure s).1 := by
  have table : (ipcPipeMeasure s).1.process.table = close (close s.process.table s.pipeFd0) s.pipeFd1 := rfl
  refine ⟨?_, ?_⟩
  · simp only [table]
    exact lookup_close_none (lookup_close _ _) _
  · simp only [table]
    exact lookup_close _ _

theorem measure_total (s : IpcPipe) : (ipcPipeMeasure s).2.totalBytes = numMsgs * msgSize := by
  simp only [ipcPipeMeasure, writerLoop_total, Nat.zero_add]

theorem measure_fresh {s : IpcPipe} {q : Nat} (fresh : Fresh s q) :
    (ipcPipeMeasure s).2.received = numMsgs * msgSize := by
  have writes : lookup (close s.process.table s.pipeFd0) s.pipeFd1 = some (.writeEnd q) :=
    (lookup_close_of_ne _ fresh.apart).trans fresh.writes
  have reads : lookup (close s.process.table s.pipeFd1) s.pipeFd0 = some (.readEnd q) :=
    (lookup_close_of_ne _ fresh.apart.symm).trans fresh.reads
  have filled := writerLoop_filled numMsgs 0 (p := { s.process with table := close s.process.table s.pipeFd0 }) writes
  refine readerLoop_all numMsgs 0 (q := q) reads ?_ (Nat.zero_add _)
  rw [filled]
  simp only [Function.update_self, fresh.empty, Nat.zero_add]

theorem measure_closed {s : IpcPipe} (closed : BothClosed s) : (ipcPipeMeasure s).2.received = 0 := by
  have reads : lookup (close s.process.table s.pipeFd1) s.pipeFd0 = none := lookup_close_none closed.reads _
  exact congrArg Prod.fst (readerLoop_closed reads)

/-- Every call behind the first one counts bytes that go nowhere. -/
theorem pipeMeasures_closed (k : Nat) {s : IpcPipe} (closed : BothClosed s) :
    pipeMeasures k s = List.replicate k ⟨numMsgs * msgSize, 0⟩ := by
  induction k generalizing s with
  | zero => rfl
  | succ k ih =>
    have result : (ipcPipeMeasure s).2 = ⟨numMsgs * msgSize, 0⟩ :=
      PipeResult.ext (measure_total s) (measure_closed closed)
    simp only [pipeMeasures, result, ih (measure_closes s)]
    rfl

theorem ipcPipeRun_results (table : Table Descriptor) (k : Nat) :
    ipcPipeRun table (k + 1) = ⟨numMsgs * msgSize, numMsgs * msgSize⟩ :: List.replicate k ⟨numMsgs * msgSize, 0⟩ := by
  obtain ⟨q, fresh⟩ : ∃ q, Fresh (ipcPipeWarmup (ipcPipeInit table)) q := ⟨_, makePipe_fresh _⟩
  have result : (ipcPipeMeasure (ipcPipeWarmup (ipcPipeInit table))).2 = ⟨numMsgs * msgSize, numMsgs * msgSize⟩ :=
    PipeResult.ext (measure_total _) (measure_fresh fresh)
  simp only [ipcPipeRun, pipeMeasures, result, pipeMeasures_closed k (measure_closes _)]

theorem bytes_positive : 0 < numMsgs * msgSize := Nat.mul_pos (by decide) (by decide)

/-- All calls count only what their children read if and only if there is just one call. -/
theorem bytes_transferred_iff (table : Table Descriptor) (k : Nat) (calls : 1 ≤ k) :
    Transferred (ipcPipeRun table k) ↔ k = 1 := by
  obtain ⟨k, rfl⟩ : ∃ j, k = j + 1 := ⟨k - 1, by omega⟩
  simp only [ipcPipeRun_results]
  constructor
  · intro all
    by_contra more
    obtain ⟨j, rfl⟩ : ∃ j, k = j + 1 := ⟨k - 1, by omega⟩
    have second := all ⟨numMsgs * msgSize, 0⟩ (by simp [List.replicate_succ])
    exact absurd second (Nat.ne_of_gt bytes_positive)
  · intro one
    obtain rfl : k = 0 := by omega
    intro result member
    simp only [List.replicate_zero, List.mem_singleton] at member
    simp only [member]

/-- The process has its three standard descriptors open. -/
theorem one_call_transfers : Transferred (ipcPipeRun [some .other, some .other, some .other] 1) :=
  (bytes_transferred_iff [some .other, some .other, some .other] 1 (Nat.le_refl 1)).mpr rfl

theorem second_call_reaches_nobody : ¬ Transferred (ipcPipeRun [some .other, some .other, some .other] 2) := by
  intro all
  have second := all ⟨numMsgs * msgSize, 0⟩ (by rw [ipcPipeRun_results]; simp [List.replicate_succ])
  exact absurd second (Nat.ne_of_gt bytes_positive)

end ServMark
