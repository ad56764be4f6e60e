import Mathlib.Analysis.SpecialFunctions.Log.Basic
import Mathlib.Tactic
import ServMark.Library.Strtod

/-! Data model of servmark.h, benchmark.h and harness.h.
A C double is an element of an ordered field, so that arithmetic is exact; the libm
functions a module calls are a class of their own. A C string is a String where it is
only compared, a list of characters (one for each byte) where its text is parsed. -/
namespace ServMark

/-- The part of libm that the statistics and the scores call. -/
class Libm (α : Type) where
  sqrt : α → α
  log : α → α
  exp : α → α

noncomputable instance : Libm ℝ where
  sqrt := Real.sqrt
  log := Real.log
  exp := Real.exp

abbrev ssbMaxIterations : Nat := 31
abbrev ssbMinIterations : Int := 5
abbrev ssbMinRuntimeSec : Int := 10
abbrev ssbMaxRuntimeSec : Int := 180
abbrev ssbBootstrapResamples : Nat := 10000

section Thresholds
variable {α : Type} [Field α]

def ssbConvergenceTarget : α := 2 / 100
/-- The bound stats_compute writes as a literal. -/
def statsSemBound : α := 2 / 100
def ssbCvStable : α := 2 / 100
def ssbCvModerate : α := 5 / 100
def ssbCvHigh : α := 10 / 100

end Thresholds

/- A benchmark_t without its callbacks: what these answer is an input of a run. The
pointers init, measure and cleanup are never NULL, warmup may be. -/
structure Benchmark (α : Type) where
  name : String
  category : String
  tier : Nat
  higherIsBetter : Bool
  minIterations : Int
  maxIterations : Int
  convergenceTarget : α
  minRuntimeSec : Int
  maxRuntimeSec : Int
  hasWarmup : Bool
  numThreads : Int

/-- The list rawValues holds the cells stored from raw_values[0] on. Nothing here keeps
it within the ssbMaxIterations cells of the C array: that is a claim about the callers. -/
structure BenchmarkStats (α : Type) where
  mean : α
  stddev : α
  sem : α
  cv : α
  ciLower : α
  ciUpper : α
  iterations : Int
  converged : Bool
  reliability : Option String
  rawValues : List α

/-- The content calloc leaves: numbers zero, the reliability pointer NULL. -/
def BenchmarkStats.zeroed (α : Type) [Zero α] : BenchmarkStats α where
  mean := 0
  stddev := 0
  sem := 0
  cv := 0
  ciLower := 0
  ciUpper := 0
  iterations := 0
  converged := false
  reliability := none
  rawValues := []

/-- The double of a decimal literal. -/
def ratio {α : Type} [Field α] (n d : Nat) : α := (n : α) / (d : α)

/-- The product of two ints as the machine stores it. -/
def intMul (m n : Int) : Int := (m * n).bmod (2 ^ 32)

/-- The largest int. -/
def intMax : Nat := 2147483647

theorem intMul_exact {m n : Nat} (fits : m * n ≤ intMax) : intMul m n = (m : Int) * n := by
  unfold intMul
  have exact : (m : Int) * n = (m * n : Nat) := by push_cast; rfl
  have within : m * n ≤ 2147483647 := fits
  rw [exact]
  apply Int.bmod_eq_of_le <;> omega

/-- An int expression with this value, and what follows; with a value that does not fit an int there is no result. -/
def intValue {β : Type} (value : Nat) (rest : Option β) : Option β := if value ≤ intMax then rest else none

theorem intValue_fits {β : Type} {value : Nat} (fits : value ≤ intMax) (rest : Option β) : intValue value rest = rest :=
  if_pos fits

theorem intValue_overflow {β : Type} {value : Nat} (large : intMax < value) (rest : Option β) :
    intValue value rest = none :=
  if_neg (not_le.mpr large)

inductive RunMode where
  | validate | peak | sustained
  deriving DecidableEq, Repr

/- The fields of run_config_t that parse_config sets or the harness reads. The bit mask
is the natural number of its 32-bit pattern. -/
structure RunConfig where
  mode : RunMode
  mitigationsOff : Bool
  tierMask : Nat
  outputDir : String
  categoryFilter : Option String
  numInstances : Int
  benchFilter : List String
  minIterations : Int
  maxIterations : Int
  convergenceTarget : CText.Double
  maxRuntimeSec : Int
  cooldownSec : Int
  reportable : Bool
  requireValidate : Bool
  cpuPinSpec : Option String
  numaTopoSpec : Option String
  membindSpec : Option String

/-- The configuration main starts from, before the file and the command line. -/
def mainConfig : RunConfig where
  mode := .peak
  mitigationsOff := false
  tierMask := 2
  outputDir := "."
  categoryFilter := none
  numInstances := 0
  benchFilter := []
  minIterations := 0
  maxIterations := 0
  convergenceTarget := .finite 0
  maxRuntimeSec := 0
  cooldownSec := 0
  reportable := false
  requireValidate := false
  cpuPinSpec := none
  numaTopoSpec := none
  membindSpec := none

/-- What the harness asks of the machine: the number of online CPUs, which fits an int, and
the files it can open, each with its text. -/
structure Host where
  ncpu : Nat
  online : 0 < ncpu
  fits : ncpu < 2 ^ 31
  file : String → Option (List Char)

/-- The smallest machine with a choice of CPUs. -/
def Host.pair (file : String → Option (List Char)) : Host := ⟨2, by decide, by decide, file⟩

/-- The smallest with two cores of two threads, or two nodes of two CPUs. -/
def Host.quad (file : String → Option (List Char)) : Host := ⟨4, by decide, by decide, file⟩

def Host.Online (host : Host) (cpu : Int) : Prop := 0 ≤ cpu ∧ cpu < host.ncpu

/- What keeps a call from having a result: an allocation that fails where the source gives
up, or a store outside an array, after which C defines nothing. -/
inductive Fault where
  | outOfMemory | overflow
  deriving DecidableEq, Repr

structure SubtestResult (α : Type) where
  bench : Benchmark α
  stats : BenchmarkStats α
  normalizedScore : α
  status : String

structure RunResult (α : Type) where
  config : RunConfig
  subtests : List (SubtestResult α)

end ServMark
