import ServMark.Config
import ServMark.Registry

/-! main up to the call of harness_run: the configuration file first, then the options of the
command line as getopt_long returns them. What main prints is left out. -/
namespace ServMark
open CText

/-- The options of long_opts, each with its argument where it takes one. The last is what
getopt_long returns for anything else. -/
inductive CliOption where
  | config (optarg : List Char)
  | mode (optarg : List Char)
  | validate
  | tier (optarg : List Char)
  | category (optarg : List Char)
  | benchmark (optarg : List Char)
  | threads (optarg : List Char)
  | mitigationsOff
  | outputDir (optarg : List Char)
  | reference (optarg : List Char)
  | dryRun
  | listCategories
  | listTopology
  | minIterations (optarg : List Char)
  | maxIterations (optarg : List Char)
  | convergence (optarg : List Char)
  | maxRuntime (optarg : List Char)
  | cpuPin (optarg : List Char)
  | numaTopo (optarg : List Char)
  | membind (optarg : List Char)
  | cooldown (optarg : List Char)
  | generateReference
  | version
  | help
  | other

/-- The variables of main that decide whether harness_run is called and on what. -/
structure MainState extends ConfigState where
  validateOnly : Bool
  dryRun : Bool
  generateReference : Bool

def MainState.setting (st : MainState) (config : RunConfig) : MainState := { st with config := config }

/-- One turn of the option loop; an error is the code main returns there. -/
def applyOption (st : MainState) : CliOption → Except Int MainState
  | .config _ => .ok st
  | .mode optarg => .ok (st.setting
      { st.config with mode := if optarg = "sustained".toList then .sustained else .peak })
  | .validate => .ok { st with validateOnly := true }
  | .tier optarg => .ok (st.setting { st.config with tierMask := tierBit (atoi optarg) })
  | .category optarg => .ok (st.setting { st.config with categoryFilter := some (String.ofList optarg) })
  | .benchmark optarg =>
    .ok { st with benchFilter := Bounded.push maxBenchFilter st.benchFilter (String.ofList optarg) }
  | .threads optarg => .ok (st.setting { st.config with numInstances := atoi optarg })
  | .mitigationsOff => .ok (st.setting { st.config with mitigationsOff := true })
  | .outputDir optarg => .ok (st.setting { st.config with outputDir := String.ofList optarg })
  | .reference _ => .ok st
  | .dryRun => .ok { st with dryRun := true }
  | .listCategories => .error 0
  | .listTopology => .error 0
  | .minIterations optarg => .ok (st.setting { st.config with minIterations := atoi optarg })
  | .maxIterations optarg => .ok (st.setting { st.config with maxIterations := atoi optarg })
  | .convergence optarg => .ok (st.setting { st.config with convergenceTarget := atof optarg })
  | .maxRuntime optarg => .ok (st.setting { st.config with maxRuntimeSec := atoi optarg })
  | .cpuPin optarg => .ok (st.setting { st.config with cpuPinSpec := some (String.ofList optarg) })
  | .numaTopo optarg => .ok (st.setting { st.config with numaTopoSpec := some (String.ofList optarg) })
  | .membind optarg => .ok (st.setting { st.config with membindSpec := some (String.ofList optarg) })
  | .cooldown optarg => .ok (st.setting { st.config with cooldownSec := atoi optarg })
  | .generateReference => .ok { st with generateReference := true }
  | .version => .error 0
  | .help => .error 0
  | .other => .error 1

def optionLoop : List CliOption → MainState → Except Int MainState
  | [], st => .ok st
  | option :: rest, st =>
    match applyOption st option with
    | .error code => .error code
    | .ok st => optionLoop rest st

/-- The configuration main hands over: instances chosen, and the list of names put in. -/
def completeConfig (host : Host) (st : MainState) : MainState :=
  st.setting { st.config with
    numInstances := if st.config.numInstances ≤ 0 then host.ncpu else st.config.numInstances
    benchFilter := st.benchFilter }

/-- The state in which main calls harness_run, or the code it returns before. -/
def mainUntilRun (host : Host) (file : Option (List Char)) (options : List CliOption) : Except Int MainState :=
  let settings := (parseConfig file ⟨mainConfig, []⟩).2
  match optionLoop options ⟨settings, false, false, false⟩ with
  | .error code => .error code
  | .ok st => if st.validateOnly || st.dryRun then .error 0 else .ok (completeConfig host st)

def benchFlag : CliOption → Option String
  | .benchmark optarg => some (String.ofList optarg)
  | _ => none

def benchFlags (options : List CliOption) : List String := options.filterMap benchFlag

def tierFlag : CliOption → Option Int
  | .tier optarg => some (atoi optarg)
  | _ => none

def tierFlags (options : List CliOption) : List Int := options.filterMap tierFlag

/-- The names the benchmark lines of the file hold, all of them. -/
def fileNames (file : Option (List Char)) : List String :=
  match file with
  | none => []
  | some text => (fgetsAll lineSize text).filterMap filterEntry

theorem applyOption_filter {st after : MainState} {option : CliOption} (ok : applyOption st option = .ok after) :
    after.benchFilter = (benchFlag option).toList.foldl (Bounded.push maxBenchFilter) st.benchFilter := by
  cases option <;> cases ok <;> rfl

theorem applyOption_tier {st after : MainState} {option : CliOption} (ok : applyOption st option = .ok after) :
    after.config.tierMask = ((tierFlag option).map tierBit).getD st.config.tierMask := by
  cases option <;> cases ok <;> rfl

theorem optionLoop_cons {option : CliOption} {rest : List CliOption} {st after : MainState}
    (ok : optionLoop (option :: rest) st = .ok after) :
    ∃ next, applyOption st option = .ok next ∧ optionLoop rest next = .ok after := by
  unfold optionLoop at ok
  cases step : applyOption st option with
  | error code => simp only [step] at ok; cases ok
  | ok next => exact ⟨next, rfl, by simpa only [step] using ok⟩

theorem optionLoop_filter {options : List CliOption} {st after : MainState} (ok : optionLoop options st = .ok after) :
    after.benchFilter = (benchFlags options).foldl (Bounded.push maxBenchFilter) st.benchFilter := by
  induction options generalizing st with
  | nil => cases ok; rfl
  | cons option rest ih =>
    obtain ⟨next, step, tail⟩ := optionLoop_cons ok
    have flags : benchFlags (option :: rest) = (benchFlag option).toList ++ benchFlags rest := by
      simp only [benchFlags, List.filterMap_cons]
      cases benchFlag option <;> rfl
    rw [ih tail, applyOption_filter step, flags, List.foldl_append]

/-- Each --tier assigns the mask, so that the last of them decides. -/
theorem optionLoop_tier {options : List CliOption} {st after : MainState} (ok : optionLoop options st = .ok after) :
    after.config.tierMask = ((tierFlags options).getLast?.map tierBit).getD st.config.tierMask := by
  induction options generalizing st with
  | nil => cases ok; rfl
  | cons option rest ih =>
    obtain ⟨next, step, tail⟩ := optionLoop_cons ok
    rw [ih tail, applyOption_tier step]
    simp only [tierFlags, List.filterMap_cons]
    cases tierFlag option with
    | none => rfl
    | some tier => cases last : (rest.filterMap tierFlag).getLast? <;> simp [List.getLast?_cons, last]

theorem mainUntilRun_loop {host : Host} {file : Option (List Char)} {options : List CliOption} {st : MainState}
    (ok : mainUntilRun host file options = .ok st) :
    ∃ after, optionLoop options ⟨(parseConfig file ⟨mainConfig, []⟩).2, false, false, false⟩ = .ok after ∧
      st = completeConfig host after := by
  unfold mainUntilRun at ok
  dsimp only at ok
  split at ok
  · cases ok
  · rename_i after loop
    split_ifs at ok
    cases ok
    exact ⟨after, loop, rfl⟩

theorem parsed_names (file : Option (List Char)) :
    (parseConfig file ⟨mainConfig, []⟩).2.benchFilter = (fileNames file).take maxBenchFilter := by
  cases file with
  | none => rfl
  | some text => exact parseConfig_filter text mainConfig

/-- The list harness_run gets: the names of the file, then those of the flags, up to 64. -/
theorem handed_filter {host : Host} {file : Option (List Char)} {options : List CliOption} {st : MainState}
    (ok : mainUntilRun host file options = .ok st) :
    st.config.benchFilter = (fileNames file ++ benchFlags options).take maxBenchFilter := by
  obtain ⟨after, loop, rfl⟩ := mainUntilRun_loop ok
  have filter := optionLoop_filter loop
  rw [parsed_names, Bounded.foldl_push] at filter
  exact filter

theorem handed_mem {host : Host} {file : Option (List Char)} {options : List CliOption} {st : MainState}
    (ok : mainUntilRun host file options = .ok st) (n : String) :
    n ∈ st.config.benchFilter ↔ n ∈ (fileNames file).take maxBenchFilter ∨
      n ∈ (benchFlags options).take (maxBenchFilter - (fileNames file).length) := by
  rw [handed_filter ok, List.take_append, List.mem_append]

/-- The flags decide alone what is run exactly if they repeat every name that the file puts into
the list, and no flag that finds the list full brings a new name. -/
theorem benchFlags_override_iff {host : Host} {file : Option (List Char)} {options : List CliOption} {st : MainState}
    (ok : mainUntilRun host file options = .ok st) :
    (∀ n, n ∈ st.config.benchFilter ↔ n ∈ benchFlags options) ↔
      (∀ n ∈ (fileNames file).take maxBenchFilter, n ∈ benchFlags options) ∧
        ∀ n ∈ (benchFlags options).drop (maxBenchFilter - (fileNames file).length),
          n ∈ (fileNames file).take maxBenchFilter ∨
            n ∈ (benchFlags options).take (maxBenchFilter - (fileNames file).length) := by
  have flags : ∀ n, n ∈ benchFlags options ↔
      n ∈ (benchFlags options).take (maxBenchFilter - (fileNames file).length) ∨
        n ∈ (benchFlags options).drop (maxBenchFilter - (fileNames file).length) := by
    intro n
    rw [← List.mem_append, List.take_append_drop]
  constructor
  · intro same
    refine ⟨fun n entered => ?_, fun n late => ?_⟩
    · exact (same n).mp ((handed_mem ok n).mpr (Or.inl entered))
    · exact (handed_mem ok n).mp ((same n).mpr ((flags n).mpr (Or.inr late)))
  · rintro ⟨repeated, kept⟩ n
    constructor
    · intro handed
      rcases (handed_mem ok n).mp handed with entered | early
      · exact repeated n entered
      · exact (flags n).mpr (Or.inl early)
    · intro flag
      rcases (flags n).mp flag with early | late
      · exact (handed_mem ok n).mpr (Or.inr early)
      · exact (handed_mem ok n).mpr (kept n late)

/- One benchmark in the file, another one on the command line. -/
def sortFile : List Char := "benchmark=C1:int-sort:".toList ++ ['\n']
def hashFlags : List CliOption := [.benchmark "int-hash".toList]

def hashState : MainState :=
  ⟨⟨{ mainConfig with numInstances := 2, benchFilter := ["int-sort", "int-hash"] }, ["int-sort", "int-hash"]⟩,
    false, false, false⟩

theorem hash_handed : mainUntilRun (Host.pair (fun _ => none)) (some sortFile) hashFlags = .ok hashState := by
  have read : fgetsAll lineSize sortFile = [sortFile] := fgetsAll_line (by decide) (by decide)
  have key : keyValue sortFile = some ("benchmark", "C1:int-sort:".toList) := by decide
  have name : benchName "C1:int-sort:".toList = some "int-sort".toList := by decide
  have parsed : parseLine ⟨mainConfig, []⟩ sortFile = ⟨mainConfig, ["int-sort"]⟩ := by
    simp only [parseLine, key, assignKey, name]
    rfl
  simp only [mainUntilRun, parseConfig, read, List.foldl_cons, List.foldl_nil, parsed]
  rfl

theorem hash_override_iff :
    (∀ n, n ∈ hashState.config.benchFilter ↔ n ∈ benchFlags hashFlags) ↔
      (∀ n ∈ (fileNames (some sortFile)).take maxBenchFilter, n ∈ benchFlags hashFlags) ∧
        ∀ n ∈ (benchFlags hashFlags).drop (maxBenchFilter - (fileNames (some sortFile)).length),
          n ∈ (fileNames (some sortFile)).take maxBenchFilter ∨
            n ∈ (benchFlags hashFlags).take (maxBenchFilter - (fileNames (some sortFile)).length) :=
  benchFlags_override_iff hash_handed

theorem file_benchmark_stays :
    mainUntilRun (Host.pair (fun _ => none)) (some sortFile) hashFlags = .ok hashState ∧
      benchFlags hashFlags = ["int-hash"] ∧ "int-sort" ∈ hashState.config.benchFilter ∧
      ¬ ∀ n, n ∈ hashState.config.benchFilter ↔ n ∈ benchFlags hashFlags := by
  have flags : benchFlags hashFlags = ["int-hash"] := rfl
  refine ⟨hash_handed, flags, List.mem_cons_self, fun same => ?_⟩
  have flagged := (same "int-sort").mp List.mem_cons_self
  rw [flags] at flagged
  exact absurd flagged (by decide)

section Tiers
variable {α : Type}

theorem tierBit_test {tier : Int} (lower : 0 ≤ tier) (upper : tier ≤ 30) (k : Nat) :
    (tierBit tier).testBit k = true ↔ (k : Int) = tier := by
  simp only [tierBit, Nat.testBit_two_pow, decide_eq_true_eq]
  omega

theorem handed_tier {host : Host} {file : Option (List Char)} {options : List CliOption} {st : MainState}
    (ok : mainUntilRun host file options = .ok st) (some_ : tierFlags options ≠ []) :
    st.config.tierMask = tierBit ((tierFlags options).getLast some_) := by
  obtain ⟨after, loop, rfl⟩ := mainUntilRun_loop ok
  have mask := optionLoop_tier loop
  rw [List.getLast?_eq_some_getLast some_] at mask
  exact mask

/-- The flags add up exactly if no registered benchmark has a tier that another flag than the
last one names. -/
theorem tierFlags_union_iff {host : Host} {file : Option (List Char)} {options : List CliOption} {st : MainState}
    (ok : mainUntilRun host file options = .ok st) (some_ : tierFlags options ≠ [])
    (range : ∀ t ∈ tierFlags options, 0 ≤ t ∧ t ≤ 30) (registry : List (Benchmark α)) :
    (∀ b ∈ registry, st.config.tierMask &&& 1 <<< b.tier ≠ 0 ↔ (b.tier : Int) ∈ tierFlags options) ↔
      ∀ b ∈ registry, (b.tier : Int) ∈ tierFlags options → (b.tier : Int) = (tierFlags options).getLast some_ := by
  have last := List.getLast_mem some_
  refine forall₂_congr (fun b _ => ?_)
  rw [ne_eq, tier_test, Bool.not_eq_false, handed_tier ok some_, tierBit_test (range _ last).1 (range _ last).2]
  constructor
  · exact fun same flagged => same.mpr flagged
  · exact fun only => ⟨fun eq => eq ▸ last, only⟩

end Tiers

def twoTiers : List CliOption := [.tier "1".toList, .tier "2".toList]

def twoTiersState : MainState := ⟨⟨{ mainConfig with tierMask := 4, numInstances := 2 }, []⟩, false, false, false⟩

theorem twoTiers_handed : mainUntilRun (Host.pair (fun _ => none)) none twoTiers = .ok twoTiersState := by
  have first : tierBit (atoi "1".toList) = 2 := by decide
  have second : tierBit (atoi "2".toList) = 4 := by decide
  simp only [mainUntilRun, parseConfig, twoTiers, optionLoop, applyOption, first, second]
  rfl

theorem twoTiers_flags : tierFlags twoTiers = [1, 2] := by decide

theorem twoTiers_some : tierFlags twoTiers ≠ [] := by simp [twoTiers_flags]

theorem twoTiers_union_iff :
    (∀ b ∈ [plainBenchmark ℝ],
      twoTiersState.config.tierMask &&& 1 <<< b.tier ≠ 0 ↔ (b.tier : Int) ∈ tierFlags twoTiers) ↔
      ∀ b ∈ [plainBenchmark ℝ], (b.tier : Int) ∈ tierFlags twoTiers →
        (b.tier : Int) = (tierFlags twoTiers).getLast twoTiers_some :=
  tierFlags_union_iff twoTiers_handed twoTiers_some (by simp [twoTiers_flags]) [plainBenchmark ℝ]

/-- A benchmark of tier 1 is left out by --tier 1 --tier 2. -/
theorem first_tier_dropped :
    mainUntilRun (Host.pair (fun _ => none)) none twoTiers = .ok twoTiersState ∧
      ¬ ∀ b ∈ [plainBenchmark ℝ], twoTiersState.config.tierMask &&& 1 <<< b.tier ≠ 0 ↔
        (b.tier : Int) ∈ tierFlags twoTiers := by
  refine ⟨twoTiers_handed, fun all => ?_⟩
  have flagged : ((plainBenchmark ℝ).tier : Int) ∈ tierFlags twoTiers := by
    rw [twoTiers_flags]
    exact List.mem_cons_self
  exact (all _ List.mem_cons_self).mpr flagged rfl

end ServMark
