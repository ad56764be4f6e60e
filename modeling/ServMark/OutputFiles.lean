import ServMark.Reference
import ServMark.ResultLines
import ServMark.RunNumber
import ServMark.Library.Stores

/-! The end of main: the files of a run and what further runs into the same directory leave of them. -/
namespace ServMark
open CText Printf Json

def reportTop : List Char :=
  "<!DOCTYPE html><html><head><meta charset=\"UTF-8\"><title>ServMark Results</title></head><body>\n".toList

section Report
variable {α : Type} [Field α] [LinearOrder α] [FloorRing α]

def reportRow (sr : SubtestResult α) : List Char :=
  "<tr><td>".toList ++ sr.bench.name.toList ++ "</td><td>".toList ++ sr.bench.category.toList ++ "</td><td>".toList ++
  printFixed 4 sr.stats.mean ++ "</td><td>".toList ++ printFixed 2 (sr.stats.cv * (100 : Nat)) ++ "%</td><td>".toList ++
  labelText sr.stats.reliability ++ "</td></tr>\n".toList

def outputHtmlReport (r : ProvenanceResult α) : List Char :=
  reportTop ++
  "<h1>ServMark ".toList ++ ssbVersion ++ " Results</h1>\n<p>Run ID: ".toList ++ r.runId ++ " | Mode: ".toList ++
  (match r.config.mode with
    | .peak => "Peak".toList
    | _ => "Sustained".toList) ++
  "</p>\n<table border=\"1\"><tr><th>Benchmark</th><th>Category</th>".toList ++
  "<th>Score</th><th>CV</th><th>Reliability</th></tr>\n".toList ++ r.subtests.flatMap reportRow ++
  "</table></body></html>\n".toList

end Report

/-- A run with what main asks of its configuration and its start time for the reference file. -/
structure MainRun (α : Type) where
  result : ProvenanceResult α
  generateReference : Bool
  startTime : Ctime

abbrev Files := List Char → Option (List Char)

/-- fopen with "w", which fails on some paths, and what is printed. -/
def createFile (opens : List Char → Bool) (files : Files) (file : List Char × List Char) : Files :=
  if opens file.1 then Function.update files file.1 (some file.2) else files

/-- The buffer path, which snprintf cuts to 511 bytes. -/
def outputPath (outputDir runId : List Char) (ending : String) : List Char :=
  (outputDir ++ '/' :: runId ++ ending.toList).take 511

section Files
variable {α : Type} [Field α] [LinearOrder α] [FloorRing α]

/-- The files of a run in the order main writes them. -/
def outputFiles (outputDir : List Char) (run : MainRun α) : List (List Char × List Char) :=
  let runId := run.result.runId
  [(outputPath outputDir runId ".provenance.json", outputProvenance run.result),
    (outputPath outputDir runId ".results.jsonl", outputJsonl run.result),
    (outputPath outputDir runId ".report.html", outputHtmlReport run.result)] ++
  if run.generateReference then
    [(referencePath outputDir runId,
      referenceText run.startTime (referencePath outputDir runId) run.result.toRunResult)]
  else []

def mainOutputs (outputDir : List Char) (opens : List Char → Bool) (files : Files) (run : MainRun α) : Files :=
  (outputFiles outputDir run).foldl (createFile opens) files

def mainRuns (outputDir : List Char) (opens : List Char → Bool) (files : Files) (runs : List (MainRun α)) : Files :=
  runs.foldl (mainOutputs outputDir opens) files

/-- Each file of the run that could be opened still holds what was written to it. -/
def Kept (outputDir : List Char) (opens : List Char → Bool) (files : Files) (run : MainRun α) : Prop :=
  ∀ file ∈ outputFiles outputDir run, opens file.1 = true → files file.1 = some file.2

omit [Field α] [LinearOrder α] [FloorRing α] in
theorem created_stores (opens : List Char → Bool) (written : List (List Char × List Char)) (files : Files) :
    written.foldl (createFile opens) files =
      Stores.apply ((written.filter (fun file => opens file.1)).map (fun file => (file.1, some file.2))) files := by
  induction written generalizing files with
  | nil => rfl
  | cons file written ih =>
    rw [List.foldl_cons, ih, createFile]
    cases own : opens file.1 with
    | true => rw [List.filter_cons_of_pos (by exact own)]; rfl
    | false => rw [List.filter_cons_of_neg (by simp [own])]; rfl

theorem mainRuns_written (outputDir : List Char) (opens : List Char → Bool) (files : Files) (runs : List (MainRun α)) :
    mainRuns outputDir opens files runs = (runs.flatMap (outputFiles outputDir)).foldl (createFile opens) files := by
  rw [List.foldl_flatMap]
  rfl

/-- Files with different paths do not overwrite each other. -/
theorem apart_kept {outputDir : List Char} {runs : List (MainRun α)} (opens : List Char → Bool) (files : Files)
    (apart : ((runs.flatMap (outputFiles outputDir)).map Prod.fst).Nodup) :
    ∀ run ∈ runs, Kept outputDir opens (mainRuns outputDir opens files runs) run := by
  intro run member file among opened
  rw [mainRuns_written, created_stores]
  let stores := ((runs.flatMap (outputFiles outputDir)).filter (fun file => opens file.1)).map
    (fun file => (file.1, some file.2))
  have single : (stores.map Prod.fst).Nodup := by
    rw [List.map_map]
    exact apart.sublist (List.filter_sublist.map Prod.fst)
  have stored : (file.1, some file.2) ∈ stores :=
    List.mem_map_of_mem (f := fun file : List Char × List Char => (file.1, some file.2))
      (List.mem_filter.mpr ⟨List.mem_flatMap.mpr ⟨run, member, among⟩, opened⟩)
  exact Stores.apply_nodup single files _ stored

/-- The part of an ending that tells the files of a run apart. -/
def endings (run : MainRun α) : List (List Char) :=
  [".pro".toList, ".res".toList, ".rep".toList] ++ if run.generateReference then [".ref".toList] else []

/- Where the directory is short enough that part of every path is inside the buffer. -/
theorem outputPath_marked {outputDir runId : List Char} {ending : String} (short : outputDir.length ≤ 470)
    (number : runId.length = 36) :
    (outputPath outputDir runId ending).take (outputDir.length + 41) =
      outputDir ++ '/' :: runId ++ ending.toList.take 4 := by
  have front : (outputDir ++ '/' :: runId).length = outputDir.length + 37 := by simp [number]
  rw [outputPath, List.take_take, Nat.min_eq_left (by omega), List.take_append, front,
    List.take_of_length_le (by rw [front]; omega), show outputDir.length + 41 - (outputDir.length + 37) = 4 by omega]

theorem outputFiles_marked {outputDir : List Char} {run : MainRun α} (short : outputDir.length ≤ 470)
    (number : run.result.runId.length = 36) :
    (outputFiles outputDir run).map (List.take (outputDir.length + 41) ∘ Prod.fst) =
      (endings run).map (fun ending => outputDir ++ '/' :: run.result.runId ++ ending) := by
  have reference : (referencePath outputDir run.result.runId).take (outputDir.length + 41) = _ :=
    @outputPath_marked _ _ ".reference.txt" short number
  unfold outputFiles endings
  cases run.generateReference <;>
    simp only [if_true, Bool.false_eq_true, if_false, List.map_append, List.map_cons, List.map_nil, Function.comp,
      reference, outputPath_marked short number] <;> rfl

omit [Field α] [LinearOrder α] [FloorRing α] in
theorem endings_nodup (run : MainRun α) : (endings run).Nodup := by
  unfold endings
  cases run.generateReference <;> decide

theorem runs_apart {outputDir : List Char} {runs : List (MainRun α)} (short : outputDir.length ≤ 470)
    (numbers : ∀ run ∈ runs, run.result.runId.length = 36) (distinct : (runs.map (·.result.runId)).Nodup) :
    ((runs.flatMap (outputFiles outputDir)).map Prod.fst).Nodup := by
  have front {id id' e e' : List Char} (same : outputDir ++ '/' :: id ++ e = outputDir ++ '/' :: id' ++ e')
      (lengths : id.length = id'.length) : id = id' ∧ e = e' := by
    rw [List.append_assoc, List.append_assoc, List.append_cancel_left_eq, List.cons_append, List.cons_append,
      List.cons.injEq] at same
    exact List.append_inj same.2 lengths
  refine List.Nodup.of_map (List.take (outputDir.length + 41)) ?_
  rw [List.map_map, List.map_flatMap, List.nodup_flatMap]
  constructor
  · intro run member
    rw [outputFiles_marked short (numbers run member)]
    exact (endings_nodup run).map_on (fun e _ e' _ same => (front same rfl).2)
  · rw [List.nodup_iff_pairwise_ne, List.pairwise_map] at distinct
    refine distinct.imp_of_mem (fun {run run'} member member' other => ?_)
    simp only [Function.onFun]
    intro path here there
    rw [outputFiles_marked short (numbers run member)] at here
    rw [outputFiles_marked short (numbers run' member')] at there
    obtain ⟨e, _, rfl⟩ := List.mem_map.mp here
    obtain ⟨e', _, same⟩ := List.mem_map.mp there
    exact other (front same ((numbers run' member').trans (numbers run member).symm)).1.symm

/-- From a longer directory on, the buffer ends before the paths differ. -/
theorem outputPath_cut {outputDir runId : List Char} (long : 470 < outputDir.length) (number : runId.length = 36)
    {ending ending' : String} (same : ending.toList.take 3 = ending'.toList.take 3) :
    outputPath outputDir runId ending = outputPath outputDir runId ending' := by
  have front : (outputDir ++ '/' :: runId).length = outputDir.length + 37 := by simp [number]
  have cut (front e : List Char) (far : 508 ≤ front.length) : (front ++ e).take 511 = (front ++ e.take 3).take 511 := by
    rw [List.take_append, List.take_append, List.take_take, Nat.min_eq_left (by omega)]
  rw [outputPath, outputPath, cut _ _ (by omega), same, ← cut _ _ (by omega)]

theorem report_head (r : ProvenanceResult α) : (outputHtmlReport r).head? = some '<' := by
  have top : reportTop.head? = some '<' := by decide +kernel
  simp only [outputHtmlReport, List.append_assoc, List.head?_append, top, Option.some_or]

theorem reference_head (time : Ctime) (refpath : List Char) (result : RunResult α) :
    (referenceText time refpath result).head? = some '#' := by
  have title : referenceTitle.head? = some '#' := by decide +kernel
  simp only [referenceText, List.append_assoc, List.head?_append, title, Option.some_or]

theorem jsonl_head (r : ProvenanceResult α) : ∀ c ∈ (outputJsonl r).head?, c = '\x7b' := by
  unfold outputJsonl
  cases r.subtests with
  | nil => nofun
  | cons sr rest =>
    rintro c ⟨⟩
    rfl

/-- The last run then leaves something else where its results were. -/
theorem last_overwritten {outputDir : List Char} {run : MainRun α} (long : 470 < outputDir.length)
    (number : run.result.runId.length = 36) (files : Files) :
    ¬ Kept outputDir (fun _ => true) (mainOutputs outputDir (fun _ => true) files run) run := by
  intro kept
  have results := kept (outputPath outputDir run.result.runId ".results.jsonl", outputJsonl run.result)
    (by simp [outputFiles]) rfl
  have report : outputPath outputDir run.result.runId ".results.jsonl" =
      outputPath outputDir run.result.runId ".report.html" := outputPath_cut long number (by decide)
  have reference : outputPath outputDir run.result.runId ".results.jsonl" =
      referencePath outputDir run.result.runId := @outputPath_cut _ _ long number _ ".reference.txt" (by decide)
  have head := jsonl_head run.result
  unfold mainOutputs outputFiles at results
  cases asked : run.generateReference with
  | true =>
    simp only [asked, createFile, if_true, List.cons_append, List.nil_append, List.foldl_cons, List.foldl_nil,
      reference, Function.update_self, Option.some.injEq] at results
    rw [← results, reference_head] at head
    exact absurd (head '#' rfl) (by decide)
  | false =>
    simp only [asked, createFile, if_true, Bool.false_eq_true, if_false, List.append_nil, List.foldl_cons,
      List.foldl_nil, report, Function.update_self, Option.some.injEq] at results
    rw [← results, report_head] at head
    exact absurd (head '<' rfl) (by decide)

/-- Any number of runs with different numbers into one directory: all their files stay whole exactly if the name of
the directory has at most 470 bytes. -/
theorem runs_kept (outputDir : List Char) (files : Files) {runs : List (MainRun α)} (some_ : runs ≠ [])
    (numbers : ∀ run ∈ runs, ∃ urandom rand, run.result.runId = outputGenerateUuid urandom rand)
    (distinct : (runs.map (·.result.runId)).Nodup) :
    (∀ opens, ∀ run ∈ runs, Kept outputDir opens (mainRuns outputDir opens files runs) run) ↔
      outputDir.length ≤ 470 := by
  have lengths : ∀ run ∈ runs, run.result.runId.length = 36 := by
    intro run member
    obtain ⟨urandom, rand, number⟩ := numbers run member
    rw [number, generated_length]
  constructor
  · intro kept
    by_contra long
    obtain ⟨front, last, rfl⟩ := (List.eq_nil_or_concat runs).resolve_left some_
    have own := kept (fun _ => true) last (by simp)
    rw [List.concat_eq_append, mainRuns, List.foldl_append] at own
    exact last_overwritten (Nat.lt_of_not_le long) (lengths last (by simp)) _ own
  · exact fun short opens => apart_kept opens files (runs_apart short lengths distinct)

end Files

/-- A run into the directory it was started from. -/
def machineMain : MainRun ℚ := ⟨machineRun "Xeon Gold", true, epoch⟩

/-- A later run that writes no reference file. -/
def laterMain : MainRun ℚ :=
  ⟨{ machineRun "Xeon Gold" with runId := outputGenerateUuid none (fun _ => 1) }, false, epoch⟩

theorem machines_kept :
    let files := mainRuns ['.'] (fun _ => true) (fun _ => none) [machineMain, laterMain]
    Kept ['.'] (fun _ => true) files machineMain ∧ Kept ['.'] (fun _ => true) files laterMain := by
  have numbers : ∀ run ∈ [machineMain, laterMain], ∃ urandom rand, run.result.runId = outputGenerateUuid urandom rand :=
    List.forall_mem_cons.mpr ⟨⟨none, fun _ => 0, rfl⟩, List.forall_mem_singleton.mpr ⟨none, fun _ => 1, rfl⟩⟩
  have distinct : ([machineMain, laterMain].map (·.result.runId)).Nodup := by decide +kernel
  have kept := (runs_kept ['.'] (fun _ => none) (List.cons_ne_nil machineMain _) numbers distinct).mpr (by decide)
    (fun _ => true)
  exact ⟨kept machineMain List.mem_cons_self, kept laterMain (List.mem_cons_of_mem _ List.mem_cons_self)⟩

end ServMark
