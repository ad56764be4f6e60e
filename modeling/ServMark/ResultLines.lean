import ServMark.Provenance
import ServMark.Registry
import ServMark.Library.JsonCompact

/-! output_jsonl of output.c: one JSON object a line, one line a subtest. Strings are printed as they are. -/
namespace ServMark
open CText Printf Json

section Text
variable {α : Type} [Field α] [LinearOrder α] [FloorRing α]

/-- One turn of the loop over the subtests. -/
def jsonlLine (runId : List Char) (sr : SubtestResult α) : List Char :=
  "\x7b\"run_id\":\"".toList ++ runId ++ "\",\"bench\":\"".toList ++ sr.bench.name.toList ++
  "\",\"cat\":\"".toList ++ sr.bench.category.toList ++ "\",\"mean\":".toList ++ printFixed 6 sr.stats.mean ++
  ",\"cv\":".toList ++ printFixed 4 sr.stats.cv ++ ",\"rel\":\"".toList ++ labelText sr.stats.reliability ++
  "\",\"n\":".toList ++ printInt sr.stats.iterations ++ "\x7d\n".toList

def outputJsonl (r : ProvenanceResult α) : List Char := r.subtests.flatMap (jsonlLine r.runId)

end Text

section Lines
variable {α : Type} [Field α] [LinearOrder α] [FloorRing α] {runId : List Char} {sr : SubtestResult α}

end Lines

section Run
variable {α : Type} [Field α] [LinearOrder α] [Libm α]

end Run

/- Three benchmarks: the second one fails, and the third, whose name would need an escape, is left out. -/

end ServMark
