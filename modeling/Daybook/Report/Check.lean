import Daybook.Log
import Daybook.Report.Fields
import Daybook.Timeline
import Daybook.Timeline.Overlap

/-!
# Checking a log

A check reads a log and reports everything that keeps it from being stored. Overlaps are looked
for only where every line could be read. The report has a form for people and one in JSON.
-/

namespace Daybook

/-- What a check found. -/
structure CheckReport where
  /-- The number of lines that are part of the log. -/
  parsed : Nat
  spans : List Span
  problems : List Problem
  warnings : List Warning
deriving DecidableEq, Repr

namespace CheckReport

/-- The report on a text, with a date for the lines before the first date. -/
def ofText (base : Date) (text : String) : CheckReport :=
  let log := Log.ofText base text
  let spans := if log.isClean then Timeline.ofEvents log.events else []
  { parsed := log.events.length
    spans
    problems := log.problems ++ Timeline.selfOverlaps spans
    warnings := log.warnings }

/-- The report for people: a line for each problem and each warning, and the numbers. -/
def text (r : CheckReport) : String :=
  String.join (r.problems.map fun p => "error: " ++ p.text ++ "\n") ++
    String.join (r.warnings.map fun w => "warning: " ++ w.text ++ "\n") ++
    Text.ofNat r.parsed ++ " line(s) parsed, " ++ Text.ofNat r.problems.length ++
    " error(s), " ++ Text.ofNat r.warnings.length ++ " warning(s)\n"

/-- The report as a JSON object. -/
def json (r : CheckReport) : Json :=
  .object
    [("parsed_lines", countJson r.parsed),
     ("entries", .list (r.spans.map fun s => .object s.fields)),
     ("errors", .list (r.problems.map fun p => .object p.fields)),
     ("warnings", .list (r.warnings.map fun w => .text w.text))]

/-- The report in the chosen form. -/
def output (r : CheckReport) (asJson : Bool) : String :=
  if asJson then r.json.pretty ++ "\n" else r.text

end CheckReport

end Daybook
