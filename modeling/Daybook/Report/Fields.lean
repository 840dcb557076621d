import Daybook.Json
import Daybook.Problem
import Daybook.Timeline.Span

/-!
# Entries and problems as JSON

The fields of an entry, of a span and of a problem, in the order in which reports list them.
What an entry leaves out has no field; the bounds and links of a span always have one.
-/

namespace Daybook

/-- A field that is there only if its value is. -/
def optionalField (name : String) (value : Option Json) : List (String × Json) :=
  match value with
  | none => []
  | some value => [(name, value)]

/-- The value, or null. -/
def orNull (value : Option Json) : Json :=
  value.getD .null

/-- A moment as a string. -/
def momentJson (t : DateTime) : Json :=
  .text (String.ofList t.isoText)

/-- A count as a number. -/
def countJson (n : Nat) : Json :=
  .number n

/-- The word for the work to go on with, or the number of the entry under its own name. -/
def Resume.json : Resume → Json
  | .latest => .text "resume"
  | .previous => .text "prev"
  | .numbered n => .object [("nth", countJson n)]

/-- The fields of an entry. -/
def Entry.fields (e : Entry) : List (String × Json) :=
  [("timestamp", momentJson e.timestamp), ("description", .text e.description)] ++
    optionalField "project" (e.project.map .text) ++
    (if e.tags = [] then [] else [("tags", .list (e.tags.map .text))]) ++
    optionalField "estimate_minutes" (e.estimate.map countJson) ++
    optionalField "explicit_duration_minutes" (e.duration.map countJson) ++
    optionalField "remark" (e.remark.map .text) ++
    optionalField "state_suffix" (e.suffix.map fun state => .text state.word) ++
    optionalField "resume" (e.resume.map Resume.json) ++
    [("indent_level", countJson e.indent), ("line_number", countJson e.line)]

/-- The position of a span, or the number of a session, under its own name. -/
def Link.json : Link → Json
  | .entry index => .object [("entry", countJson index)]
  | .session id => .object [("session", .number id.value)]

/-- The fields of a span: those of its entry, its bounds and its links. -/
def Span.fields (s : Span) : List (String × Json) :=
  s.entry.fields ++
    [("end_time", orNull (s.stop.map momentJson)),
     ("resolved_state", .text s.state.word),
     ("parent_index", orNull (s.parent.map countJson)),
     ("continues", orNull (s.continues.map Link.json))]

/-- The fields of a problem. -/
def Problem.fields (p : Problem) : List (String × Json) :=
  [("message", .text p.cause.message), ("line", countJson p.line)] ++
    optionalField "column" (p.column.map countJson)

end Daybook
