import Daybook.Calendar.Text

/-!
# Intervals in reports

A start and an end on one line. The end has no date of its own where it is on the day of the
start, and an end that is not known is an open one.
-/

namespace Daybook

/-- The interval from a start to an end, to the minute. -/
def intervalText (start : DateTime) (stop : Option DateTime) : String :=
  String.ofList start.minuteText ++ " - " ++
    match stop with
    | none => "open"
    | some t =>
      if t.date = start.date then String.ofList t.time.shortText else String.ofList t.minuteText

end Daybook
