import Daybook.Event.Assembly
import Daybook.Line.Lexer

/-!
# Reading a log

A log is read line by line. A line that cannot be read is a problem and the reading goes on, so
that all problems are seen at once; nothing should be stored of a log with problems.

* `Log.ofText` reads a text, with a date for the lines before the first date.
-/

namespace Daybook

/-- What was found in a text. -/
structure Log where
  events : List Event := []
  problems : List Problem := []
  warnings : List Warning := []
deriving DecidableEq, Repr

namespace Log

/-- No line was a problem. -/
def isClean (log : Log) : Bool :=
  log.problems.isEmpty

/-- The entries among the events. -/
def entries (log : Log) : List Entry :=
  log.events.filterMap Event.entry?

/-- What a single line gives: nothing, a problem, or an event with its warnings; and the clock
after the line. -/
def readLine (clock : Clock) (number : Nat) (line : List Char) : Clock × Log :=
  match Line.ofText line with
  | .error fault => (clock, { problems := [fault.atLine number] })
  | .ok none => (clock, {})
  | .ok (some tokens) =>
    match clock.assemble number tokens with
    | (clock, .error problem) => (clock, { problems := [problem] })
    | (clock, .ok (event, warnings)) => (clock, { events := [event], warnings })

/-- What two parts of a text give together. -/
def append (a b : Log) : Log :=
  { events := a.events ++ b.events
    problems := a.problems ++ b.problems
    warnings := a.warnings ++ b.warnings }

instance : Append Log := ⟨append⟩

/-- What the lines give, of which the first has the given number. -/
def readLines (clock : Clock) (number : Nat) : List (List Char) → Log
  | [] => {}
  | line :: rest =>
    let (clock, found) := readLine clock number line
    found ++ readLines clock (number + 1) rest

/-- What a text gives. Lines without a date take `base` until a line has one. -/
def ofText (base : Date) (text : String) : Log :=
  readLines { date := base } 1 (Text.lines text.toList)

end Log

end Daybook
