import Daybook.Calendar.DateTime
import Daybook.Session.State

/-!
# Events of a log

Every line of a log that says something is an event: an entry, which begins a piece of work, or
a stop, which ends work that is going on. An event keeps the moment, the indentation and the
number of its line.
-/

namespace Daybook

/-! ## Entries -/

/-- Which earlier paused work an entry goes on with. -/
inductive Resume where
  /-- The work paused last, among the work that the fields of the entry describe. -/
  | latest
  /-- The work paused last, whatever it is. -/
  | previous
  /-- The entry with this number in the same log, counted from one. -/
  | numbered (n : Nat)
deriving DecidableEq, Repr

/-- A line that begins a piece of work. -/
structure Entry where
  timestamp : DateTime
  description : String
  project : Option String := none
  tags : List String := []
  /-- How many minutes the work was expected to take. -/
  estimate : Option Nat := none
  /-- How many minutes the work took, where the line says so. -/
  duration : Option Nat := none
  remark : Option String := none
  /-- The state that the line assigns to the work. -/
  suffix : Option State := none
  resume : Option Resume := none
  indent : Nat
  line : Nat
deriving DecidableEq, Repr

namespace Entry

/-- Neither description, project nor tag says what the work is. -/
def isBare (e : Entry) : Bool :=
  e.description == "" && e.project.isNone && e.tags.isEmpty

/-- The moment at which the stated duration is over. -/
def statedEnd (e : Entry) : Option DateTime :=
  e.duration.map e.timestamp.addMinutes

end Entry

/-! ## Stops -/

/-- The ways to stop work. -/
inductive Stop where
  | finish
  | pause
  | abandon
deriving DecidableEq, Repr

namespace Stop

/-- The word that a log uses for the stop. -/
def word : Stop → String
  | .finish => "end"
  | .pause => "pause"
  | .abandon => "abandon"

/-- The stop that a word denotes. -/
def ofWord? (word : String) : Option Stop :=
  if word = "end" then some .finish
  else if word = "pause" then some .pause
  else if word = "abandon" then some .abandon
  else none

/-- The state of work that was stopped in this way. -/
def state : Stop → State
  | .finish => .completed
  | .pause => .paused
  | .abandon => .abandoned

theorem ofWord?_word (s : Stop) : ofWord? s.word = some s := by
  cases s <;> decide

end Stop

/-- A line that stops work; it is never stored. -/
structure StopLine where
  stop : Stop
  timestamp : DateTime
  remark : Option String := none
  indent : Nat
  line : Nat
deriving DecidableEq, Repr

/-! ## Events -/

/-- What a line of a log says. -/
inductive Event where
  | entry (e : Entry)
  | stop (s : StopLine)
deriving DecidableEq, Repr

namespace Event

/-- The moment that the line gives. -/
def timestamp : Event → DateTime
  | .entry e => e.timestamp
  | .stop s => s.timestamp

/-- The indentation of the line. -/
def indent : Event → Nat
  | .entry e => e.indent
  | .stop s => s.indent

/-- The number of the line. -/
def line : Event → Nat
  | .entry e => e.line
  | .stop s => s.line

/-- The entry, if the event is one. -/
def entry? : Event → Option Entry
  | .entry e => some e
  | .stop _ => none

end Event

end Daybook
