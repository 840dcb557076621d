import Daybook.Calendar.Text
import Daybook.Duration
import Daybook.Event

/-!
# Writing events

The canonical line for an event: indentation, timestamp, description, and then each annotation
behind one space, in a fixed order.
-/

namespace Daybook

open Text

/-- As many spaces as the indentation. -/
def indentText (indent : Nat) : String :=
  String.ofList (List.replicate indent ' ')

/-- The annotation for an optional value. -/
def optional {α : Type} (write : α → String) : Option α → String
  | none => ""
  | some a => write a

/-- The text after `@` that says which work to go on with. -/
def Resume.word : Resume → String
  | .latest => "resume"
  | .previous => "prev"
  | .numbered n => ofNat n

/-- The line for an entry. -/
def Entry.text (e : Entry) : String :=
  indentText e.indent ++ String.ofList e.timestamp.logText ++
    (if e.description = "" then "" else " " ++ e.description) ++
    optional (" @" ++ ·) e.project ++
    String.join (e.tags.map (" +" ++ ·)) ++
    optional (" ~" ++ Duration.format ·) e.estimate ++
    optional (fun minutes => " (" ++ Duration.format minutes ++ ")") e.duration ++
    optional (fun state => " ->" ++ State.word state) e.suffix ++
    optional (fun resume => " @" ++ Resume.word resume) e.resume ++
    optional (" # " ++ ·) e.remark

/-- The line for a stop. -/
def StopLine.text (s : StopLine) : String :=
  indentText s.indent ++ String.ofList s.timestamp.logText ++ " @" ++ s.stop.word ++
    optional (" # " ++ ·) s.remark

/-- The line for an event. -/
def Event.text : Event → String
  | .entry e => e.text
  | .stop s => s.text

end Daybook
