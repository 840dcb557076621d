import Daybook.Timeline.Scope
import Daybook.Timeline.Span

/-!
# The timeline of a log

The events of a log make a timeline: each entry becomes a span with an end, a state, a parent
and possibly a link to an earlier span that it goes on with. Links by number are made here;
links to work that is found by its fields need the store.

* `Timeline.ofEvents` makes the timeline.
-/

namespace Daybook.Timeline

/-- An entry as a span, from its parent and its closing. A state that the line assigns goes
before the one that the closing gives. -/
def spanOf (e : Entry) (parent : Option Nat) (closing : Option Closing) : Span :=
  { entry := e
    stop := closing.map Closing.stop
    state := e.suffix.getD ((closing.map Closing.state).getD .working)
    parent }

/-- The spans of entries whose parents are known, the first of them at position `index`. -/
def spansFrom (found : List (Nat × Closing)) (index : Nat) :
    List (Entry × Option Nat) → List Span
  | [] => []
  | (e, parent) :: rest =>
    spanOf e parent (found.lookup index) :: spansFrom found (index + 1) rest

/-- The spans of a log before any of them goes on with another. -/
def unlinked (events : List Event) : List Span :=
  let entries := events.filterMap Event.entry?
  spansFrom (closings events) 0 (entries.zip (parents (entries.map Entry.indent)))

/-- The link of a span that goes on with a numbered entry: the number has to be that of an
earlier span that is paused, and the link is to the start of that span's chain. -/
def numberedLink (earlier : List Span) (s : Span) : Option Link :=
  match s.entry.resume with
  | some (.numbered (n + 1)) =>
    match earlier[n]? with
    | some target => if target.state = .paused then some (target.chainStart n) else s.continues
    | none => s.continues
  | _ => s.continues

/-- The spans with their links by number, given the spans before them. -/
def linkNumbered (earlier : List Span) : List Span → List Span
  | [] => []
  | s :: rest =>
    let s := { s with continues := numberedLink earlier s }
    s :: linkNumbered (earlier ++ [s]) rest

/-- The timeline of a log. -/
def ofEvents (events : List Event) : List Span :=
  linkNumbered [] (unlinked events)

end Daybook.Timeline
