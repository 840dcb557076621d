import Daybook.Problem
import Daybook.Session.Basic
import Daybook.Timeline.Span

/-!
# Overlaps

Nobody works on two things at a time. Work that interrupts other work lies within it, so only
spans at the top level are compared, with each other and with stored sessions.

Spans are half open: work that ends at the moment when other work begins does not overlap it.
Work without an end goes on for ever.
-/

namespace Daybook

/-- Two half-open intervals have a moment in common; an end that is missing is never reached. -/
def overlaps (startA : DateTime) (stopA : Option DateTime) (startB : DateTime)
    (stopB : Option DateTime) : Bool :=
  stopB.all (fun stop => decide (startA < stop)) && stopA.all (fun stop => decide (startB < stop))

/-- Overlapping is mutual. -/
theorem overlaps_comm (startA : DateTime) (stopA : Option DateTime) (startB : DateTime)
    (stopB : Option DateTime) :
    overlaps startA stopA startB stopB = overlaps startB stopB startA stopA := by
  simp [overlaps, Bool.and_comm]

namespace Span

/-- Two spans have a moment in common. -/
def overlapsWith (a b : Span) : Bool :=
  overlaps a.start a.stop b.start b.stop

/-- The problem that a span overlaps an earlier one. -/
def overlapProblem (earlier later : Span) : Problem :=
  { line := later.entry.line
    cause := .overlap earlier.entry.line earlier.start earlier.stop }

end Span

namespace Timeline

/-- The overlaps among spans, by the earlier span and then by the later one. -/
def overlapsAmong : List Span → List Problem
  | [] => []
  | s :: rest => (rest.filter s.overlapsWith).map s.overlapProblem ++ overlapsAmong rest

/-- The overlaps among the spans of a log that are at the top level. -/
def selfOverlaps (spans : List Span) : List Problem :=
  overlapsAmong (spans.filter Span.isTopLevel)

/-- The numbers of the stored sessions that overlap a span at the top level, in order and
without repeats. `overlapping` is asked for the sessions that overlap an interval. -/
def conflicts {ε : Type}
    (overlapping : DateTime → Option DateTime → Except ε (List Session)) (spans : List Span) :
    Except ε (List SessionId) := do
  let found ← (spans.filter Span.isTopLevel).mapM fun s => overlapping s.start s.stop
  let ids := found.flatten.map Session.id
  .ok (ids.mergeSort (fun a b => decide (a ≤ b))).eraseDups

end Timeline

end Daybook
