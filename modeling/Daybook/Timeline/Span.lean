import Daybook.Event
import Daybook.Session.Id

/-!
# Spans

A span is an entry of a log together with what the whole log says about it: when it ended, the
state it is in, the entry that it interrupts and the work that it goes on with. Spans of one log
refer to each other by their positions, counted from zero.
-/

namespace Daybook

/-- The work that a span goes on with. -/
inductive Link where
  /-- The span at a position of the same log. -/
  | entry (index : Nat)
  /-- A stored session. -/
  | session (id : SessionId)
deriving DecidableEq, Repr

/-- An entry with its bounds and links. -/
structure Span where
  entry : Entry
  stop : Option DateTime := none
  state : State := .working
  /-- The position of the span that this one interrupts. -/
  parent : Option Nat := none
  continues : Option Link := none
deriving DecidableEq, Repr

namespace Span

/-- The moment at which the work began. -/
def start (s : Span) : DateTime :=
  s.entry.timestamp

/-- The span interrupts no other. -/
def isTopLevel (s : Span) : Bool :=
  s.parent.isNone

/-- The position of the span that this one goes on with, if it is in the same log. -/
def continuesIndex (s : Span) : Option Nat :=
  match s.continues with
  | some (.entry index) => some index
  | _ => none

/-- Where a chain that goes through this span, at the given position, begins. -/
def chainStart (s : Span) (index : Nat) : Link :=
  s.continues.getD (.entry index)

end Span

end Daybook
