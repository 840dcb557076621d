import Daybook.Calendar.DateTime
import Daybook.Event
import Daybook.Session.Id

/-!
# Sessions

A session is a piece of work as the store keeps it. The work that a person can go on with is
found by a filter on the fields that say what the work is.
-/

namespace Daybook

/-- A stored piece of work. -/
structure Session where
  id : SessionId
  description : String
  project : Option String
  tags : List String
  start : DateTime
  stop : Option DateTime
  state : State
  /-- The session that this one interrupted. -/
  parent : Option SessionId
  /-- The session that this one goes on with. -/
  continues : Option SessionId
  estimate : Option Nat
  remark : Option String
deriving DecidableEq, Repr

/-- What work has to look like; a field that is not set admits everything. -/
structure Filter where
  description : Option String := none
  project : Option String := none
  tag : Option String := none
deriving DecidableEq, Repr

namespace Filter

/-- The filter that admits all work. -/
def any : Filter := {}

/-- The work that an entry describes: its description, its project and its first tag. -/
def ofEntry (e : Entry) : Filter :=
  { description := if e.description = "" then none else some e.description
    project := e.project
    tag := e.tags.head? }

/-- No field is set. -/
def isEmpty (f : Filter) : Bool :=
  f.description.isNone && f.project.isNone && f.tag.isNone

/-- The work with these fields is admitted. -/
def admits (f : Filter) (description : String) (project : Option String) (tags : List String) :
    Bool :=
  f.description.all (· == description) &&
    f.project.all (fun p => project == some p) &&
    f.tag.all tags.contains

theorem admits_any (description : String) (project : Option String) (tags : List String) :
    any.admits description project tags = true := rfl

end Filter

end Daybook
