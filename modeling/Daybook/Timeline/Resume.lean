import Daybook.Session.Basic
import Daybook.Timeline.Span

/-!
# Going on with paused work

An entry can go on with the work that was paused last. The spans before it in the same log are
looked at first, the latest first, since all stored work is older; then the store is asked. If
nothing is found, the entry stands on its own.

A chain of work has one start, and every link is to the start: a link found here is replaced by
the link of its target, if the target has one.

* `Timeline.resolve` makes the links of a whole log, against an `Archive`.
-/

namespace Daybook

/-- What has to be known of stored sessions to go on with them. -/
structure Archive (ε : Type) where
  /-- The session that was paused last among those that a filter admits. -/
  latestPaused : Filter → Except ε (Option Session)
  /-- The session at which the chain of a session starts, if the session is stored. -/
  chainRoot : SessionId → Except ε (Option Session)

/-- Paused work that an entry can go on with: where its chain starts and what it is. -/
structure Paused where
  link : Link
  description : String
  project : Option String
  tags : List String
deriving DecidableEq, Repr

namespace Timeline

/-- The last of the spans with a property, and its position; the first is at `index`. -/
def lastWith (p : Span → Bool) (index : Nat) : List Span → Option (Nat × Span)
  | [] => none
  | s :: rest =>
    match lastWith p (index + 1) rest with
    | some found => some found
    | none => if p s then some (index, s) else none

/-- The span is paused work that the filter admits. -/
def isPausedWork (f : Filter) (s : Span) : Bool :=
  s.state = .paused && f.admits s.entry.description s.entry.project s.entry.tags

/-- The work paused last among the spans of the log. -/
def pausedAmong (f : Filter) (spans : List Span) : Option Paused :=
  (lastWith (isPausedWork f) 0 spans).map fun (index, s) =>
    ⟨s.chainStart index, s.entry.description, s.entry.project, s.entry.tags⟩

/-- The work paused last in the store. -/
def pausedInArchive {ε : Type} (archive : Archive ε) (f : Filter) :
    Except ε (Option Paused) := do
  match ← archive.latestPaused f with
  | none => .ok none
  | some session =>
    let root ← archive.chainRoot session.id
    let id := (root.map Session.id).getD session.id
    .ok (some ⟨.session id, session.description, session.project, session.tags⟩)

/-- What the work that an entry goes on with has to look like, if it names that work by its
fields or not at all. -/
def resumeFilter (e : Entry) : Option Filter :=
  match e.resume with
  | some .latest => some (if e.isBare then Filter.any else Filter.ofEntry e)
  | some .previous => some Filter.any
  | _ => none

/-- The span with its link to the paused work. An entry that only says to go on takes the
description, the project and the tags over. -/
def goOn (s : Span) (work : Paused) : Span :=
  let entry :=
    if s.entry.resume = some .latest ∧ s.entry.isBare then
      { s.entry with
        description := work.description
        project := work.project
        tags := work.tags }
    else s.entry
  { s with entry, continues := some work.link }

/-- The span with its link, given the spans before it. -/
def resolveSpan {ε : Type} (archive : Archive ε) (earlier : List Span) (s : Span) :
    Except ε Span :=
  match resumeFilter s.entry with
  | none => .ok s
  | some f =>
    match pausedAmong f earlier with
    | some work => .ok (goOn s work)
    | none => do
      match ← pausedInArchive archive f with
      | some work => .ok (goOn s work)
      | none => .ok s

/-- The spans with their links, given the spans before them. -/
def resolveFrom {ε : Type} (archive : Archive ε) (earlier : List Span) :
    List Span → Except ε (List Span)
  | [] => .ok []
  | s :: rest => do
    let s ← resolveSpan archive earlier s
    let rest ← resolveFrom archive (earlier ++ [s]) rest
    .ok (s :: rest)

/-- The spans with every link within the log replaced by the link of its target, given the
spans before them, which are done. -/
def linkToStarts (earlier : List Span) : List Span → List Span
  | [] => []
  | s :: rest =>
    let link := match s.continues with
      | some (.entry target) =>
        -- the target stands before the span in every timeline, so its own link is final
        match ((earlier ++ s :: rest)[target]?).bind Span.continues with
        | some link => some link
        | none => some (.entry target)
      | other => other
    let s := { s with continues := link }
    s :: linkToStarts (earlier ++ [s]) rest

/-- The spans of a log with all their links. -/
def resolve {ε : Type} (archive : Archive ε) (spans : List Span) : Except ε (List Span) := do
  let spans ← resolveFrom archive [] spans
  .ok (linkToStarts [] spans)

end Timeline

end Daybook
