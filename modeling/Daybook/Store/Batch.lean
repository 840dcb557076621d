import Daybook.Store.Query
import Daybook.Timeline.Overlap

/-!
# Storing a timeline

The spans of a log are stored one after the other, so a span can refer only to spans before it;
positions become the numbers that were given out. A step that fails leaves the store as it was,
since only a success gives a new one.
-/

namespace Daybook.Store

/-- The number of the session that a span at position `index` refers to. -/
def storedId (ids : List SessionId) (index target : Nat) : Except StoreError SessionId :=
  match ids[target]? with
  | some id => .ok id
  | none => .error (.unresolvedLink index target)

/-- The session for the span at position `index`, where `ids` are the numbers of the spans
before it. The parent is looked up before the link. -/
def newSession (ids : List SessionId) (index : Nat) (s : Span) :
    Except StoreError NewSession := do
  let parent ← match s.parent with
    | none => .ok none
    | some target => do
      let id ← storedId ids index target
      .ok (some id)
  let continues ← match s.continues with
    | none => .ok none
    | some (.session id) => .ok (some id)
    | some (.entry target) => do
      let id ← storedId ids index target
      .ok (some id)
  .ok
    { description := s.entry.description
      project := s.entry.project
      tags := s.entry.tags
      start := s.start
      stop := s.stop
      state := s.state
      parent
      continues
      estimate := s.entry.estimate
      remark := s.entry.remark }

/-- Stores spans, given the numbers of the spans before them, and gives the numbers of all. -/
def insertSpans (store : Store) (ids : List SessionId) :
    List Span → Except StoreError (Store × List SessionId)
  | [] => .ok (store, ids)
  | s :: rest => do
    let new ← newSession ids ids.length s
    let (store, id) ← store.insert new
    store.insertSpans (ids ++ [id]) rest

/-- Stores the spans of a log, and gives their numbers in order. -/
def importSpans (store : Store) (spans : List Span) :
    Except StoreError (Store × List SessionId) :=
  store.insertSpans [] spans

/-- What came of storing a log in place of other sessions. -/
structure Replacement where
  /-- The spans with all their links. -/
  spans : List Span
  /-- The numbers of the new sessions, in order. -/
  ids : List SessionId
  /-- How many of the sessions to be replaced were stored. -/
  replaced : Nat
deriving DecidableEq, Repr

/-- Removes sessions, makes the links of the spans of a log against what is left, and stores
the spans. -/
def replace (store : Store) (ids : List SessionId) (spans : List Span) :
    Except StoreError (Store × Replacement) := do
  let (store, replaced) ← store.removeAll ids
  let spans ← Timeline.resolve store.archive spans
  let (store, ids) ← store.importSpans spans
  .ok (store, { spans, ids, replaced })

/-- The numbers of the stored sessions that overlap the spans of a log. -/
def conflicts (store : Store) (spans : List Span) : Except StoreError (List SessionId) :=
  Timeline.conflicts store.overlapping spans

end Daybook.Store
