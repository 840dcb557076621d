import Daybook.Store.Basic
import Daybook.Timeline.Resume

/-!
# Questions to the store

Rows are chosen and ordered by what is kept, and only then read as sessions; a row that was not
chosen cannot fail. Sessions are ordered by their start, then by their number.
-/

namespace Daybook.Store

/-! ## Single sessions -/

/-- The session with a number. -/
def session? (s : Store) (id : SessionId) : Except StoreError (Option Session) :=
  match s.row? id.value with
  | none => .ok none
  | some r => do
    let session ← r.session
    .ok (some session)

/-- The state of the session with a number. -/
def state? (s : Store) (id : SessionId) : Except StoreError (Option State) :=
  match s.row? id.value with
  | none => .ok none
  | some r => do
    let state ← checked (State.ofWord r.state)
    .ok (some state)

/-- The session where the chain of links from a session ends, following at most `fuel` links
and none to a session that was visited. -/
def chainFrom (s : Store) : Nat → List SessionId → Session → Except StoreError Session
  | 0, _, current => .ok current
  | fuel + 1, visited, current =>
    match current.continues with
    | none => .ok current
    | some previous =>
      if previous ∈ visited then .ok current
      else do
        match ← s.session? previous with
        | none => .ok current
        | some found => chainFrom s fuel (previous :: visited) found

/-- The session at which the chain of a session starts. A link to a session that is not stored
ends the chain, and so does a link to a session of the chain. -/
def chainRoot (s : Store) (id : SessionId) : Except StoreError (Option Session) := do
  match ← s.session? id with
  | none => .ok none
  | some current =>
    let root ← s.chainFrom s.rows.length [current.id] current
    .ok (some root)

/-! ## Lists of sessions -/

/-- Rows by start and then by number; the store has them by number. -/
def byStart (rows : List Row) : List Row :=
  rows.mergeSort fun a b => decide (a.start ≤ b.start)

/-- The chosen sessions, by start and then by number. -/
def select (s : Store) (choose : Row → Bool) : Except StoreError (List Session) :=
  (byStart (s.rows.filter choose)).mapM Row.session

/-- The sessions that start in an interval. -/
def startingIn (s : Store) (start stop : DateTime) : Except StoreError (List Session) :=
  if stop ≤ start then .ok []
  else s.select fun r => decide (storedText start ≤ r.start) && decide (r.start < storedText stop)

/-- The sessions at the top level that overlap an interval; without an end it is unbounded. -/
def overlapping (s : Store) (start : DateTime) (stop : Option DateTime) :
    Except StoreError (List Session) :=
  s.select fun r =>
    r.parent.isNone && r.stop.all (fun text => decide (storedText start < text)) &&
      stop.all (fun t => decide (r.start < storedText t))

/-- The sessions outside a list that go on with a session of the list, in the order of the
list. -/
def continuationsOf (s : Store) (ids : List SessionId) : Except StoreError (List Session) := do
  let found ← ids.mapM fun id => s.select fun r => r.continues = some id.value
  .ok (found.flatten.filter fun session => session.id ∉ ids)

/-- The paused session that started last among those that a filter admits. -/
def latestPaused (s : Store) (f : Filter) : Except StoreError (Option Session) :=
  let candidates := s.rows.filter fun r =>
    r.state == State.paused.word && f.admits r.description r.project r.tags
  match (byStart candidates).getLast? with
  | none => .ok none
  | some r => do
    let session ← r.session
    .ok (some session)

/-- What the store knows of work to go on with. -/
def archive (s : Store) : Archive StoreError :=
  { latestPaused := s.latestPaused, chainRoot := s.chainRoot }

/-! ## Counts -/

/-- The words for states that occur, in order and without repeats. -/
def stateWords (s : Store) : List String :=
  ((s.rows.map Row.state).mergeSort fun a b => decide (a ≤ b)).eraseDups

/-- The states that occur, in the order of all states, with the number of sessions in each. -/
def counts (s : Store) : Except StoreError (List (State × Nat)) := do
  let _ ← s.stateWords.mapM fun word => checked (State.ofWord word)
  let count (state : State) := s.rows.countP fun r => r.state == state.word
  .ok ((State.all.map fun state => (state, count state)).filter fun entry => entry.2 ≠ 0)

end Daybook.Store
