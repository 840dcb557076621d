import Daybook.Calendar.Text
import Daybook.Session.Basic

/-!
# The store

The store keeps sessions as rows, in the order of their numbers. A number is given out once and
for all: the store remembers the last one even when its session is gone. Moments are kept as
texts and compared as texts.

Rows refer to each other by number. A session cannot be added with a link to a session that is
not there; when a session is removed, the sessions that interrupted it are removed with it, and
links of sessions that go on with a removed one are cleared. One removal reaches only so many
levels of interruptions; where they are nested deeper, nothing is removed.
-/

namespace Daybook

/-! ## Rows -/

/-- A session as it is kept. -/
structure Row where
  id : SessionId
  description : String
  project : Option String := none
  /-- The tags, in the order in which they were given, without repeats. -/
  tags : List String := []
  start : String
  stop : Option String := none
  state : String
  parent : Option Int := none
  continues : Option Int := none
  estimate : Option Nat := none
  remark : Option String := none
deriving DecidableEq, Repr

/-- What can go wrong in the store. -/
inductive StoreError where
  /-- A link names no stored session. -/
  | missingSession
  /-- A stored value is not one that the store would write. -/
  | badValue (error : ValueError)
  /-- A stored text denotes no moment. -/
  | badTimestamp (id : SessionId) (text : String)
  /-- A span refers to a span that is not stored before it. -/
  | unresolvedLink (index target : Nat)
  /-- Interruptions are nested too deep to be removed together. -/
  | tooDeep
deriving DecidableEq, Repr

/-- The sentence that explains the error. -/
def StoreError.message : StoreError → String
  | .missingSession => "sqlite error: FOREIGN KEY constraint failed"
  | .tooDeep => "sqlite error: too many levels of trigger recursion"
  | .badValue error => "invalid stored value: " ++ error.message
  | .badTimestamp id text => "invalid timestamp for session " ++ id.text ++ ": " ++ text
  | .unresolvedLink index target =>
    "batch entry " ++ Text.ofNat index ++ " links to entry " ++ Text.ofNat target ++
      ", which is not stored before it"

/-- The text that the store keeps for a moment. -/
def storedText (t : DateTime) : String :=
  String.ofList t.isoText

/-- The moment that a stored text denotes. -/
def momentOf (id : SessionId) (text : String) : Except StoreError DateTime :=
  match DateTime.ofText? text.toList with
  | some t => .ok t
  | none => .error (.badTimestamp id text)

/-- The result with the error as one of the store. -/
def checked {α : Type} : Except ValueError α → Except StoreError α
  | .ok a => .ok a
  | .error error => .error (.badValue error)

/-- The number of a session that a row names. -/
def linkOf : Option Int → Except StoreError (Option SessionId)
  | none => .ok none
  | some value => do
    let id ← checked (SessionId.ofInt value)
    .ok (some id)

namespace Row

/-- The session that a row stands for. Start, end, state, parent and continued session are
checked in this order. -/
def session (r : Row) : Except StoreError Session := do
  let start ← momentOf r.id r.start
  let stop ← match r.stop with
    | none => .ok none
    | some text => do
      let t ← momentOf r.id text
      .ok (some t)
  let state ← checked (State.ofWord r.state)
  let parent ← linkOf r.parent
  let continues ← linkOf r.continues
  .ok
    { id := r.id
      description := r.description
      project := r.project
      tags := r.tags
      start
      stop
      state
      parent
      continues
      estimate := r.estimate
      remark := r.remark }

end Row

/-! ## The store -/

/-- A collection of sessions. -/
structure Store where
  /-- The rows, by increasing number. -/
  rows : List Row := []
  /-- The last number that was given out, or zero. -/
  lastId : Nat := 0
deriving DecidableEq, Repr

/-- A session that is to be stored. -/
structure NewSession where
  description : String
  project : Option String := none
  tags : List String := []
  start : DateTime
  stop : Option DateTime := none
  state : State
  parent : Option SessionId := none
  continues : Option SessionId := none
  estimate : Option Nat := none
  remark : Option String := none
deriving DecidableEq, Repr

namespace Store

/-- A store without sessions. -/
def empty : Store := {}

/-- The row with a number. -/
def row? (s : Store) (id : Int) : Option Row :=
  s.rows.find? fun r => r.id.value = id

/-- A session with the number is stored. -/
def contains (s : Store) (id : Int) : Bool :=
  (s.row? id).isSome

/-! ## Adding -/

/-- The number that the next session gets. -/
def nextId (s : Store) : SessionId :=
  ⟨s.lastId + 1, by omega⟩

/-- A session that gets the next number may name a stored session, or itself. -/
def mayName (s : Store) (link : Option SessionId) : Bool :=
  link.all fun id => id == s.nextId || s.contains id.value

/-- The row for a new session. -/
def rowOf (id : SessionId) (n : NewSession) : Row :=
  { id
    description := n.description
    project := n.project
    tags := n.tags.eraseDups
    start := storedText n.start
    stop := n.stop.map storedText
    state := n.state.word
    parent := n.parent.map SessionId.value
    continues := n.continues.map SessionId.value
    estimate := n.estimate
    remark := n.remark }

/-- Adds a session, and gives its number. -/
def insert (s : Store) (n : NewSession) : Except StoreError (Store × SessionId) :=
  if s.mayName n.parent && s.mayName n.continues then
    .ok ({ rows := s.rows ++ [rowOf s.nextId n], lastId := s.lastId + 1 }, s.nextId)
  else .error .missingSession

/-- Adds a tag after the tags of a session, unless the session has it. -/
def addTag (s : Store) (id : SessionId) (tag : String) : Except StoreError Store :=
  if s.contains id.value then
    .ok
      { s with
        rows := s.rows.map fun r =>
          if r.id = id ∧ tag ∉ r.tags then { r with tags := r.tags ++ [tag] } else r }
  else .error .missingSession

/-! ## Removing -/

/-- Following the parents of a row, at most `fuel` times, leads to the session with a number. -/
def isBelow (s : Store) (id : Int) : Nat → Row → Bool
  | 0, _ => false
  | fuel + 1, r =>
    match r.parent with
    | none => false
    | some parent =>
      parent == id ||
        match s.row? parent with
        | some above => isBelow s id fuel above
        | none => false

/-- The row goes when the session with a number is removed: it is that session, or it
interrupted it directly or through others. -/
def goesWith (s : Store) (id : Int) (r : Row) : Bool :=
  r.id.value == id || s.isBelow id s.rows.length r

/-- The row without its link to a session that it goes on with, if that session goes. -/
def unlink (gone : List Int) (r : Row) : Row :=
  if r.continues.any gone.contains then { r with continues := none } else r

/-- Removes a session, if it is stored, with all that goes with it. -/
def erase (s : Store) (id : SessionId) : Store :=
  if s.contains id.value then
    -- links are cleared in the rows that stay, so all that goes has to be known first
    let gone := (s.rows.filter (s.goesWith id.value)).map fun r => r.id.value
    { s with
      rows := (s.rows.filter fun r => !s.goesWith id.value r).map (unlink gone) }
  else s

/-- Removes sessions one after the other, and gives the number of those that were stored when
their turn came. -/
def eraseAll (s : Store) : List SessionId → Store × Nat
  | [] => (s, 0)
  | id :: rest =>
    let (after, count) := (s.erase id).eraseAll rest
    (after, count + if s.contains id.value then 1 else 0)

/-- How many levels of interruptions go with a session that is removed. -/
def levelLimit : Nat := 999

/-- What goes with the session with a number is nested deeper than one removal reaches. -/
def isTooDeep (s : Store) (id : Int) : Bool :=
  s.contains id &&
    s.rows.any fun r => !s.isBelow id levelLimit r && s.isBelow id s.rows.length r

/-- When sessions are removed one after the other, one of them is too deep. -/
def goesTooDeep (s : Store) : List SessionId → Bool
  | [] => false
  | id :: rest => s.isTooDeep id.value || (s.erase id).goesTooDeep rest

/-- Removes sessions, all of them or none, and gives the number of those that were stored. -/
def removeAll (s : Store) (ids : List SessionId) : Except StoreError (Store × Nat) :=
  if s.goesTooDeep ids then .error .tooDeep else .ok (s.eraseAll ids)

end Store

end Daybook
