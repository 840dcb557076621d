/-!
# The states of a session

A session is being worked on, or it was stopped in one of three ways. The words for the states
are the ones used in logs, reports and the store alike.
-/

namespace Daybook

/-- The state that a piece of work is in. -/
inductive State where
  /-- Still running; no end is known. -/
  | working
  /-- Stopped with the intent to go on later. -/
  | paused
  /-- Finished. -/
  | completed
  /-- Stopped and given up. -/
  | abandoned
deriving DecidableEq, Repr

namespace State

/-- All states, in the order in which reports list them. -/
def all : List State := [.working, .paused, .completed, .abandoned]

/-- The word for a state. -/
def word : State → String
  | .working => "working"
  | .paused => "paused"
  | .completed => "completed"
  | .abandoned => "abandoned"

/-- The state that a suffix of a log line may assign. Work in progress needs no suffix, so the
word for it is none. -/
def ofSuffix? (word : String) : Option State :=
  if word = "paused" then some .paused
  else if word = "completed" then some .completed
  else if word = "abandoned" then some .abandoned
  else none

/-- The state that a word denotes. -/
def ofWord? (word : String) : Option State :=
  if word = "working" then some .working else ofSuffix? word

theorem ofWord?_word (s : State) : ofWord? s.word = some s := by
  cases s <;> decide

end State

end Daybook
