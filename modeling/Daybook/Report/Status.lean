import Daybook.Report.Interval
import Daybook.Store.Query

/-!
# The status of a store

How many sessions are in each state, and the work that was paused last. The counts are reported
even where the paused work cannot be read.
-/

namespace Daybook

/-- What was printed about a store, and what ended the report early. -/
structure StatusReport where
  output : String
  error : Option StoreError := none
deriving DecidableEq, Repr

namespace StatusReport

/-- The lines that every report begins with. -/
def heading (path : String) : String :=
  "Worklog status\nDatabase: " ++ path ++ "\n"

/-- A line for each state that occurs, or one that says that there is none. -/
def countLines (counts : List (State × Nat)) : String :=
  if counts = [] then "No sessions recorded.\n"
  else
    "Sessions:\n" ++
      String.join (counts.map fun (state, n) =>
        "- " ++ state.word ++ ": " ++ Text.ofNat n ++ "\n")

/-- The line about the work that was paused last. -/
def pausedLine (session : Session) : String :=
  "Last paused: " ++ session.description ++ " (" ++
    intervalText session.start session.stop ++ ")\n"

/-- The report on a store at a path. In a store without sessions no paused work is looked
for. -/
def ofStore (path : String) (store : Store) : StatusReport :=
  match store.counts with
  | .error error => { output := "", error }
  | .ok counts =>
    let output := heading path ++ countLines counts
    if counts = [] then { output }
    else match store.latestPaused Filter.any with
      | .error error => { output, error }
      | .ok none => { output }
      | .ok (some session) => { output := output ++ pausedLine session }

end StatusReport

end Daybook
