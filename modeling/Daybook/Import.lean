import Daybook.Import.Notice
import Daybook.Timeline

/-!
# Importing a log

A log is stored as a whole or not at all. It is stored if every line could be read, no two of
its entries overlap and no stored session overlaps it; with the option to overwrite, stored
sessions that overlap it are replaced instead.

* `Import.run` is the whole import.
-/

namespace Daybook.Import

/-- The plan for the spans of a log in place of the stored sessions that overlap them. These
are still there, so the log may go on with one of them. -/
def plan (store : Store) (conflicts : List SessionId) (spans : List Span) : Outcome :=
  match Timeline.resolve store.archive spans with
  | .error cause => .refused store "" (.linking cause)
  | .ok spans =>
    match untilError (planParts store spans conflicts.length) with
    | (output, some cause) => .refused store output (.linkedRead cause)
    | (output, none) => { output, result := .ok (.ofSpans spans conflicts.length), store }

/-- Stores the spans of a log in place of the stored sessions that overlap them. -/
def carryOut (store : Store) (conflicts : List SessionId) (spans : List Span) : Outcome :=
  match store.replace conflicts spans with
  | .error cause => .refused store "" (.storing cause)
  | .ok (after, done) =>
    let summary := Summary.ofSpans done.spans done.replaced
    { output := "", closing := summaryLines summary, result := .ok summary, store := after }

/-- The notice about the links that replacing stored sessions clears. -/
def lostLinks (store : Store) (conflicts : List SessionId) : Except StoreError String := do
  let sessions ← store.continuationsOf conflicts
  .ok (String.join (sessions.map lostLinkLine))

/-- Refuses the spans because of the stored sessions that overlap them. -/
def refuseConflicts (store : Store) (conflicts : List SessionId) : Outcome :=
  match untilError (conflicts.map (conflictLine store)) with
  | (output, some cause) => .refused store output (.conflictRead cause)
  | (output, none) => .refused store output (.conflicts conflicts.length)

/-- Imports the spans of a log that has no fault of its own. -/
def runSpans (store : Store) (options : Options) (spans : List Span) : Outcome :=
  match store.conflicts spans with
  | .error cause => .refused store "" (.conflictSearch cause)
  | .ok conflicts =>
    -- a dry run is refused for the same reasons as the import that it stands for
    if conflicts ≠ [] ∧ !options.overwrite then refuseConflicts store conflicts
    else match if options.overwrite then lostLinks store conflicts else .ok "" with
      | .error cause => .refused store "" (.continuationSearch cause)
      | .ok notice =>
        (if options.dryRun then plan store conflicts spans
          else carryOut store conflicts spans).after notice

/-- Imports what was read of a log. -/
def runLog (store : Store) (options : Options) (log : Log) : Outcome :=
  let spans := Timeline.ofEvents log.events
  let overlaps := Timeline.selfOverlaps spans
  if !log.isClean then
    .refused store (problemLines log.problems) (.problems log.problems.length)
  else if spans = [] then { output := "Nothing to import.\n", result := .ok {}, store }
  else if overlaps ≠ [] then .refused store (problemLines overlaps) (.overlaps overlaps.length)
  else runSpans store options spans

/-- Imports a text, with a date for the lines before the first date. -/
def run (store : Store) (options : Options) (base : Date) (text : String) : Outcome :=
  let log := Log.ofText base text
  (runLog store options log).after (warningLines log.warnings)

end Daybook.Import
