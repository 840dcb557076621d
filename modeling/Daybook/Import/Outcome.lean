import Daybook.Store.Batch

/-!
# How an import ends

An import prints what it has to say, and then it has either stored the log or it has not. It
ends without storing anything when the log is refused or the store cannot be read.
-/

namespace Daybook.Import

/-- What an import may do. -/
structure Options where
  /-- Nothing is stored. -/
  dryRun : Bool := false
  /-- Stored sessions that the log overlaps are replaced. -/
  overwrite : Bool := false
deriving DecidableEq, Repr

/-- What an import stored, or would store. -/
structure Summary where
  sessions : Nat := 0
  interruptions : Nat := 0
  continuations : Nat := 0
  replaced : Nat := 0
deriving DecidableEq, Repr

/-- The numbers for the spans of a log in place of some stored sessions. -/
def Summary.ofSpans (spans : List Span) (replaced : Nat) : Summary :=
  { sessions := spans.length
    interruptions := spans.countP fun s => s.parent.isSome
    continuations := spans.countP fun s => s.continues.isSome
    replaced }

/-- Why nothing was imported. -/
inductive Refusal where
  /-- Lines of the log are problems. -/
  | problems (count : Nat)
  /-- Pairs of entries overlap. -/
  | overlaps (count : Nat)
  /-- Stored sessions overlap the log. -/
  | conflicts (count : Nat)
  /-- The sessions that overlap the log could not be looked up. -/
  | conflictSearch (cause : StoreError)
  /-- A session that overlaps the log could not be read. -/
  | conflictRead (cause : StoreError)
  /-- The sessions that go on with replaced ones could not be looked up. -/
  | continuationSearch (cause : StoreError)
  /-- The work to go on with could not be looked up. -/
  | linking (cause : StoreError)
  /-- A session that the log goes on with could not be read. -/
  | linkedRead (cause : StoreError)
  /-- The sessions could not be stored. -/
  | storing (cause : StoreError)
  /-- The store could not be kept in its place. -/
  | keeping
deriving DecidableEq, Repr

namespace Refusal

/-- The sentence that explains the refusal. -/
def message : Refusal → String
  | .problems count => "log has " ++ Text.ofNat count ++ " error(s); nothing imported"
  | .overlaps count =>
    "log has " ++ Text.ofNat count ++ " overlapping entry pair(s); nothing imported"
  | .conflicts count =>
    Text.ofNat count ++
      " stored session(s) overlap this log; use --overwrite to replace them"
  | .conflictSearch _ => "failed to check stored sessions for overlaps"
  | .conflictRead cause => cause.message
  | .continuationSearch _ => "failed to look up continuations of overlapping sessions"
  | .linking _ => "failed to resolve resume markers"
  | .linkedRead cause => cause.message
  | .storing _ | .keeping => "failed to store sessions"

/-- What went wrong in the store, if something did. -/
def cause? : Refusal → Option StoreError
  | .problems _ | .overlaps _ | .conflicts _ | .keeping => none
  | .conflictSearch cause | .conflictRead cause | .continuationSearch cause | .linking cause
  | .linkedRead cause | .storing cause => some cause

end Refusal

/-- What an import printed, how it ended, and the store that it leaves. -/
structure Outcome where
  /-- What is printed before the store is kept. -/
  output : String
  /-- What is printed once the store is kept. -/
  closing : String := ""
  result : Except Refusal Summary
  store : Store

namespace Outcome

/-- All that is printed. -/
def text (o : Outcome) : String :=
  o.output ++ o.closing

/-- The import ends without having changed the store. -/
def refused (store : Store) (output : String) (refusal : Refusal) : Outcome :=
  { output, result := .error refusal, store }

/-- What becomes of the import of a log into `store` if what it leaves cannot be kept. -/
def unkept (o : Outcome) (store : Store) : Outcome :=
  .refused store o.output .keeping

/-- The outcome with text printed before it. -/
def after (o : Outcome) (text : String) : Outcome :=
  { o with output := text ++ o.output }

@[simp]
theorem result_after (o : Outcome) (text : String) : (o.after text).result = o.result := rfl

@[simp]
theorem store_after (o : Outcome) (text : String) : (o.after text).store = o.store := rfl

end Outcome

end Daybook.Import
