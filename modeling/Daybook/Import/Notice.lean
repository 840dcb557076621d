import Daybook.Event.Printer
import Daybook.Import.Outcome
import Daybook.Log
import Daybook.Report.Interval

/-!
# What an import prints

The warnings and problems of the log, the stored sessions that stand in its way, the links that
replacing them would clear, and the plan of a dry run.

A line about a stored session may need to look something up. Texts that may fail are printed up
to the first failure (`untilError`).
-/

namespace Daybook.Import

/-- The texts before the first failure put together, and that failure. -/
def untilError {ε : Type} : List (Except ε String) → String × Option ε
  | [] => ("", none)
  | .error error :: _ => ("", some error)
  | .ok text :: rest => (text ++ (untilError rest).1, (untilError rest).2)

/-! ## The log -/

/-- A line for each warning. -/
def warningLines (warnings : List Warning) : String :=
  String.join (warnings.map fun w => "warning: " ++ w.text ++ "\n")

/-- A line for each problem. -/
def problemLines (problems : List Problem) : String :=
  String.join (problems.map fun p => "error: " ++ p.text ++ "\n")

/-! ## Stored sessions -/

/-- A stored session by its number, its interval and its description. -/
def sessionText (s : Session) : String :=
  "session " ++ s.id.text ++ " " ++ intervalText s.start s.stop ++ " " ++ s.description

/-- The line about a stored session that overlaps the log. -/
def conflictLine (store : Store) (id : SessionId) : Except StoreError String := do
  match ← store.session? id with
  | some session => .ok ("conflict: " ++ sessionText session ++ "\n")
  | none => .ok ("conflict: session " ++ id.text ++ "\n")

/-- The line about a stored session whose link names a session to be replaced. -/
def lostLinkLine (s : Session) : String :=
  match s.continues with
  | some start =>
    "warning: " ++ sessionText s ++ " continues replaced session " ++ start.text ++
      "; its link will be cleared\n"
  | none => ""

/-! ## The plan -/

/-- What the plan says about the link of a span. -/
def linkText (store : Store) (spans : List Span) : Option Link → Except StoreError String
  | none => .ok ""
  | some (.entry target) =>
    .ok (optional (fun (s : Span) => " (continues line " ++ Text.ofNat s.entry.line ++ ")")
      spans[target]?)
  | some (.session id) => do
    match ← store.state? id with
    | some state => .ok (" (continues session " ++ id.text ++ ", " ++ state.word ++ ")")
    | none => .ok (" (continues session " ++ id.text ++ ")")

/-- A span in the plan, without its link. -/
def spanText (s : Span) : String :=
  "  " ++ indentText s.entry.indent ++ intervalText s.start s.stop ++ " " ++ s.state.word ++ " " ++
    s.entry.description ++ optional (" @" ++ ·) s.entry.project

/-- The parts of the plan, in order. -/
def planParts (store : Store) (spans : List Span) (replaced : Nat) :
    List (Except StoreError String) :=
  .ok ("Would import " ++ Text.ofNat spans.length ++ " session(s):\n") ::
    (spans.flatMap fun s =>
      [.ok (spanText s), linkText store spans s.continues, .ok "\n"]) ++
    [.ok
      ((if replaced = 0 then ""
        else "Would replace " ++ Text.ofNat replaced ++ " session(s)\n") ++
        "Dry run: nothing stored.\n")]

/-! ## The result -/

/-- The lines about what was stored. -/
def summaryLines (s : Summary) : String :=
  "Imported " ++ Text.ofNat s.sessions ++ " session(s) (" ++ Text.ofNat s.interruptions ++
    " interruption(s), " ++ Text.ofNat s.continuations ++ " continuation(s))\n" ++
    if s.replaced = 0 then ""
    else "Replaced " ++ Text.ofNat s.replaced ++ " overlapping session(s)\n"

end Daybook.Import
