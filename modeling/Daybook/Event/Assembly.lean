import Daybook.Line.Token
import Daybook.Problem
import Daybook.Text.Split

/-!
# From tokens to events

The tokens of a line make an event, or they contradict each other. A line without a date takes
the date of the line before it; what is remembered between lines is the `Clock`.

The clock moves on as soon as the timestamp of a line is understood, even if something else is
wrong with the line; a line whose timestamp is not understood leaves it alone.
-/

namespace Daybook

open Text

/-! ## The clock -/

/-- What is remembered of the lines that were read. -/
structure Clock where
  /-- The date of the next line that has none. -/
  date : Date
  /-- The timestamp of the last line that had one. -/
  last : Option DateTime := none
deriving DecidableEq, Repr

/-- The number that a piece of a time spells; a piece that is not there counts zero. -/
def timePart (part : TimePart) (time : List Char) (piece : Option (List Char)) :
    Except Cause Nat :=
  match piece with
  | none => .ok 0
  | some cs =>
    match readNat? minutesBound cs with
    | some n => .ok n
    | none => .error (.badTimePart part (String.ofList time))

/-- Refuses a number that is too large for its part of a time. -/
def withinLimit (part : TimePart) (n : Nat) : Except Cause { m : Nat // m ≤ part.limit } :=
  if h : n ≤ part.limit then .ok ⟨n, h⟩ else .error (.timePartOutOfRange part n)

/-- The time that a text with colons denotes; pieces after the third do not count. All parts
are read before the first is compared with its limit. -/
def timeOfText (time : List Char) : Except Cause TimeOfDay := do
  let parts := pieces ':' time
  let hour ← timePart .hour time parts[0]?
  let minute ← timePart .minute time parts[1]?
  let second ← timePart .second time parts[2]?
  let ⟨hour, hh⟩ ← withinLimit .hour hour
  let ⟨minute, hm⟩ ← withinLimit .minute minute
  let ⟨second, hs⟩ ← withinLimit .second second
  .ok ⟨hour, minute, second, Nat.lt_succ_of_le hh, Nat.lt_succ_of_le hm, Nat.le_succ_of_le hs⟩

/-- The date, if there is one, and the time of a timestamp. -/
def timestampParts (text : List Char) : Except Cause (Option Date × TimeOfDay) :=
  match splitAt? ' ' text with
  | none => do
    let time ← timeOfText text
    .ok (none, time)
  | some (before, after) =>
    match Date.ofText? before with
    | none => .error (.badDate (String.ofList before))
    | some date => do
      let time ← timeOfText after
      .ok (some date, time)

namespace Clock

/-- The moment that a timestamp denotes, and whether it has a date of its own. -/
def moment (clock : Clock) (text : List Char) : Except Cause (DateTime × Bool) := do
  let (date, time) ← timestampParts text
  .ok (⟨date.getD clock.date, time⟩, date.isSome)

/-- The clock after a line with the given timestamp. -/
def advance (_ : Clock) (t : DateTime) : Clock :=
  { date := t.date, last := some t }

/-- The warning about an undated line that seems to run backwards. -/
def backwards (clock : Clock) (line : Nat) (t : DateTime) (dated : Bool) : List Warning :=
  match clock.last with
  | some previous =>
    if !dated && decide (t < previous) then [.backwards line t.time previous.time] else []
  | none => []

end Clock

/-! ## Stops -/

/-- A remark, unless it is empty. -/
def remarkOf (text : String) : Option String :=
  if text = "" then none else some text

/-- The last remark among the tokens that stand beside a stop; nothing else may stand there. -/
def stopRemark (stop : Stop) (remark : Option String) : List Token → Except Fault (Option String)
  | [] => .ok remark
  | t :: ts =>
    if t.kind = .remark then stopRemark stop (remarkOf t.text) ts
    else .error ⟨some t.column, .stopNotAlone stop⟩

/-- The first stop among the tokens, with the tokens before and after it. -/
def findStop? : List Token → Option (List Token × Token × List Token)
  | [] => none
  | t :: ts =>
    if t.kind = .stop then some ([], t, ts)
    else (findStop? ts).map fun (before, found, after) => (t :: before, found, after)

/-! ## Entries -/

/-- The work that the text after `@` says to go on with. -/
def resumeOfText (text : String) : Except Cause Resume :=
  if text = "resume" then .ok .latest
  else if text = "prev" then .ok .previous
  else match readNat? indexBound text.toList with
    | some 0 => .error .resumeZero
    | some n => .ok (.numbered n)
    | none => .error (.badResume text)

/-- The entry with what a token says, and the warning that the token calls for. -/
def Entry.add (e : Entry) (t : Token) : Except Cause (Entry × List Warning) :=
  match t.kind with
  | .timestamp | .stop => .error (.unexpected t.text)
  | .description => .ok ({ e with description := t.text }, [])
  | .project =>
    match e.project with
    | some first => .error (.secondProject first t.text)
    | none => .ok ({ e with project := some t.text }, [])
  | .tag =>
    if e.tags.contains t.text then .ok (e, [.repeatedTag e.line t.text])
    else .ok ({ e with tags := e.tags ++ [t.text] }, [])
  | .estimate =>
    if e.estimate.isSome then .error .secondEstimate
    else match Duration.parse t.text with
      | .ok minutes => .ok ({ e with estimate := some minutes }, [])
      | .error error => .error (.badEstimate error)
  | .duration =>
    if e.duration.isSome then .error .secondDuration
    else match Duration.parse t.text with
      | .ok minutes => .ok ({ e with duration := some minutes }, [])
      | .error error => .error (.badDuration error)
  | .suffix =>
    if e.suffix.isSome then .error .secondSuffix
    else match State.ofSuffix? t.text with
      | some state => .ok ({ e with suffix := some state }, [])
      | none => .error (.badSuffix t.text)
  | .resume =>
    if e.resume.isSome then .error .secondResume
    else match resumeOfText t.text with
      | .ok resume => .ok ({ e with resume := some resume }, [])
      | .error cause => .error cause
  | .remark => .ok ({ e with remark := remarkOf t.text }, [])

/-- The entry with what all tokens say, in order. -/
def Entry.addAll (e : Entry) : List Token → Except Fault (Entry × List Warning)
  | [] => .ok (e, [])
  | t :: ts =>
    match e.add t with
    | .error cause => .error ⟨some t.column, cause⟩
    | .ok (e, first) => do
      let (e, rest) ← e.addAll ts
      .ok (e, first ++ rest)

/-! ## Events -/

/-- The event that the tokens after a timestamp make. -/
def eventOfTokens (t : DateTime) (indent line : Nat) (tokens : List Token) :
    Except Fault (Event × List Warning) :=
  match findStop? tokens with
  | some (before, found, after) =>
    match Stop.ofWord? found.text with
    | none => .error ⟨some found.column, .unknownStop found.text⟩
    | some stop => do
      let remark ← stopRemark stop none (before ++ after)
      .ok (.stop { stop, timestamp := t, remark, indent, line }, [])
  | none => do
    let blank : Entry := { timestamp := t, description := "", indent, line }
    let (e, warnings) ← blank.addAll tokens
    if e.isBare && e.resume.isNone then .error ⟨none, .noDescription⟩
    else .ok (.entry e, warnings)

/-- The event of a line, with its warnings, and the clock after the line. -/
def Clock.assemble (clock : Clock) (number : Nat) (line : Line) :
    Clock × Except Problem (Event × List Warning) :=
  match line.tokens with
  | ⟨.timestamp, text, column⟩ :: tokens =>
    match clock.moment text.toList with
    | .error cause => (clock, .error (Fault.atLine ⟨some column, cause⟩ number))
    | .ok (t, dated) =>
      -- the clock moves on here, whatever becomes of the rest of the line
      (clock.advance t,
        match eventOfTokens t line.indent number tokens with
        | .error fault => .error (fault.atLine number)
        | .ok (event, warnings) => .ok (event, clock.backwards number t dated ++ warnings))
  | _ => (clock, .error (Fault.atLine ⟨none, .missingTimestamp⟩ number))

end Daybook
