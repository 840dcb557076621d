import Daybook.Calendar.Text
import Daybook.Duration
import Daybook.Event

/-!
# Problems and warnings

What can be wrong with a log, each as a cause with its place. A problem keeps a line out of the
log; a warning does not.
-/

namespace Daybook

open Text

/-! ## Causes -/

/-- A part of a time of day. -/
inductive TimePart where
  | hour
  | minute
  | second
deriving DecidableEq, Repr

/-- The word for the part. -/
def TimePart.word : TimePart → String
  | .hour => "hour"
  | .minute => "minute"
  | .second => "second"

/-- The word for the part at the start of a sentence. -/
def TimePart.title : TimePart → String
  | .hour => "Hour"
  | .minute => "Minute"
  | .second => "Second"

/-- The largest value of the part in a log. -/
def TimePart.limit : TimePart → Nat
  | .hour => 23
  | .minute => 59
  | .second => 59

/-- Why a line is no part of the log. -/
inductive Cause where
  /-- The line does not start with a date and time or a time. -/
  | missingTimestamp
  /-- A word has a hash inside. -/
  | hashInWord (word : String)
  /-- After an arrow stands no word for a state that stops work. -/
  | badSuffix (word : String)
  /-- A sign for a project stands alone. -/
  | emptyProject
  /-- A sign for a tag stands alone. -/
  | emptyTag
  /-- A sign for an estimate stands alone. -/
  | emptyEstimate
  /-- A word starts with a parenthesis and does not end with one. -/
  | unclosed (word : String)
  /-- A plain word follows an annotation. -/
  | lateText (word : String)
  /-- The calendar has no such date. -/
  | badDate (text : String)
  /-- A part of a time is no number. -/
  | badTimePart (part : TimePart) (time : String)
  /-- A part of a time is too large. -/
  | timePartOutOfRange (part : TimePart) (value : Nat)
  /-- The word denotes no way to stop. -/
  | unknownStop (word : String)
  /-- A stop stands beside something other than a remark. -/
  | stopNotAlone (stop : Stop)
  /-- A token stands where it cannot. -/
  | unexpected (text : String)
  | secondProject (first second : String)
  | secondEstimate
  | badEstimate (error : Duration.Error)
  | secondDuration
  | badDuration (error : Duration.Error)
  | secondSuffix
  | secondResume
  /-- Entries are counted from one. -/
  | resumeZero
  /-- The text neither names work to go on with nor numbers an entry. -/
  | badResume (text : String)
  /-- Nothing says what the work is. -/
  | noDescription
  /-- The entry begins before an earlier one has ended, or the other way round. -/
  | overlap (line : Nat) (start : DateTime) (stop : Option DateTime)
deriving DecidableEq, Repr

/-- The time to the minute, or the word for an end that is not known. -/
def endText : Option DateTime → String
  | none => "open"
  | some t => String.ofList t.time.shortText

/-- The sentence that explains the cause. -/
def Cause.message : Cause → String
  | .missingTimestamp => "Missing or invalid timestamp"
  | .hashInWord word =>
    "Unexpected '#' in '" ++ word ++ "'; remarks must start with '# ' (hash followed by a space)"
  | .badSuffix word =>
    "Invalid state '" ++ word ++ "'; expected paused, completed or abandoned"
  | .emptyProject => "Empty project name after '@'"
  | .emptyTag => "Empty tag after '+'"
  | .emptyEstimate => "Empty estimate after '~'"
  | .unclosed word =>
    "Unclosed '(' in '" ++ word ++ "'; explicit durations look like (15m)"
  | .lateText word =>
    "Unexpected text '" ++ word ++ "' after annotations; the description must come first"
  | .badDate text => "Invalid date '" ++ text ++ "'"
  | .badTimePart part time => "Invalid " ++ part.word ++ " in '" ++ time ++ "'"
  | .timePartOutOfRange part value =>
    part.title ++ " " ++ ofNat value ++ " out of range (0-" ++ ofNat part.limit ++ ")"
  | .unknownStop word => "Unknown state marker '@" ++ word ++ "'"
  | .stopNotAlone stop =>
    "State marker '@" ++ stop.word ++ "' cannot be combined with other annotations"
  | .unexpected text => "Unexpected '" ++ text ++ "'"
  | .secondProject first second =>
    "Multiple projects ('@" ++ first ++ "' and '@" ++ second ++ "')"
  | .secondEstimate => "Multiple estimates"
  | .badEstimate error => "Invalid estimate: " ++ error.message
  | .secondDuration => "Multiple explicit durations"
  | .badDuration error => "Invalid explicit duration: " ++ error.message
  | .secondSuffix => "Multiple state suffixes"
  | .secondResume => "Multiple resume markers"
  | .resumeZero => "Resume marker '@0' must refer to entry 1 or later"
  | .badResume text => "Invalid resume marker '@" ++ text ++ "'"
  | .noDescription => "Entry has no description"
  | .overlap line start stop =>
    "Entry overlaps line " ++ ofNat line ++ " (" ++ String.ofList start.time.shortText ++ " - " ++
      endText stop ++ ")"

/-! ## Places -/

/-- A cause and the column it was found at, within a line that is known from elsewhere. -/
structure Fault where
  column : Option Nat := none
  cause : Cause
deriving DecidableEq, Repr

/-- What is wrong with a line. -/
structure Problem where
  /-- The number of the line, counted from one. -/
  line : Nat
  /-- The position of the first character, counted from one, where the cause has a place. -/
  column : Option Nat := none
  cause : Cause
deriving DecidableEq, Repr

/-- The fault as a problem of a line. -/
def Fault.atLine (f : Fault) (line : Nat) : Problem :=
  { line, column := f.column, cause := f.cause }

/-- The place and the sentence. -/
def Problem.text (p : Problem) : String :=
  match p.column with
  | some column => "line " ++ ofNat p.line ++ ":" ++ ofNat column ++ ": " ++ p.cause.message
  | none => "line " ++ ofNat p.line ++ ": " ++ p.cause.message

/-! ## Warnings -/

/-- What a reader of the log may want to look at again. -/
inductive Warning where
  /-- The time of an undated line is earlier than that of the line before. -/
  | backwards (line : Nat) (time previous : TimeOfDay)
  /-- A tag was already given on the same line. -/
  | repeatedTag (line : Nat) (tag : String)
deriving DecidableEq, Repr

/-- The number of the line that the warning is about. -/
def Warning.line : Warning → Nat
  | .backwards line _ _ => line
  | .repeatedTag line _ => line

/-- The place and the sentence. -/
def Warning.text : Warning → String
  | .backwards line time previous =>
    "line " ++ ofNat line ++ ": time " ++ String.ofList time.shortText ++
      " is earlier than the previous line (" ++ String.ofList previous.shortText ++
      "); add a date if the log crosses midnight"
  | .repeatedTag line tag =>
    "line " ++ ofNat line ++ ": duplicate tag '+" ++ tag ++ "' ignored"

end Daybook
