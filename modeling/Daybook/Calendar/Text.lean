import Daybook.Calendar.DateTime
import Daybook.Text.Blank
import Daybook.Text.Decimal

/-!
# Dates and moments as text

Writing and reading of dates and moments. Every field is padded with zeros; a year outside
0..9999 carries its sign. A reader takes fewer digits than a writer gives and skips white space
before a field, so several texts denote the same date.

* `Date.text`, `TimeOfDay.text` and the texts of a moment put together from them.
* `Date.ofText?` and `DateTime.ofText?` read the strict layout, `Date.ofArgument?` also admits
  white space around the separators.
-/

namespace Daybook

open Text

/-! ## Writing -/

/-- A year: four digits within 0..9999, otherwise a sign and at least four digits. -/
def yearText (year : Int) : List Char :=
  if 0 ≤ year ∧ year < 10000 then padded 4 year.natAbs
  else (if year < 0 then '-' else '+') :: padded 4 year.natAbs

/-- Year, month and day with hyphens between them. -/
def Date.text (d : Date) : List Char :=
  yearText d.year ++ '-' :: padded 2 d.month ++ '-' :: padded 2 d.day

/-- Hour and minute with a colon between them. -/
def TimeOfDay.shortText (t : TimeOfDay) : List Char :=
  padded 2 t.hour ++ ':' :: padded 2 t.minute

/-- Hour, minute and second with colons between them. -/
def TimeOfDay.text (t : TimeOfDay) : List Char :=
  t.shortText ++ ':' :: padded 2 t.second

namespace DateTime

/-- The date, the letter `T` and the time with its seconds. -/
def isoText (t : DateTime) : List Char :=
  t.date.text ++ 'T' :: t.time.text

/-- The date and the time to the minute. -/
def minuteText (t : DateTime) : List Char :=
  t.date.text ++ ' ' :: t.time.shortText

/-- The date and the time, with seconds only where they are not zero. -/
def logText (t : DateTime) : List Char :=
  if t.time.second = 0 then t.minuteText else t.date.text ++ ' ' :: t.time.text

end DateTime

/-! ## Reading -/

/-- Takes between one and `limit` digits off the front of a text. -/
def takeNumber (limit : Nat) (cs : List Char) : Option (Nat × List Char) :=
  let ds := (cs.take limit).takeWhile isDigit
  if ds = [] then none else some (value ds, cs.drop ds.length)

/-- Takes a field of at most two digits, skipping white space before it. -/
def takeField (cs : List Char) : Option (Nat × List Char) :=
  takeNumber 2 (trimLeft cs)

/-- Takes a year, skipping white space before it: at most four digits, or a sign and any number
of digits. -/
def takeYear (cs : List Char) : Option (Int × List Char) :=
  match trimLeft cs with
  | '-' :: rest => (takeNumber rest.length rest).map fun (n, rest) => (-(n : Int), rest)
  | '+' :: rest => (takeNumber rest.length rest).map fun (n, rest) => ((n : Int), rest)
  | rest => (takeNumber 4 rest).map fun (n, rest) => ((n : Int), rest)

/-- Takes a separator; with `loose`, also white space before it. -/
def takeSeparator (loose : Bool) (separator : Char) (cs : List Char) : Option (List Char) :=
  match if loose then trimLeft cs else cs with
  | c :: rest => if c = separator then some rest else none
  | [] => none

/-- Takes a date in the range of readable years off the front of a text. -/
def takeDate (loose : Bool) (cs : List Char) : Option (Date × List Char) := do
  let (year, cs) ← takeYear cs
  let cs ← takeSeparator loose '-' cs
  let (month, cs) ← takeField cs
  let cs ← takeSeparator loose '-' cs
  let (day, cs) ← takeField cs
  let date ← Date.ofCivil? year month day
  if date.InRange then some (date, cs) else none

/-- Takes hour, minute and second off the front of a text. -/
def takeTime (cs : List Char) : Option (TimeOfDay × List Char) := do
  let (hour, cs) ← takeField cs
  let cs ← takeSeparator false ':' cs
  let (minute, cs) ← takeField cs
  let cs ← takeSeparator false ':' cs
  let (second, cs) ← takeField cs
  let time ← TimeOfDay.ofParts? hour minute second
  some (time, cs)

/-- The date that a whole text denotes. -/
def Date.ofText? (cs : List Char) : Option Date :=
  match takeDate false cs with
  | some (date, []) => some date
  | _ => none

/-- The date that a whole text denotes, with white space allowed around its separators and at
its end. -/
def Date.ofArgument? (cs : List Char) : Option Date :=
  match takeDate true cs with
  | some (date, rest) => if trimLeft rest = [] then some date else none
  | none => none

/-- The moment that a whole text denotes. -/
def DateTime.ofText? (cs : List Char) : Option DateTime := do
  let (date, cs) ← takeDate false cs
  let cs ← takeSeparator false 'T' cs
  match ← takeTime cs with
  | (time, []) => some ⟨date, time⟩
  | _ => none

end Daybook
