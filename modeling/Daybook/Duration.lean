import Daybook.Text.Decimal

/-!
# Durations

A duration is a positive number of minutes. It is spelled as plain minutes, as hours and
minutes with their units, or as hours with a decimal fraction:

* `90` is ninety minutes;
* `15m`, `2h` and `1h30m` name their units;
* `1.5h` is rounded to the nearest minute, a half minute up.

`amount?` gives the exact number of minutes of a spelling, whatever its size; the bounds are
checked once, in `parse`. `format` writes hours and minutes with their units.
-/

namespace Daybook.Duration

open Text

/-! ## The number of minutes -/

/-- What a spelling amounts to. -/
inductive Amount where
  /-- A number of minutes. -/
  | minutes (n : Nat)
  /-- The spelling has decimal digits from outside ASCII, which count nothing. -/
  | uncountable
deriving DecidableEq, Repr

/-- The number that a run of decimal digits counts, if all of them are ASCII digits. -/
def number? (ds : List Char) : Option Nat :=
  if ds.all isDigit then some (value ds) else none

/-- The minutes in `whole` hours and a decimal fraction of an hour, rounded half up. -/
def ofDecimalHours (whole fraction : List Char) : Amount :=
  match number? whole, number? fraction with
  | some hours, some part =>
    let scale := Nat.pow 10 fraction.length
    .minutes (hours * 60 + (part * 60 + scale / 2) / scale)
  | _, _ => .uncountable

/-- The minutes in an optional number of hours and an optional number of minutes. -/
def ofUnits (hours minutes : Option (List Char)) : Amount :=
  match hours.mapM number?, minutes.mapM number? with
  | some h, some m => .minutes (h.getD 0 * 60 + m.getD 0)
  | _, _ => .uncountable

/-- Splits off the decimal digits that a text starts with. -/
def spanDecimals (cs : List Char) : List Char × List Char :=
  (cs.takeWhile isDecimal, cs.dropWhile isDecimal)

/-- The amount of a spelling with decimal digits and units, or nothing if it has no such shape. -/
def unitAmount? (cs : List Char) : Option Amount :=
  let (first, rest) := spanDecimals cs
  if first = [] then none
  else match rest with
    | '.' :: more =>
      let (fraction, tail) := spanDecimals more
      if 1 ≤ fraction.length ∧ fraction.length ≤ 4 ∧ tail = ['h'] then
        some (ofDecimalHours first fraction)
      else none
    | ['m'] => some (ofUnits none (some first))
    | ['h'] => some (ofUnits (some first) none)
    | 'h' :: more =>
      let (second, tail) := spanDecimals more
      if second ≠ [] ∧ tail = ['m'] then some (ofUnits (some first) (some second)) else none
    | _ => none

/-- The amount of a spelling, or nothing if it is none. -/
def amount? (cs : List Char) : Option Amount :=
  if cs = [] then none
  else if cs.all isDigit then some (.minutes (value cs))
  else unitAmount? cs

/-! ## Reading -/

/-- Why a text denotes no duration. -/
inductive Error where
  /-- The text has none of the shapes of a duration. -/
  | invalid (text : String)
  /-- The duration is empty. -/
  | zero (text : String)
  /-- The number of minutes is out of bounds. -/
  | tooLarge (text : String)
deriving DecidableEq, Repr

/-- The sentence that explains the error. -/
def Error.message : Error → String
  | .invalid text => "invalid duration '" ++ text ++ "' (expected e.g. 15m, 2h, 1h30m, 1.5h)"
  | .zero text => "duration '" ++ text ++ "' must be greater than zero"
  | .tooLarge text => "duration '" ++ text ++ "' is too large"

/-- The number of minutes that a text denotes; it is positive and below `minutesBound`. -/
def parse (text : String) : Except Error Nat :=
  match amount? text.toList with
  | none => .error (.invalid text)
  | some .uncountable => .error (.tooLarge text)
  | some (.minutes n) =>
    if n = 0 then .error (.zero text)
    else if n < minutesBound then .ok n
    else .error (.tooLarge text)

/-- A duration that was read is positive and within bounds. -/
theorem parse_bounds {text : String} {n : Nat} (h : parse text = .ok n) :
    0 < n ∧ n < minutesBound := by
  unfold parse at h
  split at h
  · simp at h
  · simp at h
  · split at h
    · simp at h
    · split at h
      · simp only [Except.ok.injEq] at h
        omega
      · simp at h

/-! ## Writing -/

/-- The spelling of a number of minutes with units, leaving out a unit that counts nothing. -/
def format (minutes : Nat) : String :=
  if minutes / 60 = 0 then ofNat (minutes % 60) ++ "m"
  else if minutes % 60 = 0 then ofNat (minutes / 60) ++ "h"
  else ofNat (minutes / 60) ++ "h" ++ ofNat (minutes % 60) ++ "m"

end Daybook.Duration
