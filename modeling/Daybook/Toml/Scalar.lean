import Daybook.Calendar.Date
import Daybook.Text.Numeral
import Daybook.Text.Split

/-!
# Unquoted values of TOML

Truth values, numbers, dates and times are single words. Only whether a word is one of them and
of which kind matters here, so a reader of a file can tell a mistake from a value of a kind it
has no use for.
-/

namespace Daybook.Toml

open Text

/-- A value in a file. Of values other than texts only the kind is kept. -/
inductive Value where
  | text (s : String)
  | truth
  | number
  | moment
  | list
  | table
deriving DecidableEq, Repr

/-! ## Numbers -/

/-- The digits of a numeral without the single underscores between them. -/
def bareDigits? (cs : List Char) : Option (List Char) :=
  let groups := pieces '_' cs
  if [] ∈ groups then none else some groups.flatten

/-- The number that a numeral of a base denotes. -/
def numeral? (base : Nat) (cs : List Char) : Option Nat := do
  digitsValue? base (← bareDigits? cs)

/-- A decimal numeral without a leading zero. -/
def wholeDigits? (cs : List Char) : Option (List Char) := do
  let ds ← bareDigits? cs
  if ds.all isDigit ∧ (ds.head? ≠ some '0' ∨ ds = ['0'] ∧ cs = ['0']) then some ds else none

/-- The sign of a number, if it has one, and the rest. -/
def splitSign : List Char → Bool × List Char
  | '-' :: cs => (true, cs)
  | '+' :: cs => (false, cs)
  | cs => (false, cs)

/-- A whole number that fits into 64 bits. -/
def isInteger (cs : List Char) : Bool :=
  match cs with
  | '0' :: 'x' :: ds => (numeral? 16 ds).any (· < Nat.pow 2 63)
  | '0' :: 'o' :: ds => (numeral? 8 ds).any (· < Nat.pow 2 63)
  | '0' :: 'b' :: ds => (numeral? 2 ds).any (· < Nat.pow 2 63)
  | _ =>
    let (negative, ds) := splitSign cs
    match wholeDigits? ds with
    | some ds => if negative then value ds ≤ Nat.pow 2 63 else value ds < Nat.pow 2 63
    | none => false

/-- The exponent behind its letter. -/
def exponent? (cs : List Char) : Option Int := do
  let (negative, ds) := splitSign cs
  let ds ← bareDigits? ds
  if ds.all isDigit then some (if negative then -(value ds : Int) else (value ds : Int)) else none

/-- The decimal digits times a power of ten are too large for a number of double precision:
they are nearer to the next power of two than to the largest such number. The comparison is made
only where the number of digits does not decide it. -/
def isHuge (ds : List Char) (exponent : Int) : Bool :=
  let limit := Nat.pow 2 1024 - Nat.pow 2 970
  let n := value ds
  let size := (digits n).length + exponent
  if n = 0 ∨ size < 300 then false
  else if 320 < size then true
  else if 0 ≤ exponent then limit ≤ n * Nat.pow 10 exponent.toNat
  else limit * Nat.pow 10 (-exponent).toNat ≤ n

/-- The fraction and the exponent behind the whole part of a number, with one of them at
least. -/
def fractionAndExponent? (cs : List Char) : Option (List Char × Int) :=
  let isMark (c : Char) := c == 'e' || c == 'E'
  let head := cs.takeWhile fun c => !isMark c
  let exponent : Option Int := match cs.dropWhile fun c => !isMark c with
    | [] => some 0
    | _ :: ds => exponent? ds
  match head, exponent with
  | [], some e => if cs = [] then none else some ([], e)
  | '.' :: ds, some e => do
    let ds ← bareDigits? ds
    if ds.all isDigit then some (ds, e) else none
  | _, _ => none

/-- A number with a fraction or an exponent, or one of the two words for what is no finite
number. A positive number may not be too large. -/
def isFloat (cs : List Char) : Bool :=
  let (negative, cs) := splitSign cs
  if cs = "inf".toList ∨ cs = "nan".toList then true
  else
    let isWhole (c : Char) := isDigit c || c == '_'
    match wholeDigits? (cs.takeWhile isWhole), fractionAndExponent? (cs.dropWhile isWhole) with
    | some whole, some (fraction, exponent) =>
      negative || !isHuge (whole ++ fraction) (exponent - fraction.length)
    | _, _ => false

/-! ## Dates and times -/

/-- Two digits and what follows them. -/
def twoDigits? : List Char → Option (Nat × List Char)
  | a :: b :: cs => if isDigit a ∧ isDigit b then some (value [a, b], cs) else none
  | _ => none

/-- What follows a certain character. -/
def after? (c : Char) : List Char → Option (List Char)
  | d :: cs => if d = c then some cs else none
  | [] => none

/-- What follows a date. -/
def afterDate? (cs : List Char) : Option (List Char) := do
  let (century, cs) ← twoDigits? cs
  let (year, cs) ← twoDigits? cs
  let (month, cs) ← twoDigits? (← after? '-' cs)
  let (day, cs) ← twoDigits? (← after? '-' cs)
  let _ ← Date.ofCivil? (century * 100 + year) month day
  some cs

/-- What follows a time, with or without a fraction of its seconds. -/
def afterTime? (cs : List Char) : Option (List Char) := do
  let (hour, cs) ← twoDigits? cs
  let (minute, cs) ← twoDigits? (← after? ':' cs)
  let (second, cs) ← twoDigits? (← after? ':' cs)
  if 23 < hour ∨ 59 < minute ∨ 60 < second then none
  else match cs with
    | '.' :: c :: rest => if isDigit c then some (rest.dropWhile isDigit) else none
    | '.' :: [] => none
    | _ => some cs

/-- A difference from universal time, or none. -/
def isOffset : List Char → Bool
  | [] => true
  | ['Z'] | ['z'] => true
  | sign :: cs =>
    (sign == '+' || sign == '-') &&
      match twoDigits? cs with
      | some (hour, ':' :: cs) =>
        match twoDigits? cs with
        | some (minute, []) => hour ≤ 23 && minute ≤ 59
        | _ => false
      | _ => false

/-- A time of day. -/
def isTime (cs : List Char) : Bool :=
  afterTime? cs == some []

/-- A date alone. -/
def isDate (cs : List Char) : Bool :=
  afterDate? cs == some []

/-- A date and a time with a letter or a space between them, with or without an offset. -/
def isDateTime (cs : List Char) : Bool :=
  match afterDate? cs with
  | some (c :: cs) => (c == 'T' || c == 't' || c == ' ') && (afterTime? cs).any isOffset
  | _ => false

/-! ## Words -/

/-- The value that a word denotes. -/
def scalar? (cs : List Char) : Option Value :=
  if cs = "true".toList ∨ cs = "false".toList then some .truth
  else if isInteger cs || isFloat cs then some .number
  else if isDate cs || isTime cs || isDateTime cs then some .moment
  else none

/-- A character that a word may have. -/
def isWordChar (c : Char) : Bool :=
  c.isAlphanum || c == '+' || c == '-' || c == '_' || c == '.' || c == ':'

/-- Takes a value that is a word off the front of a text. A date goes on behind a space if a
digit follows. -/
def takeScalar (cs : List Char) : Option (Value × List Char) := do
  let word := cs.takeWhile isWordChar
  let rest := cs.dropWhile isWordChar
  match isDate word, rest with
  | true, ' ' :: c :: more =>
    if isDigit c then
      let time := (c :: more).takeWhile isWordChar
      let v ← scalar? (word ++ ' ' :: time)
      some (v, (c :: more).dropWhile isWordChar)
    else some (.moment, rest)
  | _, _ => do
    let v ← scalar? word
    some (v, rest)

end Daybook.Toml
