import Daybook.Toml.Scalar

/-!
# Quoted texts of TOML

Texts between quotes, with escapes between double quotes and without them between single ones.
Three quotes in a row enclose a text of several lines; a line end right behind them is not part
of the text.
-/

namespace Daybook.Toml

open Text

/-! ## Characters -/

/-- A character that may stand in a file outside line ends: a tab or no control character. -/
def isPrintable (c : Char) : Bool :=
  c == '\t' || (32 ≤ c.toNat && c.toNat != 127)

/-- The character with a number, if there is one. -/
def charOfNat? (n : Nat) : Option Char :=
  if n.isValidChar then some (Char.ofNat n) else none

/-- The character that hexadecimal digits number. -/
def charOfHex? (ds : List Char) : Option Char := do
  charOfNat? (← digitsValue? 16 ds)

/-- The character behind a backslash that has a name of its own. -/
def namedEscape? (c : Char) : Option Char :=
  if c = 'b' then some (Char.ofNat 8)
  else if c = 't' then some '\t'
  else if c = 'n' then some '\n'
  else if c = 'f' then some (Char.ofNat 12)
  else if c = 'r' then some '\r'
  else if c = '"' ∨ c = '\\' then some c
  else none

/-- Takes what follows a backslash off the front of a text. -/
def takeEscape : List Char → Option (Char × List Char)
  | 'u' :: a :: b :: c :: d :: cs => (charOfHex? [a, b, c, d]).map (·, cs)
  | 'U' :: a :: b :: c :: d :: e :: f :: g :: h :: cs =>
    (charOfHex? [a, b, c, d, e, f, g, h]).map (·, cs)
  | c :: cs => (namedEscape? c).map (·, cs)
  | [] => none

/-! ## Texts on one line -/

/-- Takes the rest of a text between double quotes, by way of at most `fuel` characters. -/
def takeBasic : Nat → List Char → Option (List Char × List Char)
  | 0, _ => none
  | _ + 1, [] => none
  | _ + 1, '"' :: cs => some ([], cs)
  | fuel + 1, '\\' :: cs => do
    let (c, cs) ← takeEscape cs
    let (text, cs) ← takeBasic fuel cs
    some (c :: text, cs)
  | fuel + 1, c :: cs =>
    if isPrintable c then do
      let (text, cs) ← takeBasic fuel cs
      some (c :: text, cs)
    else none

/-- Takes the rest of a text between single quotes. -/
def takeLiteral : List Char → Option (List Char × List Char)
  | [] => none
  | '\'' :: cs => some ([], cs)
  | c :: cs =>
    if isPrintable c then do
      let (text, cs) ← takeLiteral cs
      some (c :: text, cs)
    else none

/-! ## Texts of several lines -/

/-- What follows a line end. -/
def afterLineEnd? : List Char → Option (List Char)
  | '\n' :: cs => some cs
  | '\r' :: '\n' :: cs => some cs
  | _ => none

/-- A space or a tab. -/
def isSpace (c : Char) : Bool :=
  c == ' ' || c == '\t'

/-- What follows white space and line ends. -/
def skipFold : List Char → List Char
  | '\n' :: cs => skipFold cs
  | '\r' :: '\n' :: cs => skipFold cs
  | c :: cs => if isSpace c then skipFold cs else c :: cs
  | [] => []

/-- Closing quotes: three, or up to two more that belong to the text. -/
def takeClosing (quote : Char) (cs : List Char) : Option (List Char × List Char) :=
  let run := (cs.take 5).takeWhile (· == quote)
  if 3 ≤ run.length then some (run.drop 3, cs.drop run.length) else none

/-- Takes the rest of a text of several lines, by way of at most `fuel` characters. With
`escapes`, a backslash at the end of a line joins the line with the next that is not blank. -/
def takeLong (quote : Char) (escapes : Bool) : Nat → List Char → Option (List Char × List Char)
  | 0, _ => none
  | _ + 1, [] => none
  | fuel + 1, c :: cs =>
    if c = quote then
      match takeClosing quote (c :: cs) with
      | some found => some found
      | none => do
        let (text, cs) ← takeLong quote escapes fuel cs
        some (c :: text, cs)
    else if c = '\\' ∧ escapes then
      match afterLineEnd? (cs.dropWhile isSpace) with
      | some rest => takeLong quote escapes fuel (skipFold rest)
      | none => do
        let (e, cs) ← takeEscape cs
        let (text, cs) ← takeLong quote escapes fuel cs
        some (e :: text, cs)
    else match afterLineEnd? (c :: cs) with
      | some rest => do
        let (text, cs) ← takeLong quote escapes fuel rest
        some ('\n' :: text, cs)
      | none =>
        if isPrintable c then do
          let (text, cs) ← takeLong quote escapes fuel cs
          some (c :: text, cs)
        else none

/-- A text without the line end that it may start with. -/
def dropLineEnd (cs : List Char) : List Char :=
  (afterLineEnd? cs).getD cs

/-- Takes a quoted text off the front of a text. -/
def takeQuoted (cs : List Char) : Option (List Char × List Char) :=
  match cs with
  | '"' :: '"' :: '"' :: rest => takeLong '"' true (rest.length + 1) (dropLineEnd rest)
  | '\'' :: '\'' :: '\'' :: rest => takeLong '\'' false (rest.length + 1) (dropLineEnd rest)
  | '"' :: rest => takeBasic (rest.length + 1) rest
  | '\'' :: rest => takeLiteral rest
  | _ => none

end Daybook.Toml
