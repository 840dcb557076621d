import Daybook.Text.Blank
import Daybook.Toml.Quoted

/-!
# Values of environment variables

An environment variable can set what a configuration file sets, so its text is read as a
literal: truth values, numbers, lists and tables are told from texts, and quotes around a text
are taken off. A text that is no literal stands for itself.
-/

namespace Daybook.CommandLine

open Text

/-- What a source says where a path is expected. -/
inductive Setting where
  | path (s : String)
  /-- A value that is no text. -/
  | unusable
deriving DecidableEq, Repr

/-! ## Words -/

/-- White space in ASCII. -/
def isAsciiBlank (c : Char) : Bool :=
  c == ' ' || c == '\t' || c == '\n' || c == '\r' || c.toNat == 12

/-- A character that ends a word. -/
def isSeparator (c : Char) : Bool :=
  c == ',' || c == '[' || c == ']' || c == '\x7b' || c == '\x7d'

/-- An exponent behind its letter, or nothing. -/
def isExponent : List Char → Bool
  | [] => true
  | mark :: cs =>
    let ds := match cs with
      | '+' :: ds | '-' :: ds => ds
      | ds => ds
    (mark == 'e' || mark == 'E') && ds != [] && ds.all isDigit

/-- A number with a point; digits stand on one side of it at least. -/
def isPointNumber (cs : List Char) : Bool :=
  let cs := (Toml.splitSign cs).2
  let whole := cs.takeWhile isDigit
  match cs.dropWhile isDigit with
  | '.' :: rest =>
    (whole != [] || (rest.takeWhile isDigit) != []) && isExponent (rest.dropWhile isDigit)
  | _ => false

/-- A whole number of 64 bits, with a sign or without one. -/
def isWholeNumber (cs : List Char) : Bool :=
  match cs with
  | '-' :: ds => (readNat? (Nat.pow 2 63 + 1) ds).isSome && ds.all isDigit
  | _ => (readNat? (Nat.pow 2 64) cs).isSome

/-- What a word without quotes says. -/
def settingOfWord (word : List Char) : Setting :=
  let word := trim word
  if isPointNumber word || isWholeNumber word then .unusable else .path (String.ofList word)

/-! ## Literals -/

/-- Takes a text in double quotes off the front of a text. -/
def takeText : List Char → Option (String × List Char)
  | '"' :: cs => (Toml.takeBasic (cs.length + 1) cs).map fun (s, cs) => (String.ofList s, cs)
  | _ => none

/-- What follows the name of a field and its equals sign. -/
def afterField? (cs : List Char) : Option (List Char) :=
  let cs := cs.dropWhile isAsciiBlank
  let isNameChar (c : Char) := c.isAlphanum || c == '_' || c == '-'
  let rest : Option (List Char) := match cs with
    | '"' :: _ => (takeText cs).map Prod.snd
    | _ => if cs.takeWhile isNameChar = [] then none else some (cs.dropWhile isNameChar)
  match rest.map (List.dropWhile isAsciiBlank) with
  | some ('=' :: cs) => some cs
  | _ => none

mutual

/-- Takes a literal off the front of a text. -/
def takeSetting : Nat → List Char → Option (Setting × List Char)
  | 0, _ => none
  | fuel + 1, cs => do
    let cs := cs.dropWhile isAsciiBlank
    let (setting, cs) ←
      if "true".toList.isPrefixOf cs then some (.unusable, cs.drop 4)
      else if "false".toList.isPrefixOf cs then some (.unusable, cs.drop 5)
      else match cs with
        | '\x7b' :: rest => (takeMembers fuel true '\x7d' rest).map (.unusable, ·)
        | '[' :: rest => (takeMembers fuel false ']' rest).map (.unusable, ·)
        | '"' :: _ => (takeText cs).map fun (s, cs) => (.path s, cs)
        | '\'' :: c :: '\'' :: rest => some (.path (String.ofList [c]), rest)
        | '\'' :: _ => none
        | _ =>
          some (settingOfWord (cs.takeWhile fun c => !isSeparator c),
            cs.dropWhile fun c => !isSeparator c)
    some (setting, cs.dropWhile isAsciiBlank)

/-- What follows the members of a list or a table and its closing bracket. -/
def takeMembers : Nat → Bool → Char → List Char → Option (List Char)
  | 0, _, _, _ => none
  | fuel + 1, named, closing, cs =>
    if cs.head? = some closing then some cs.tail
    else do
      let cs ← if named then afterField? cs else some cs
      let (_, cs) ← takeSetting fuel cs
      match cs with
      | ',' :: cs => takeMembers fuel named closing cs
      | c :: cs => if c = closing then some cs else none
      | [] => none

end

/-- What the text of a variable says. -/
def Setting.ofText (text : String) : Setting :=
  match takeSetting (2 * text.length + 2) text.toList with
  | some (setting, []) => setting
  | _ => .path text

end Daybook.CommandLine
