import Daybook.Text.Decimal

/-!
# JSON

Values with whole numbers, and their text on indented lines. The fields of an object keep the
order in which they are given.

* `Json.pretty` writes a value with two spaces for each level; an empty list takes one line.
-/

namespace Daybook

/-- A JSON value without fractions and truth values. -/
inductive Json where
  | null
  | number (n : Int)
  | text (s : String)
  | list (items : List Json)
  | object (fields : List (String × Json))
deriving Repr

namespace Json

/-! ## Strings -/

/-- The digit that counts `n`, for `n` below sixteen. -/
def hexDigit (n : Nat) : Char :=
  if n < 10 then Char.ofNat (48 + n) else Char.ofNat (87 + n)

/-- A character as it stands between quotes: the quote and the backslash behind a backslash, a
control character by its short name or its number. -/
def escape (c : Char) : List Char :=
  if c = '"' ∨ c = '\\' then ['\\', c]
  else if c.toNat = 8 then ['\\', 'b']
  else if c.toNat = 9 then ['\\', 't']
  else if c.toNat = 10 then ['\\', 'n']
  else if c.toNat = 12 then ['\\', 'f']
  else if c.toNat = 13 then ['\\', 'r']
  else if c.toNat < 32 then
    ['\\', 'u', '0', '0', hexDigit (c.toNat / 16), hexDigit (c.toNat % 16)]
  else [c]

/-- A string between quotes. -/
def quoted (s : String) : String :=
  "\"" ++ String.ofList (s.toList.flatMap escape) ++ "\""

/-! ## Values -/

/-- The start of a line at the given level. -/
def newline (level : Nat) : String :=
  "\n" ++ String.ofList (List.replicate (2 * level) ' ')

/-- Texts one to a line, a comma after each but the last, between brackets that stand at the
given level. -/
def bracketed (opening closing : String) (level : Nat) (items : List String) : String :=
  if items = [] then opening ++ closing
  else
    opening ++ String.intercalate "," (items.map (newline (level + 1) ++ ·)) ++
      newline level ++ closing

mutual

/-- The text of a value whose first line starts at the given level. -/
def prettyAt (level : Nat) : Json → String
  | .null => "null"
  | .number n => Text.ofInt n
  | .text s => quoted s
  | .list items => bracketed "[" "]" level (prettyItems (level + 1) items)
  | .object fields => bracketed "\x7b" "\x7d" level (prettyFields (level + 1) fields)

/-- The texts of the items of a list. -/
def prettyItems (level : Nat) : List Json → List String
  | [] => []
  | item :: rest => prettyAt level item :: prettyItems level rest

/-- The texts of the fields of an object. -/
def prettyFields (level : Nat) : List (String × Json) → List String
  | [] => []
  | (name, value) :: rest =>
    (quoted name ++ ": " ++ prettyAt level value) :: prettyFields level rest

end

/-- The text of a value on indented lines. -/
def pretty (value : Json) : String :=
  prettyAt 0 value

end Json

end Daybook
