/-!
# Splitting and joining text

The lines of a text, the pieces of a text between the occurrences of a character, and pieces
put together again.

A line ends at a line feed, or at a carriage return with a line feed after it. The end of the
text ends a line only if characters stand before it, so a final line end opens no empty line.
-/

namespace Daybook.Text

/-- The lines of a text, without their ends. -/
def lines : List Char → List (List Char)
  | [] => []
  | '\r' :: '\n' :: cs => [] :: lines cs
  | '\n' :: cs => [] :: lines cs
  | c :: cs =>
    match lines cs with
    | [] => [[c]]
    | line :: rest => (c :: line) :: rest

/-- The text before and after the first occurrence of a character, if there is one. -/
def splitAt? (c : Char) : List Char → Option (List Char × List Char)
  | [] => none
  | d :: ds =>
    if d = c then some ([], ds)
    else (splitAt? c ds).map fun (before, after) => (d :: before, after)

/-- The pieces of a text between the occurrences of a character. -/
def pieces (c : Char) : List Char → List (List Char)
  | [] => [[]]
  | d :: ds =>
    if d = c then [] :: pieces c ds
    else match pieces c ds with
      | [] => [[d]]
      | piece :: rest => (d :: piece) :: rest

/-- Texts put together with a separator between neighbours. -/
def joinWith (separator : List Char) : List (List Char) → List Char
  | [] => []
  | [cs] => cs
  | cs :: rest => cs ++ separator ++ joinWith separator rest

end Daybook.Text
