import Daybook.Text.Blank
import Daybook.Text.Decimal

/-!
# Tokens of a log line

A line that says something is an indentation and a list of tokens. A token has a kind, a text
without the sign that marks its kind, and the column it starts at.

The shapes of a date and of a time are told from the characters alone; whether the calendar or
the clock has them is a matter for later.
-/

namespace Daybook

open Text

/-- What a token stands for. -/
inductive TokenKind where
  /-- A time of day, or a date and a time. -/
  | timestamp
  /-- Free text, its words joined with single spaces. -/
  | description
  /-- A name after `@`. -/
  | project
  /-- A name after `+`. -/
  | tag
  /-- A duration after `~`. -/
  | estimate
  /-- A duration in parentheses. -/
  | duration
  /-- Everything after a hash that stands alone. -/
  | remark
  /-- The word for a state after an arrow. -/
  | suffix
  /-- After `@`, one of the words for going on, or digits. -/
  | resume
  /-- After `@`, one of the words for stopping. -/
  | stop
deriving DecidableEq, Repr

/-- A token of a line. -/
structure Token where
  kind : TokenKind
  text : String
  /-- The position of the first character, counted from one. -/
  column : Nat
deriving DecidableEq, Repr

/-- A line that is neither blank nor a comment. -/
structure Line where
  /-- The number of spaces and tabs that the line starts with. -/
  indent : Nat
  tokens : List Token
deriving DecidableEq, Repr

/-! ## Shapes -/

/-- Four, two and two decimal digits with hyphens between them. -/
def isDateShape : List Char → Bool
  | [a, b, c, d, '-', e, f, '-', g, h] => [a, b, c, d, e, f, g, h].all isDecimal
  | _ => false

/-- One or two decimal digits and then two, or twice two, each after a colon. -/
def isTimeShape : List Char → Bool
  | [a, ':', b, c] => [a, b, c].all isDecimal
  | [a, b, ':', c, d] => [a, b, c, d].all isDecimal
  | [a, ':', b, c, ':', d, e] => [a, b, c, d, e].all isDecimal
  | [a, b, ':', c, d, ':', e, f] => [a, b, c, d, e, f].all isDecimal
  | _ => false

end Daybook
