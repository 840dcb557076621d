import Daybook.Line.Token
import Daybook.Text.Split
import Daybook.Problem

/-!
# Reading a line into tokens

A line is a timestamp, then plain words, then annotations, then possibly a remark. The words
are told apart one at a time (`classify`); the phases follow from which of them are plain.
Blank lines and comments have no tokens.

* `Line.ofText` is the reader of one line.
-/

namespace Daybook

open Text

/-! ## One word -/

/-- The kind of a word after `@`. -/
def nameKind (name : List Char) : TokenKind :=
  if (Stop.ofWord? (String.ofList name)).isSome then .stop
  else if name = "resume".toList ∨ name = "prev".toList ∨ name.all isDigit then .resume
  else .project

/-- The text before the parenthesis that closes it. -/
def closed? (cs : List Char) : Option (List Char) :=
  if cs.getLast? = some ')' then some cs.dropLast else none

/-- What a word other than a lone hash stands for: the kind and the text of an annotation, or
nothing for a plain word. -/
def classify (word : List Char) : Except Cause (Option (TokenKind × List Char)) :=
  if word.contains '#' then .error (.hashInWord (String.ofList word))
  else match word with
    | '-' :: '>' :: state =>
      if (State.ofSuffix? (String.ofList state)).isSome then .ok (some (.suffix, state))
      else .error (.badSuffix (String.ofList state))
    | '@' :: name =>
      if name = [] then .error .emptyProject else .ok (some (nameKind name, name))
    | '+' :: tag =>
      if tag = [] then .error .emptyTag else .ok (some (.tag, tag))
    | '~' :: estimate =>
      if estimate = [] then .error .emptyEstimate else .ok (some (.estimate, estimate))
    | '(' :: rest =>
      match closed? rest with
      | some inner => .ok (some (.duration, inner))
      | none => .error (.unclosed (String.ofList word))
    | _ => .ok none

/-- The word is part of a description. -/
def isPlain (w : Word) : Bool :=
  match classify w.text with
  | .ok none => true
  | _ => false

/-! ## The phases of a line -/

/-- The token for the timestamp that the words start with, and the words after it. -/
def takeTimestamp : List Word → Option (Token × List Word)
  | [] => none
  | first :: rest =>
    if isDateShape first.text then
      match rest with
      | second :: rest =>
        if isTimeShape second.text then
          some (⟨.timestamp, String.ofList (first.text ++ ' ' :: second.text), first.column⟩, rest)
        else none
      | [] => none
    else if isTimeShape first.text then
      some (⟨.timestamp, String.ofList first.text, first.column⟩, rest)
    else none

/-- The token for a description, if there is a word for one. -/
def descriptionToken : List Word → List Token
  | [] => []
  | first :: rest =>
    [⟨.description, String.ofList (joinWith [' '] ((first :: rest).map Word.text)), first.column⟩]

/-- The tokens of the annotations and the remark that follow a description. -/
def annotationTokens : List Word → Except Fault (List Token)
  | [] => .ok []
  | w :: ws =>
    if w.text = ['#'] then .ok [⟨.remark, String.ofList (trim w.rest), w.column⟩]
    else match classify w.text with
      | .error cause => .error ⟨some w.column, cause⟩
      | .ok none => .error ⟨some w.column, .lateText (String.ofList w.text)⟩
      | .ok (some (kind, text)) => do
        let tokens ← annotationTokens ws
        .ok (⟨kind, String.ofList text, w.column⟩ :: tokens)

/-- The tokens of the words of a line that starts with `indent` spaces and tabs. -/
def lineTokens (indent : Nat) (ws : List Word) : Except Fault (List Token) :=
  match takeTimestamp ws with
  | none => .error ⟨some (indent + 1), .missingTimestamp⟩
  | some (timestamp, ws) => do
    let annotations ← annotationTokens (ws.dropWhile isPlain)
    .ok (timestamp :: descriptionToken (ws.takeWhile isPlain) ++ annotations)

/-! ## A line -/

/-- A space or a tab. -/
def isIndent (c : Char) : Bool :=
  c == ' ' || c == '\t'

/-- The number of spaces and tabs that a line starts with. -/
def indentOf (line : List Char) : Nat :=
  (line.takeWhile isIndent).length

/-- What a line holds between its indentation and the white space at its end. -/
def bodyOf (line : List Char) : List Char :=
  trimRight (line.dropWhile isIndent)

/-- A line that says nothing: its body is empty or a comment. -/
def isSilent (line : List Char) : Bool :=
  match bodyOf line with
  | [] => true
  | c :: _ => c == '#'

/-- The tokens of a line, or nothing for a line that says nothing. -/
def Line.ofText (line : List Char) : Except Fault (Option Line) :=
  if isSilent line then .ok none
  else do
    let indent := indentOf line
    let tokens ← lineTokens indent (words (indent + 1) (bodyOf line))
    .ok (some ⟨indent, tokens⟩)

end Daybook
