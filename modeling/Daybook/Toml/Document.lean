import Daybook.Toml.Quoted
import Daybook.Toml.Tables

/-!
# Reading a TOML file

Names, values that contain values, and the lines of a file.

* `Tables.ofText?` gives what a whole file sets, or nothing if any of it is a mistake.
-/

namespace Daybook.Toml

/-! ## White space and comments -/

/-- The text without the spaces and tabs it starts with. -/
def skipSpace (cs : List Char) : List Char :=
  cs.dropWhile isSpace

/-- What follows a comment, if one is here: everything up to the end of the line. -/
def skipComment (cs : List Char) : List Char :=
  match cs with
  | '#' :: rest => rest.dropWhile isPrintable
  | _ => cs

/-- What follows spaces, tabs, line ends and comments, by way of at most `fuel` of them. -/
def skipBlank : Nat → List Char → List Char
  | 0, cs => cs
  | fuel + 1, cs =>
    let rest := skipComment (skipSpace cs)
    match afterLineEnd? rest with
    | some rest => skipBlank fuel rest
    | none => rest

/-- What follows the end of a line that may have a comment. -/
def endLine? (cs : List Char) : Option (List Char) :=
  match skipComment (skipSpace cs) with
  | [] => some []
  | rest => afterLineEnd? rest

/-! ## Names -/

/-- A character of a name without quotes. -/
def isNameChar (c : Char) : Bool :=
  c.isAlphanum || c == '-' || c == '_'

/-- Takes a name off the front of a text; a quoted one is on one line. -/
def takeName (cs : List Char) : Option (String × List Char) :=
  match cs with
  | '"' :: rest => (takeBasic (rest.length + 1) rest).map fun (s, cs) => (String.ofList s, cs)
  | '\'' :: rest => (takeLiteral rest).map fun (s, cs) => (String.ofList s, cs)
  | _ =>
    match cs.takeWhile isNameChar with
    | [] => none
    | name => some (String.ofList name, cs.dropWhile isNameChar)

/-- Takes names with dots between them, by way of at most `fuel` of them: those on the way and
the last one. White space may stand around each name. -/
def takeNames : Nat → List Char → Option ((List String × String) × List Char)
  | 0, _ => none
  | fuel + 1, cs => do
    let (name, cs) ← takeName (skipSpace cs)
    match skipSpace cs with
    | '.' :: cs => do
      let ((path, last), cs) ← takeNames fuel cs
      some ((name :: path, last), cs)
    | cs => some (([], name), cs)

/-- Fewer values than this lie within each other, and fewer names make up a dotted name. -/
def depthLimit : Nat := 80

/-- Takes a dotted name off the front of a text. -/
def takeKey (cs : List Char) : Option ((List String × String) × List Char) :=
  takeNames (depthLimit - 1) cs

/-! ## Values -/

mutual

/-- Takes a value off the front of a text. There may be `depth` more levels below it. -/
def takeValue : Nat → Nat → List Char → Option (Value × List Char)
  | 0, _, _ => none
  | fuel + 1, depth, cs =>
    match cs with
    | '[' :: rest =>
      if depth = 0 then none
      else (takeItems fuel (depth - 1) rest).map fun cs => (.list, cs)
    | '\x7b' :: rest =>
      if depth = 0 then none
      else match skipSpace rest with
        | '\x7d' :: cs => some (.table, cs)
        | rest => (takePairs fuel (depth - 1) [] rest).map fun cs => (.table, cs)
    | c :: _ =>
      if c = '"' ∨ c = '\'' then (takeQuoted cs).map fun (s, cs) => (.text (String.ofList s), cs)
      else takeScalar cs
    | [] => none

/-- What follows the items of a list and its closing bracket. -/
def takeItems : Nat → Nat → List Char → Option (List Char)
  | 0, _, _ => none
  | fuel + 1, depth, cs =>
    match skipBlank cs.length cs with
    | ']' :: cs => some cs
    | cs => do
      let (_, cs) ← takeValue fuel depth cs
      match skipBlank cs.length cs with
      | ',' :: cs => takeItems fuel depth cs
      | ']' :: cs => some cs
      | _ => none

/-- What follows the pairs of a table on one line and its closing brace. -/
def takePairs : Nat → Nat → Tables → List Char → Option (List Char)
  | 0, _, _, _ => none
  | fuel + 1, depth, t, cs => do
    let ((path, name), cs) ← takeKey cs
    match cs with
    | '=' :: cs => do
      let (v, cs) ← takeValue fuel depth (skipSpace cs)
      let t ← t.setValue [] path name v
      match skipSpace cs with
      | ',' :: cs => takePairs fuel depth t cs
      | '\x7d' :: cs => some cs
      | _ => none
    | _ => none

end

/-! ## Lines -/

/-- What the lines of a file have set, and the table that the next line belongs to. -/
structure Reading where
  tables : Tables := []
  place : Place := []
deriving DecidableEq, Repr

/-- Takes the name of a header and its closing brackets. -/
def takeHeader (closing : List Char) (cs : List Char) :
    Option ((List String × String) × List Char) := do
  let (key, cs) ← takeKey cs
  if closing.isPrefixOf cs then some (key, cs.drop closing.length) else none

/-- Reads a line that is not blank. -/
def readLine (r : Reading) (cs : List Char) : Option (Reading × List Char) :=
  match cs with
  | '[' :: '[' :: rest => do
    let ((path, name), cs) ← takeHeader [']', ']'] rest
    let (tables, place) ← r.tables.addTable path name
    some ({ tables, place }, ← endLine? cs)
  | '[' :: rest => do
    let ((path, name), cs) ← takeHeader [']'] rest
    let (tables, place) ← r.tables.openTable path name
    some ({ tables, place }, ← endLine? cs)
  | _ => do
    let ((path, name), cs) ← takeKey cs
    match cs with
    | '=' :: rest => do
      let (v, cs) ← takeValue (2 * rest.length + 2) (depthLimit - 1) (skipSpace rest)
      let tables ← r.tables.setValue r.place path name v
      some ({ r with tables }, ← endLine? cs)
    | _ => none

/-- Reads the lines of a file, at most `fuel` of them. -/
def readLines : Nat → Reading → List Char → Option Reading
  | 0, _, _ => none
  | fuel + 1, r, cs =>
    match skipBlank cs.length cs with
    | [] => some r
    | cs => do
      let (r, cs) ← readLine r cs
      readLines fuel r cs

/-- The text without the mark of its encoding. -/
def dropMark : List Char → List Char
  | c :: cs => if c.toNat = 0xFEFF then cs else c :: cs
  | [] => []

/-- What a file sets. -/
def Tables.ofText? (text : String) : Option Tables :=
  let cs := dropMark text.toList
  (readLines (cs.length + 1) {} cs).map Reading.tables

end Daybook.Toml
