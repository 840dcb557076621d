import Daybook.Store.Basic
import Daybook.Text.Split

/-!
# Stores as files

A store is kept in a file of its own form: a mark that no text starts with, the last number
given out, and a line for each session with its fields between tabs. Tabs, line ends and
backslashes within a field are written behind a backslash.

* `Store.toBytes` and `Store.ofBytes?` write and read a file.
* `decodeField_encodeField` says that a field reads back.
-/

namespace Daybook

namespace StoreFile

open Text

/-! ## Fields -/

/-- A field as it stands between tabs. -/
def encodeField : List Char → List Char
  | [] => []
  | '\\' :: cs => '\\' :: '\\' :: encodeField cs
  | '\t' :: cs => '\\' :: 't' :: encodeField cs
  | '\n' :: cs => '\\' :: 'n' :: encodeField cs
  | c :: cs => c :: encodeField cs

/-- The field that stands between tabs. -/
def decodeField : List Char → Option (List Char)
  | [] => some []
  | '\\' :: '\\' :: cs => (decodeField cs).map ('\\' :: ·)
  | '\\' :: 't' :: cs => (decodeField cs).map ('\t' :: ·)
  | '\\' :: 'n' :: cs => (decodeField cs).map ('\n' :: ·)
  | c :: cs => if c = '\\' then none else (decodeField cs).map (c :: ·)

theorem decodeField_encodeField (cs : List Char) : decodeField (encodeField cs) = some cs := by
  fun_induction encodeField cs with
  | case1 => rfl
  | case2 cs ih => simp [decodeField, ih]
  | case3 cs ih => simp [decodeField, ih]
  | case4 cs ih => simp [decodeField, ih]
  | case5 c cs hbackslash htab hline ih =>
    have hc : c ≠ '\\' := fun h => hbackslash h
    unfold decodeField
    split
    · simp_all
    · next heq => simp at heq; exact absurd heq.1 hc
    · next heq => simp at heq; exact absurd heq.1 hc
    · next heq => simp at heq; exact absurd heq.1 hc
    · next heq =>
      simp only [List.cons.injEq] at heq
      obtain ⟨rfl, rfl⟩ := heq
      simp [hc, ih]

/-- A text as a field. -/
def textField (s : String) : List Char :=
  encodeField s.toList

/-- The text of a field. -/
def readText (cs : List Char) : Option String :=
  (decodeField cs).map String.ofList

/-- A value that may be missing as a field; a mark in front tells an empty one from none. -/
def optionField {α : Type} (write : α → List Char) : Option α → List Char
  | none => []
  | some a => '=' :: write a

/-- The value of a field that may be missing. -/
def readOption {α : Type} (read : List Char → Option α) : List Char → Option (Option α)
  | [] => some none
  | '=' :: cs => (read cs).map some
  | _ => none

/-- A whole number as a field. -/
def intField (n : Int) : List Char :=
  (ofInt n).toList

/-- The natural number of a field. -/
def readNat (cs : List Char) : Option Nat :=
  if cs ≠ [] ∧ cs.all isDigit then some (value cs) else none

/-- The whole number of a field. -/
def readInt : List Char → Option Int
  | '-' :: cs => (readNat cs).map fun n => -(n : Int)
  | cs => (readNat cs).map fun n => (n : Int)

/-! ## Rows -/

/-- A row as fields: the tags come last. -/
def rowFields (r : Row) : List (List Char) :=
  [intField r.id.value, textField r.description, optionField textField r.project,
    textField r.start, optionField textField r.stop, textField r.state,
    optionField intField r.parent, optionField intField r.continues,
    optionField digits r.estimate, optionField textField r.remark] ++ r.tags.map textField

/-- The row of fields. -/
def readRow : List (List Char) → Option Row
  | id :: description :: project :: start :: stop :: state :: parent :: continues :: estimate ::
      remark :: tags => do
    let id ← readInt id
    if h : 0 < id then
      some
        { id := ⟨id, h⟩
          description := ← readText description
          project := ← readOption readText project
          start := ← readText start
          stop := ← readOption readText stop
          state := ← readText state
          parent := ← readOption readInt parent
          continues := ← readOption readInt continues
          estimate := ← readOption readNat estimate
          remark := ← readOption readText remark
          tags := ← tags.mapM readText }
    else none
  | _ => none

/-! ## Files -/

/-- What a file of this form starts with. The first byte starts no text. -/
def mark : List UInt8 := [0xFF, 0x44, 0x42, 0x31]

/-- The bytes of a list as an array. -/
def bytesOfList (bytes : List UInt8) : ByteArray :=
  ⟨bytes.toArray⟩

/-- The lines of a file. -/
def fileLines (s : Store) : List (List Char) :=
  digits s.lastId :: s.rows.map fun r => joinWith ['\t'] (rowFields r)

/-- The store of the lines of a file. -/
def readLines : List (List Char) → Option Store
  | [] => none
  | lastId :: rows => do
    let lastId ← readNat lastId
    let rows ← rows.mapM fun row => readRow (pieces '\t' row)
    some { rows, lastId }

end StoreFile

/-- The file of a store. -/
def Store.toBytes (s : Store) : ByteArray :=
  StoreFile.bytesOfList StoreFile.mark ++
    (String.ofList (Text.joinWith ['\n'] (StoreFile.fileLines s))).toUTF8

/-- The store of a file; an empty file is a store without sessions. -/
def Store.ofBytes? (bytes : ByteArray) : Option Store :=
  if bytes.size = 0 then some Store.empty
  else if bytes.data.toList.take 4 = StoreFile.mark then do
    let text ← String.fromUTF8? (bytes.extract 4 bytes.size)
    StoreFile.readLines (Text.pieces '\n' text.toList)
  else none

end Daybook
