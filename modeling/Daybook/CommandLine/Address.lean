import Daybook.Text.Numeral
import Daybook.Text.Split

/-!
# Addresses of stores

The place of a store may be given as an address, which starts with `file:`. Behind that stands
the name of the store, and behind a question mark stand options, with a name and a value each. A
number sign ends the address. A per cent sign and two hexadecimal digits stand for a byte.

* `Address.ofText?` reads an address; a text of another form names the store itself.
* `Terms.ofOptions?` says how the options ask for the store to be used.
-/

namespace Daybook.CommandLine

/-! ## Escapes -/

/-- The bytes that a text with escapes stands for. A byte that is zero ends them. -/
def unescape : List Char → List UInt8
  | '%' :: a :: b :: cs =>
    match Text.digitsValue? 16 [a, b] with
    | some 0 => []
    | some n => n.toUInt8 :: unescape cs
    | none => '%'.toUInt8 :: unescape (a :: b :: cs)
  | c :: cs => String.utf8EncodeChar c ++ unescape cs
  | [] => []

/-- The text of bytes. If they are no text, each of them that is not ASCII is written as one of
the last characters there are, so that different bytes have different texts. -/
def textOfBytes (bytes : List UInt8) : String :=
  let readable (b : UInt8) : Char :=
    if b < 128 then Char.ofNat b.toNat else Char.ofNat (0x10FF00 + b.toNat)
  (String.fromUTF8? bytes.toByteArray).getD (String.ofList (bytes.map readable))

/-- The text that a text with escapes stands for. -/
def unescapedText (cs : List Char) : String :=
  textOfBytes (unescape cs)

/-! ## Addresses -/

/-- The name of a store and the options that go with it. -/
structure Address where
  name : String
  /-- The options, in the order in which they are given. -/
  options : List (String × String) := []
deriving DecidableEq, Repr

/-- What follows the name of the machine. None has to be named, and only this one can be. -/
def afterMachine? : List Char → Option (List Char)
  | '/' :: '/' :: cs =>
    let machine := cs.takeWhile (· ≠ '/')
    if machine = [] ∨ machine = "localhost".toList then some (cs.dropWhile (· ≠ '/')) else none
  | cs => some cs

/-- An option of an address; one without a name is none. -/
def optionOf? (cs : List Char) : Option (String × String) :=
  let (name, value) := (Text.splitAt? '=' cs).getD (cs, [])
  if unescape name = [] then none else some (unescapedText name, unescapedText value)

/-- The address that follows `file:`. -/
def Address.ofRest? (cs : List Char) : Option Address := do
  let cs := (← afterMachine? cs).takeWhile (· ≠ '#')
  let (name, options) := (Text.splitAt? '?' cs).getD (cs, [])
  some
    { name := unescapedText name
      options := (Text.pieces '&' options).filterMap optionOf? }

/-- The address that a text is, or the text as a name. -/
def Address.ofText? (text : String) : Option Address :=
  match text.toList with
  | 'f' :: 'i' :: 'l' :: 'e' :: ':' :: cs => ofRest? cs
  | _ => some { name := text }

/-! ## Terms of use -/

/-- What may be done with the file of a store. -/
inductive Access where
  | read
  | write
  /-- The file may also be made. -/
  | create
  /-- Nothing is kept in a file. -/
  | memory
deriving DecidableEq, Repr

namespace Access

/-- The access that a word asks for. -/
def ofWord? : String → Option Access
  | "ro" => some .read
  | "rw" => some .write
  | "rwc" => some .create
  | "memory" => some .memory
  | _ => none

/-- An access that has been asked for may be replaced by a narrower one. -/
def mayBecome : Access → Access → Bool
  | .memory, _ | _, .memory => true
  | .create, _ => true
  | .write, next => next != .create
  | .read, next => next == .read

end Access

/-- How a store is to be used. -/
structure Terms where
  access : Access := .create
  /-- The name of the file system that the store is in. -/
  system : String := "unix"
deriving DecidableEq, Repr

namespace Terms

/-- The terms as an option changes them, unless it asks for what cannot be. -/
def heed? (t : Terms) : String × String → Option Terms
  | ("vfs", name) => some { t with system := name }
  | ("mode", word) => do
    let access ← Access.ofWord? word
    if t.access.mayBecome access then some { t with access } else none
  | ("cache", word) => if word = "shared" ∨ word = "private" then some t else none
  | _ => some t

/-- The terms that options ask for. -/
def ofOptions? (options : List (String × String)) : Option Terms :=
  options.foldlM heed? {}

end Terms

/-! ## Truth values -/

/-- The number that a value starts with, if it is below the bound of signed words of 32 bits,
and zero otherwise. -/
def leadingNumber (cs : List Char) : Nat :=
  let isHexDigit (c : Char) := (Text.digitsValue? 16 [c]).isSome
  let n := match cs with
    | '0' :: x :: d :: ds =>
      if (x = 'x' ∨ x = 'X') ∧ isHexDigit d then
        (Text.digitsValue? 16 ((d :: ds).takeWhile isHexDigit)).getD 0
      else Text.value (cs.takeWhile Text.isDigit)
    | _ => Text.value (cs.takeWhile Text.isDigit)
  if n < Nat.pow 2 31 then n else 0

/-- A value that means yes: one of three words, or a number whose last eight bits are not all
zero. -/
def meansYes (value : String) : Bool :=
  let word := value.toList.map Char.toLower
  leadingNumber value.toList % 256 ≠ 0 ∨ word = "on".toList ∨ word = "yes".toList ∨
    word = "true".toList

/-- The options say that nothing will change the file. -/
def isFrozen (options : List (String × String)) : Bool :=
  ((options.lookup "immutable").map meansYes).getD false

end Daybook.CommandLine
