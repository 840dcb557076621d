import Daybook.CommandLine.Address
import Daybook.CommandLine.Path

/-!
# Where a store is

What an address means to a run: a store that nobody else sees, or a file at a path from the
root.

* `Location.ofText?` finds the place of a store.
-/

namespace Daybook.CommandLine

/-- Where a store is. -/
inductive Location where
  /-- A store that lasts as long as the run. -/
  | passing
  /-- A file, what may be done with it, and whether it is taken to be unchanging. -/
  | file (path : String) (access : Access) (frozen : Bool)
deriving DecidableEq, Repr

/-! ## Paths from the root -/

/-- The greatest number of bytes in the path of a file that a store is kept in. A byte for the
end of the path has to fit in as well. -/
def pathLimit : Nat := 512

/-- What the path of the journal of a store ends with, behind the path of the store. -/
def journalEnding : String := "-journal"

/-- The number of bytes in the path of a place. -/
def pathSize : List String → Nat
  | [] => 0
  | name :: names => name.utf8ByteSize + 1 + pathSize names

/-- The place that names lead to from a place, whether or not there are directories on the way.
No path on the way may be too long. -/
def walk? (place : List String) : List String → Option (List String)
  | [] => some place
  | name :: names =>
    if name = ".." then walk? place.dropLast names
    else if pathSize (place ++ [name]) < pathLimit then walk? (place ++ [name]) names
    else none

/-- The path from the root that a path from a directory means. -/
def rootPath? (directory path : String) : Option String := do
  let start := if isAbsolute path then [] else pathNames directory
  let place ← walk? [] (start ++ pathNames path)
  if place = [] ∨ pathLimit < pathSize place + journalEnding.utf8ByteSize then none
  else some (pathOfNames true place)

/-! ## Places of stores -/

namespace Location

/-- The file systems of files. -/
def fileSystems : List String :=
  ["unix", "unix-none", "unix-dotfile", "unix-excl"]

/-- The file system whose files last as long as the run. -/
def passingSystem : String := "memdb"

/-- The greatest number of bytes in the name of a file that lasts as long as the run. -/
def passingLimit : Nat := 1024

/-- A store that lasts as long as the run; there is none unless it can be made. -/
def passingIf (writable : Bool) : Option Location :=
  if writable then some .passing else none

/-- The place that an address means to a run in a directory. -/
def ofAddress? (directory : String) (address : Address) : Option Location := do
  let terms ← Terms.ofOptions? address.options
  let frozen := isFrozen address.options
  let writable := terms.access != .read
  if terms.system ≠ passingSystem ∧ terms.system ∉ fileSystems then none
  else if terms.access = .memory ∨ address.name = "" ∨ address.name = ":memory:" then
    passingIf writable
  else if terms.system = passingSystem then
    let size := address.name.utf8ByteSize + journalEnding.utf8ByteSize
    passingIf (writable && !frozen && size ≤ passingLimit)
  else
    let path ← rootPath? directory address.name
    some (.file path terms.access frozen)

/-- The place that the configured text means to a run in a directory. No path has a character
that is zero. -/
def ofText? (directory text : String) : Option Location :=
  if text.toList.contains (Char.ofNat 0) then none
  else (Address.ofText? text).bind (ofAddress? directory)

end Location

end Daybook.CommandLine
