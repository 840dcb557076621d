import Daybook.CommandLine.Host
import Daybook.CommandLine.Location
import Daybook.Store.File

/-!
# Stores in their places

Opening a store and keeping it. While a file changes, a journal stands beside it, so a journal
that is found beside a file was left by a run that was broken off; so was a log of changes that
are still to be made.

* `openStore` opens the store of a place, and makes it where there is none.
* `keepStore` writes a store to its place.
-/

namespace Daybook.CommandLine

/-- The journal of the file at a path. -/
def journalPath (path : String) : String :=
  path ++ journalEnding

/-- The log of changes to the file at a path. -/
def changesPath (path : String) : String :=
  path ++ "-wal"

/-- Something stands there, and it is not an empty file. -/
def holdsSomething : Option FileNode → Bool
  | none => false
  | some .directory => true
  | some (.file bytes) => bytes.size ≠ 0

section

variable {m : Type → Type} [Monad m]

/-! ## Writing -/

/-- Writes a store to a file under a journal; tells whether that could be done. -/
def writeStore (host : Host m) (path : String) (store : Store) : m Bool := do
  if ← host.write (journalPath path) ByteArray.empty then
    let written ← host.write path store.toBytes
    let _ ← host.remove (journalPath path)
    return written
  else return false

/-- Keeps a store; tells whether that could be done. -/
def keepStore (host : Host m) (location : Location) (store : Store) : m Bool :=
  match location with
  | .passing => pure true
  | .file path access frozen =>
    if access = .read ∨ frozen then pure false else writeStore host path store

/-! ## What broken-off runs left -/

/-- Takes away the journal that was left beside a file; tells whether the file may be used. A
journal that starts with a zero is one that was never filled in and stays. A file that is not
to be written is used only if there is nothing to take away. -/
def clearJournal (host : Host m) (path : String) (access : Access) (bytes : ByteArray) :
    m Bool := do
  let journal ← host.look (journalPath path)
  if !holdsSomething journal then return true
  else if bytes.size = 0 then
    if access ≠ .read then let _ ← host.remove (journalPath path)
    return true
  else match journal with
    | some (.file left) =>
      if left.toList.head? = some 0 then return true
      else if access = .read then return false
      else host.remove (journalPath path)
    | _ => return false

/-- Takes away the log of changes that was left beside a file; tells whether the file may be
used. -/
def clearChanges (host : Host m) (path : String) (access : Access) (bytes : ByteArray) :
    m Bool := do
  match ← host.look (changesPath path) with
  | none => return true
  | some .directory => return false
  | some (.file left) =>
    if left.size = 0 ∨ bytes.size ≠ 0 ∧ access = .read then return true
    else host.remove (changesPath path)

/-! ## Opening -/

/-- The bytes of the file at a path, which is made if it may be. -/
def fileBytes (host : Host m) (path : String) (access : Access) : m (Option ByteArray) := do
  match ← host.look path with
  | some (.file bytes) => return some bytes
  | some .directory => return none
  | none =>
    if access = .create then
      let made ← host.write path ByteArray.empty
      return if made then some ByteArray.empty else none
    else return none

/-- The store in an empty file, which is written there first. -/
def startStore (host : Host m) (path : String) (access : Access) : m (Option Store) := do
  if !(← clearChanges host path access ByteArray.empty) then return none
  else if access = .read then return none
  else
    let written ← writeStore host path Store.empty
    return if written then some Store.empty else none

/-- The store in a file that may have been left by a run that was broken off. -/
def recoverStore (host : Host m) (path : String) (access : Access) (bytes : ByteArray) :
    m (Option Store) := do
  if !(← clearJournal host path access bytes) then return none
  else if bytes.size = 0 then startStore host path access
  else match Store.ofBytes? bytes with
    | none => return none
    | some store =>
      let usable ← clearChanges host path access bytes
      return if usable then some store else none

/-- The store at a place. Where there is none, an empty one is made. -/
def openStore (host : Host m) : Location → m (Option Store)
  | .passing => pure (some Store.empty)
  | .file path access frozen => do
    match ← fileBytes host path access with
    | none => return none
    | some bytes =>
      if frozen then return if bytes.size = 0 then none else Store.ofBytes? bytes
      else recoverStore host path access bytes

end

end Daybook.CommandLine
