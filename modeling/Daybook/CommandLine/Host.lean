import Daybook.Calendar.Date

/-!
# What the program runs on

Everything that the program needs from its surroundings, as a record of actions, so that the
program itself is a plain function of them.
-/

namespace Daybook.CommandLine

/-- What stands at a place of a file system. -/
inductive FileNode where
  | directory
  | file (bytes : ByteArray)

/-- The surroundings of a run. -/
structure Host (m : Type → Type) where
  /-- The variables of the environment. -/
  environment : m (List (String × String))
  /-- The date for the lines of a log before the first date, unless one is given. -/
  today : m Date
  /-- The directory that relative paths start from. -/
  directory : m String
  /-- All of the standard input. -/
  input : m ByteArray
  /-- What stands at a path, if there is something that can be read. -/
  look : String → m (Option FileNode)
  /-- Writes the file at a path; tells whether that could be done. -/
  write : String → ByteArray → m Bool
  /-- Takes the file at a path away; tells whether that could be done. -/
  remove : String → m Bool
  /-- Makes a directory and those above it; tells whether it is there afterwards. -/
  makeDirectory : String → m Bool

section

variable {m : Type → Type} [Monad m]

/-- The bytes of the file at a path, if it can be read. -/
def Host.read (host : Host m) (path : String) : m (Option ByteArray) := do
  match ← host.look path with
  | some (.file bytes) => return some bytes
  | _ => return none

/-- There is a file at a path. -/
def Host.isFile (host : Host m) (path : String) : m Bool := do
  return (← host.read path).isSome

end

end Daybook.CommandLine
