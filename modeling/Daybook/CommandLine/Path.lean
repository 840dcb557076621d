import Daybook.Text.Split

/-!
# Paths

The parts of a path between its slashes, and paths put together.
-/

namespace Daybook.CommandLine

/-- The path starts at the root. -/
def isAbsolute (path : String) : Bool :=
  path.toList.head? = some '/'

/-- The path within a directory; an absolute path stays as it is. -/
def joinPath (directory path : String) : String :=
  if isAbsolute path ∨ directory = "" then path
  else if directory.toList.getLast? = some '/' then directory ++ path
  else directory ++ "/" ++ path

/-- The texts between the slashes of a path. -/
def pathPieces (path : String) : List String :=
  (Text.pieces '/' path.toList).map String.ofList

/-- The names that a path consists of; empty ones and those that stay in place do not count. -/
def pathNames (path : String) : List String :=
  (pathPieces path).filter fun name => name ≠ "" ∧ name ≠ "."

/-- The path of names, from the root or from where one is. -/
def pathOfNames (absolute : Bool) (names : List String) : String :=
  (if absolute then "/" else "") ++ "/".intercalate names

/-- The directory that a path lies in, if the path has a last name to take away. -/
def parentPath? (path : String) : Option String :=
  if path = "" ∨ isAbsolute path ∧ pathNames path = [] then none
  else some (pathOfNames (isAbsolute path) (pathNames path).dropLast)

/-- A directory and all directories above it, the nearest first. -/
def ancestors (directory : String) : List String :=
  let names := pathNames directory
  (List.range (names.length + 1)).map fun n =>
    pathOfNames (isAbsolute directory) (names.take (names.length - n))

end Daybook.CommandLine
