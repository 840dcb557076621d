import Daybook.CommandLine.Host
import Daybook.CommandLine.Path

/-!
# Files in memory

A tree of directories and files, and a host for the program that has nothing else.

* `FileTree.locate?` follows a path; names that go up and names that stay in place are followed
  as well.
-/

namespace Daybook.CommandLine

/-- The places of a tree, by their names from the root, and what stands there. The root is
always a directory. -/
structure FileTree where
  nodes : List (List String × FileNode) := []

namespace FileTree

/-- What stands at a place. -/
def node? (t : FileTree) (place : List String) : Option FileNode :=
  if place = [] then some .directory else t.nodes.lookup place

/-- A directory stands at a place. -/
def isDirectory (t : FileTree) (place : List String) : Bool :=
  match t.node? place with
  | some .directory => true
  | _ => false

/-- The tree with something at a place. -/
def set (t : FileTree) (place : List String) (node : FileNode) : FileTree :=
  { nodes := (place, node) :: t.nodes.filter fun entry => entry.1 ≠ place }

/-- The tree with nothing at a place. -/
def erase (t : FileTree) (place : List String) : FileTree :=
  { nodes := t.nodes.filter fun entry => entry.1 ≠ place }

/-! ## Paths -/

/-- The greatest number of bytes in a name. -/
def nameLimit : Nat := 255

/-- The greatest number of bytes in a path. -/
def pathLimit : Nat := 4095

/-- The place that the parts of a path lead to. All but the last have to lead to directories. -/
def follow? (t : FileTree) (place : List String) : List String → Option (List String)
  | [] => some place
  | name :: rest =>
    if !t.isDirectory place then none
    else if name = "" ∨ name = "." then t.follow? place rest
    else if name = ".." then t.follow? place.dropLast rest
    else if nameLimit < name.utf8ByteSize then none
    else t.follow? (place ++ [name]) rest

/-- The place that a path leads to from a directory. -/
def locate? (t : FileTree) (directory path : String) : Option (List String) :=
  if path = "" ∨ pathLimit < path.utf8ByteSize then none
  else
    let start := if isAbsolute path then [] else pathNames directory
    t.follow? start (pathPieces path)

/-! ## Files and directories -/

/-- What stands at a path. -/
def look? (t : FileTree) (directory path : String) : Option FileNode :=
  (t.locate? directory path).bind t.node?

/-- Writes a file, unless its directory is missing or a directory stands in its place. -/
def write? (t : FileTree) (directory path : String) (bytes : ByteArray) : Option FileTree := do
  let place ← t.locate? directory path
  if t.isDirectory place then none else some (t.set place (.file bytes))

/-- Takes a file away. -/
def remove? (t : FileTree) (directory path : String) : Option FileTree := do
  let place ← t.locate? directory path
  match ← t.node? place with
  | .file _ => some (t.erase place)
  | .directory => none

/-- Makes the directories that names lead to from a place, up to the first that cannot be made;
tells whether there was none. -/
def makeFrom (t : FileTree) (place : List String) : List String → FileTree × Bool
  | [] => (t, true)
  | name :: rest =>
    let here := if name = ".." then place.dropLast else place ++ [name]
    match t.node? here with
    | some .directory => t.makeFrom here rest
    | some (.file _) => (t, false)
    | none =>
      if nameLimit < name.utf8ByteSize then (t, false)
      else (t.set here .directory).makeFrom here rest

/-- Makes a directory and those above it, as far as that can be done; tells whether it could. -/
def makeDirectory (t : FileTree) (directory path : String) : FileTree × Bool :=
  if pathLimit < path.utf8ByteSize then (t, false)
  else t.makeFrom (if isAbsolute path then [] else pathNames directory) (pathNames path)

/-- The tree with a file at a path, in directories made for it. -/
def withFile (t : FileTree) (directory path : String) (bytes : ByteArray) : FileTree :=
  let t := ((parentPath? path).map fun parent => (t.makeDirectory directory parent).1).getD t
  (t.write? directory path bytes).getD t

end FileTree

/-- A run without a disk: what the program is given, and the files that it may change. -/
structure Surroundings where
  environment : List (String × String)
  today : Date
  directory : String
  input : ByteArray

/-- Puts a tree in the place of the files, if there is one; tells whether there is. -/
def Surroundings.change (next : Option FileTree) : StateM FileTree Bool := do
  match next with
  | some t => set t; return true
  | none => return false

/-- The host of a run without a disk. -/
def Surroundings.host (s : Surroundings) : Host (StateM FileTree) :=
  { environment := pure s.environment
    today := pure s.today
    directory := pure s.directory
    input := pure s.input
    look := fun path => do return (← get).look? s.directory path
    write := fun path bytes => do change ((← get).write? s.directory path bytes)
    remove := fun path => do change ((← get).remove? s.directory path)
    makeDirectory := fun path => do
      let (t, made) := (← get).makeDirectory s.directory path
      set t
      return made }

end Daybook.CommandLine
