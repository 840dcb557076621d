import Daybook.CommandLine.Literal
import Daybook.CommandLine.Path
import Daybook.Toml.Document

/-!
# Configuration

The only thing to configure is the path of the database. It is said in layers: a default, the
file in the home directory, the file named by an argument, the environment. A later layer takes
the place of an earlier one, and a layer that cannot be read spoils the whole.
-/

namespace Daybook.CommandLine

/-! ## Layers -/

/-- What a layer says about the path of the database. -/
inductive Layer where
  /-- The layer cannot be read. -/
  | broken
  | silent
  | sets (setting : Setting)
deriving DecidableEq, Repr

/-- The name of the setting in files. -/
def databaseKey : String := "database_path"

/-- What a value of a file says where a path is expected. -/
def settingOfValue : Toml.Value → Setting
  | .text s => .path s
  | _ => .unusable

/-- What the text of a file says. -/
def Layer.ofFile (text : String) : Layer :=
  match Toml.Tables.ofText? text with
  | none => .broken
  | some tables =>
    match tables.topValue? databaseKey with
    | none => .silent
    | some v => .sets (settingOfValue v)

/-- The characters with the ASCII letters among them in lower case. -/
def lowerCase (cs : List Char) : List Char :=
  cs.map Char.toLower

/-- What variables with this beginning set, in any case. -/
def variableStart : String := "wl_"

/-- The parts of the name of a setting that a variable is for, in lower case. White space around
the name of the variable does not count, and neither does white space behind its beginning. -/
def settingParts? (name : String) : Option (List (List Char)) :=
  let name := lowerCase (Text.trim name.toList)
  let start := variableStart.toList
  if ¬ start.isPrefixOf name then none
  else some (Text.pieces '.' (Text.trim (name.drop start.length)))

/-- What a variable says. A name that goes on behind a dot makes a table of the setting, and one
with an empty part is no name of a setting. -/
def Layer.ofVariable (name value : String) : Layer :=
  match settingParts? name with
  | none | some [] => .silent
  | some (key :: rest) =>
    if key ≠ databaseKey.toList ∨ rest.any List.isEmpty then .silent
    else if rest.isEmpty then .sets (Setting.ofText value)
    else .sets .unusable

/-- The path that the layers say, the last of them first; `fallback` is used where all are
silent. -/
def databasePath? (fallback : String) : List Layer → Option String
  | [] => some fallback
  | .broken :: _ => none
  | .silent :: rest => databasePath? fallback rest
  | .sets setting :: rest =>
    match setting, rest.contains .broken with
    | .path s, false => some s
    | _, _ => none

/-! ## Places -/

/-- The value of a variable. -/
def valueOf? (environment : List (String × String)) (name : String) : Option String :=
  (environment.find? fun v => v.1 = name).map Prod.snd

/-- The home directory. -/
def home? (environment : List (String × String)) : Option String :=
  (valueOf? environment "HOME").filter (· ≠ "")

/-- The directory that a variable names by an absolute path, or else one in the home
directory. -/
def homeDirectory? (environment : List (String × String)) (name inHome : String) :
    Option String :=
  match (valueOf? environment name).filter isAbsolute with
  | some directory => some directory
  | none => (home? environment).map (joinPath · inHome)

/-- Where the database is if nothing is configured. -/
def defaultDatabase (environment : List (String × String)) : String :=
  let directory := (homeDirectory? environment "XDG_DATA_HOME" ".local/share").map (joinPath · "wl")
  joinPath (directory.getD ".") "wl.db"

/-- Where the configuration in the home directory is. -/
def homeConfig? (environment : List (String × String)) : Option String :=
  (homeDirectory? environment "XDG_CONFIG_HOME" ".config").map fun directory =>
    joinPath (joinPath directory "wl") "config.toml"

end Daybook.CommandLine
