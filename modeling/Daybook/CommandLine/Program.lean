import Daybook.CommandLine.Arguments
import Daybook.CommandLine.Config
import Daybook.CommandLine.Keeping
import Daybook.Import
import Daybook.Report.Check
import Daybook.Report.Status

/-!
# The program

A run reads its arguments, carries out the command, and ends with what it printed and how it
went.

* `Program.run` is the whole run, on any host.
-/

namespace Daybook.CommandLine.Program

/-! ## How a run ends -/

/-- How a run went. -/
inductive Ending where
  | done
  /-- The command failed. -/
  | failed (message : String)
  /-- The arguments are not understood. -/
  | misused (message : String)
deriving DecidableEq, Repr

/-- What a run printed and how it went. -/
structure Exit where
  output : String := ""
  ending : Ending := .done
deriving DecidableEq, Repr

namespace Exit

/-- The number that a run ends with. -/
def code (e : Exit) : Nat :=
  match e.ending with
  | .done => 0
  | .failed _ => 1
  | .misused _ => 2

/-- A run that fails before anything is printed. -/
def failure (message : String) : Exit :=
  { ending := .failed message }

end Exit

/-! ## Help -/

/-- The name and the version of the program. -/
def versionText : String := "wl 0.1.0\n"

/-- How the program is used. -/
def helpText : String :=
  "Keeps a store of work sessions written down in plain-text logs\n\n" ++
    "Usage: wl [OPTIONS] [COMMAND]\n\n" ++
    "Commands:\n" ++
    "  check   Report what is wrong with a log: [FILE] [--date DATE] [--json]\n" ++
    "  import  Store a log: [FILE] [--date DATE] [--dry-run] [--overwrite]\n" ++
    "  status  Show how many sessions are in each state\n" ++
    "  help    Print this text\n\n" ++
    "Options:\n" ++
    "  -v, --verbose        Say more\n" ++
    "  -c, --config FILE    Read a configuration file\n" ++
    "  -h, --help           Print this text\n" ++
    "  -V, --version        Print the version\n"

/-- The sentence that says why arguments are not understood. -/
def haltText : Halt → String
  | .help | .version => ""
  | .unknownCommand => "unrecognized command"
  | .unknownArgument => "unexpected argument"
  | .badValue => "a value is not of its kind"
  | .missingValue => "a value is missing"
  | .repeated => "an option is given more than once"
  | .unexpectedValue => "an option that has no value is given one"

/-- The end of a run whose arguments give nothing to carry out. -/
def exitOfHalt : Halt → Exit
  | .help => { output := helpText }
  | .version => { output := versionText }
  | halt => { ending := .misused (haltText halt) }

/-! ## Input -/

/-- The text of bytes, if they are one. -/
def textOf (bytes : Option ByteArray) : Option String :=
  bytes.bind fun bytes => String.fromUTF8? bytes

section

variable {m : Type → Type} [Monad m]

/-- The log that a file argument names; a hyphen and no argument stand for the standard
input. -/
def readLog (host : Host m) (file : Option String) : m (Except String String) := do
  match file.filter (· ≠ "-") with
  | some path =>
    let bytes ← host.read path
    return (textOf bytes).elim (.error ("failed to read " ++ path)) .ok
  | none =>
    let bytes ← host.input
    return (textOf (some bytes)).elim (.error "failed to read log from stdin") .ok

/-- The date that lines without one start with. -/
def baseDate (host : Host m) (date : Option Date) : m Date :=
  match date with
  | some date => pure date
  | none => host.today

/-! ## Configuration -/

/-- The first of some paths where there is a file. -/
def firstFile (host : Host m) : List String → m (Option String)
  | [] => pure none
  | path :: rest => do
    if ← host.isFile path then return some path
    firstFile host rest

/-- The configuration file that a path means: a relative path is also looked up in the
directories above. -/
def findConfig (host : Host m) (path : String) : m (Option String) := do
  if isAbsolute path then firstFile host [path]
  else
    let directory ← host.directory
    firstFile host ((ancestors directory).map (joinPath · path))

/-- What a configuration file says, if there is one. -/
def fileLayer (host : Host m) (path : Option String) : m Layer := do
  match path with
  | none => return .silent
  | some path =>
    match ← findConfig host path with
    | none => return .silent
    | some found =>
      let bytes ← host.read found
      return (textOf bytes).elim .broken Layer.ofFile

/-- The path of the database. -/
def databasePath (host : Host m) (config : Option String) : m (Option String) := do
  let environment ← host.environment
  let inHome ← fileLayer host (homeConfig? environment)
  let chosen ← fileLayer host config
  let fromVariables := environment.map fun (name, value) => Layer.ofVariable name value
  return databasePath? (defaultDatabase environment)
    (fromVariables.reverse ++ [chosen, inHome])

/-! ## The store -/

/-- A store that is open: the text that names it, its place, and what is in it. -/
structure OpenStore where
  name : String
  location : Location
  store : Store
deriving DecidableEq, Repr

/-- Makes the directory that a path lies in; tells whether it is there afterwards. -/
def makeParent (host : Host m) (path : String) : m Bool :=
  match parentPath? path with
  | none | some "" => pure true
  | some parent =>
    if parent.toList.contains (Char.ofNat 0) then pure false else host.makeDirectory parent

/-- The configured store. -/
def openDatabase (host : Host m) (config : Option String) : m (Except String OpenStore) := do
  match ← databasePath host config with
  | none => return .error "failed to load configuration"
  | some name =>
    if !(← makeParent host name) then return .error "failed to create database directory"
    let failure := "failed to open " ++ name
    match Location.ofText? (← host.directory) name with
    | none => return .error failure
    | some location =>
      match ← openStore host location with
      | none => return .error failure
      | some store => return .ok { name, location, store }

/-! ## Commands -/

/-- Checks a log. -/
def runCheck (host : Host m) (file : Option String) (date : Option Date) (json : Bool) :
    m Exit := do
  match ← readLog host file with
  | .error message => return .failure message
  | .ok text =>
    let date ← baseDate host date
    let report := CheckReport.ofText date text
    let count := report.problems.length
    pure
      { output := report.output json
        ending :=
          if count = 0 then .done
          else .failed ("found " ++ Text.ofNat count ++ " problem(s)") }

/-- How a run ends that carried out an import. -/
def exitOfOutcome (outcome : Import.Outcome) : Exit :=
  { output := outcome.text
    ending := match outcome.result with
      | .ok _ => .done
      | .error refusal => .failed refusal.message }

/-- Imports a log. The store is kept only if it has changed. -/
def runImport (host : Host m) (config file : Option String) (date : Option Date)
    (options : Import.Options) : m Exit := do
  match ← readLog host file with
  | .error message => return .failure message
  | .ok text =>
    match ← openDatabase host config with
    | .error message => return .failure message
    | .ok db =>
      let outcome := Import.run db.store options (← baseDate host date) text
      if outcome.store = db.store then return exitOfOutcome outcome
      else
        let kept ← keepStore host db.location outcome.store
        return exitOfOutcome (if kept then outcome else outcome.unkept db.store)

/-- Reports on the store. -/
def runStatus (host : Host m) (config : Option String) : m Exit := do
  match ← openDatabase host config with
  | .error message => return .failure message
  | .ok db =>
    let report := StatusReport.ofStore db.name db.store
    return {
      output := report.output
      ending := report.error.elim .done fun error => .failed error.message }

/-- Runs the program. -/
def run (host : Host m) (args : List String) : m Exit :=
  match Arguments.ofList args with
  | .error halt => pure (exitOfHalt halt)
  | .ok arguments =>
    match arguments.command with
    | none => pure { output := helpText ++ "\n" }
    | some (.check file date json) => runCheck host file date json
    | some (.intake file date options) =>
      runImport host arguments.config file date options
    | some .status => runStatus host arguments.config

end

end Daybook.CommandLine.Program
