/-!
# Options of the command line

The commands, the options that each of them takes, and how an argument spells an option: a long
name after two hyphens, or letters after one.
-/

namespace Daybook.CommandLine

/-! ## Commands and their items -/

/-- Where an argument stands: before any command, or behind one. -/
inductive Scope where
  | program
  | check
  | intake
  | status
deriving DecidableEq, Repr

/-- Something that an argument can give. -/
inductive Item where
  | verbose
  | config
  | help
  | version
  | date
  | json
  | dryRun
  | overwrite
  /-- The file to read; it has no name. -/
  | file
deriving DecidableEq, Repr

/-- The command with a name. -/
def Scope.ofCommand? (name : String) : Option Scope :=
  if name = "check" then some .check
  else if name = "import" then some .intake
  else if name = "status" then some .status
  else none

/-- The word that asks for help where a command may stand. -/
def helpCommand : String := "help"

/-- What may be given in a place. -/
def Scope.items : Scope → List Item
  | .program => [.verbose, .config, .help, .version]
  | .check => [.verbose, .config, .help, .date, .json, .file]
  | .intake => [.verbose, .config, .help, .date, .dryRun, .overwrite, .file]
  | .status => [.verbose, .config, .help]

namespace Item

/-- The name after two hyphens. -/
def longName? : Item → Option String
  | .verbose => some "verbose"
  | .config => some "config"
  | .help => some "help"
  | .version => some "version"
  | .date => some "date"
  | .json => some "json"
  | .dryRun => some "dry-run"
  | .overwrite => some "overwrite"
  | .file => none

/-- The letter after one hyphen. -/
def letter? : Item → Option Char
  | .verbose => some 'v'
  | .config => some 'c'
  | .help => some 'h'
  | .version => some 'V'
  | _ => none

/-- The item has a value. -/
def hasValue : Item → Bool
  | .config | .date | .file => true
  | _ => false

end Item

/-- The option with a long name. -/
def Scope.ofLongName? (scope : Scope) (name : String) : Option Item :=
  scope.items.find? fun item => item.longName? = some name

/-- The option with a letter. -/
def Scope.ofLetter? (scope : Scope) (letter : Char) : Option Item :=
  scope.items.find? fun item => item.letter? = some letter

/-! ## Spelling -/

/-- What an argument looks like. -/
inductive Spelling where
  /-- Two hyphens alone: no option follows. -/
  | separator
  /-- A long name, possibly with a value behind an equals sign. -/
  | long (name : String) (value : Option String)
  /-- Letters behind one hyphen. -/
  | letters (cs : List Char)
  /-- Anything else; a lone hyphen too. -/
  | plain
deriving DecidableEq, Repr

/-- The text before the first equals sign and, if there is one, the text after it. -/
def splitValue : List Char → List Char × Option (List Char)
  | [] => ([], none)
  | '=' :: cs => ([], some cs)
  | c :: cs => (c :: (splitValue cs).1, (splitValue cs).2)

/-- What an argument looks like. -/
def Spelling.ofText (text : String) : Spelling :=
  match text.toList with
  | ['-', '-'] => .separator
  | '-' :: '-' :: cs =>
    let (name, value) := splitValue cs
    .long (String.ofList name) (value.map String.ofList)
  | ['-'] => .plain
  | '-' :: cs => .letters cs
  | _ => .plain

end Daybook.CommandLine
