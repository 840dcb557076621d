import Daybook.Calendar.Text
import Daybook.CommandLine.Option
import Daybook.Import.Outcome

/-!
# Arguments

The arguments of the program, read from the first to the last. What an option gives is recorded
when the next one begins, so of two faults the first one is usually reported; an argument that
is not known is reported even before an option that waits for its value.

* `Arguments.ofList` reads the arguments.
-/

namespace Daybook.CommandLine

/-! ## Results -/

/-- What the program is told to do. -/
inductive Command where
  | check (file : Option String) (date : Option Date) (json : Bool)
  | intake (file : Option String) (date : Option Date) (options : Import.Options)
  | status
deriving DecidableEq, Repr

/-- What the arguments say. -/
structure Arguments where
  verbose : Bool
  config : Option String
  command : Option Command
deriving DecidableEq, Repr

/-- Why the arguments are not carried out. -/
inductive Halt where
  /-- Help is asked for. -/
  | help
  /-- The version is asked for. -/
  | version
  /-- A word stands in the place of a command. -/
  | unknownCommand
  | unknownArgument
  /-- A value is not of its kind. -/
  | badValue
  /-- A value is missing or empty. -/
  | missingValue
  /-- Something is given twice. -/
  | repeated
  /-- A value is given where none belongs. -/
  | unexpectedValue
deriving DecidableEq, Repr

/-! ## What has been given -/

/-- The values given so far in one place. -/
structure Given where
  verbose : Bool := false
  config : Option String := none
  date : Option Date := none
  json : Bool := false
  dryRun : Bool := false
  overwrite : Bool := false
  file : Option String := none
deriving DecidableEq, Repr

namespace Given

/-- The item has been given. -/
def has (g : Given) : Item → Bool
  | .verbose => g.verbose
  | .config => g.config.isSome
  | .date => g.date.isSome
  | .json => g.json
  | .dryRun => g.dryRun
  | .overwrite => g.overwrite
  | .file => g.file.isSome
  | .help | .version => false

/-- Records an item without a value. -/
def switch (g : Given) (item : Item) : Except Halt Given :=
  match item with
  | .help => .error .help
  | .version => .error .version
  | .verbose => .ok { g with verbose := true }
  | .json => .ok { g with json := true }
  | .dryRun => .ok { g with dryRun := true }
  | .overwrite => .ok { g with overwrite := true }
  | .config | .date | .file => .error .missingValue

/-- Records an item with a value. -/
def put (g : Given) (item : Item) (value : String) : Except Halt Given :=
  match item with
  | .config => if value = "" then .error .missingValue else .ok { g with config := some value }
  | .file => if value = "" then .error .missingValue else .ok { g with file := some value }
  | .date =>
    match Date.ofArgument? value.toList with
    | some date => .ok { g with date := some date }
    | none => .error .badValue
  | _ => .error .unexpectedValue

/-- Records an item. A value that is missing is noticed first, then a repeat, then a value that
is not of its kind. -/
def record (g : Given) (item : Item) (value : Option String) : Except Halt Given :=
  if item.hasValue && value.isNone then .error .missingValue
  else if g.has item then .error .repeated
  else match value with
    | some value => g.put item value
    | none => g.switch item

end Given

/-- What has been read in one place. -/
structure Progress where
  given : Given := {}
  /-- An item that is not recorded yet, and its value once it has one. -/
  pending : Option (Item × Option String) := none
  /-- A file was given. -/
  hasFile : Bool := false
deriving DecidableEq, Repr

namespace Progress

/-- The item whose value the next argument may be. -/
def waiting (p : Progress) : Option Item :=
  match p.pending with
  | some (item, none) => some item
  | _ => none

/-- Records what is pending. -/
def settle (p : Progress) : Except Halt Progress :=
  match p.pending with
  | none => .ok p
  | some (item, value) => do
    let given ← p.given.record item value
    .ok { p with given, pending := none }

/-- Records what is pending, and then an item. -/
def record (p : Progress) (item : Item) (value : Option String) : Except Halt Progress := do
  let p ← p.settle
  let given ← p.given.record item value
  .ok { p with given }

/-- Records what is pending, and leaves an item pending. -/
def hold (p : Progress) (item : Item) (value : Option String) : Except Halt Progress := do
  let p ← p.settle
  .ok { p with pending := some (item, value) }

/-- Reads a long option. -/
def long (p : Progress) (scope : Scope) (name : String) (value : Option String) :
    Except Halt Progress :=
  match scope.ofLongName? name with
  | none => .error .unknownArgument
  | some item =>
    match item.hasValue, value with
    | true, some value => p.record item value
    | true, none => p.hold item none
    | false, none => p.record item none
    | false, some _ => .error .unexpectedValue

/-- Reads letters. The rest behind the letter of an option with a value is the value, with or
without an equals sign. -/
def letters (p : Progress) (scope : Scope) : List Char → Except Halt Progress
  | [] => .ok p
  | c :: cs =>
    match scope.ofLetter? c with
    | none => .error .unknownArgument
    | some item =>
      if item.hasValue then
        match cs with
        | [] => p.hold item none
        | '=' :: value => p.record item (some (String.ofList value))
        | value => p.record item (some (String.ofList value))
      else do
        let p ← p.record item none
        p.letters scope cs

/-- Reads an argument that is no option: the file, where one is missing. -/
def positional (p : Progress) (scope : Scope) (text : String) (halt : Halt) :
    Except Halt Progress :=
  if .file ∈ scope.items ∧ !p.hasFile then do
    let p ← p.hold .file (some text)
    .ok { p with hasFile := true }
  else .error halt

end Progress

/-! ## Reading in one place -/

/-- Why an argument stands where it cannot. -/
def misplaced (scope : Scope) (separated : Bool) (text : String) : Halt :=
  let isCommand := text = helpCommand ∨ (Scope.ofCommand? text).isSome
  if scope = .program ∧ ¬ (separated ∧ isCommand) then .unknownCommand else .unknownArgument

/-- Help on the commands with the given names; there is none on anything below a command. -/
def helpOn : List String → Halt
  | [] => .help
  | [name] =>
    if name = helpCommand ∨ (Scope.ofCommand? name).isSome then .help else .unknownCommand
  | _ => .unknownCommand

/-- The command that a word names in a place, unless it is the value of an option. -/
def commandHere (scope : Scope) (p : Progress) (text : String) : Option Scope :=
  if scope = .program ∧ p.waiting.isNone then Scope.ofCommand? text else none

/-- Reads the arguments behind two hyphens alone: none of them is an option. -/
def readPlain (scope : Scope) (p : Progress) : List String → Except Halt Progress
  | [] => .ok p
  | text :: rest => do
    let p ← p.positional scope text (misplaced scope true text)
    readPlain scope p rest

/-- Reads arguments in one place, up to a command if there is one. -/
def read (scope : Scope) (p : Progress) :
    List String → Except Halt (Progress × Option (Scope × List String))
  | [] => .ok (p, none)
  | text :: rest =>
    match commandHere scope p text with
    | some command => .ok (p, some (command, rest))
    | none =>
      if scope = .program ∧ p.waiting.isNone ∧ text = helpCommand then .error (helpOn rest)
      else match Spelling.ofText text with
        | .separator => do
          let p ← readPlain scope p rest
          .ok (p, none)
        | .long name value => do
          let p ← p.long scope name value
          read scope p rest
        | .letters cs => do
          let p ← p.letters scope cs
          read scope p rest
        | .plain =>
          match p.waiting with
          | some item => read scope { p with pending := some (item, some text) } rest
          | none => do
            let p ← p.positional scope text (misplaced scope false text)
            read scope p rest

/-! ## All arguments -/

/-- The command with the values given behind it. -/
def commandOf (g : Given) : Scope → Option Command
  | .program => none
  | .check => some (.check g.file g.date g.json)
  | .intake =>
    some (.intake g.file g.date { dryRun := g.dryRun, overwrite := g.overwrite })
  | .status => some .status

/-- Reads the arguments of the program. Behind a command a configuration file takes the place of
one given before it. -/
def Arguments.ofList (args : List String) : Except Halt Arguments := do
  let (outer, command) ← read .program {} args
  let (scope, inner) ← match command with
    | none => .ok (Scope.program, ({} : Given))
    | some (scope, rest) => do
      let (inner, _) ← read scope {} rest
      let inner ← inner.settle
      .ok (scope, inner.given)
  -- faults behind the command come first, although they stand later
  let outer ← outer.settle
  .ok
    { verbose := outer.given.verbose || inner.verbose
      config := inner.config <|> outer.given.config
      command := commandOf inner scope }

end Daybook.CommandLine
