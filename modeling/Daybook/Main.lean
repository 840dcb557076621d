import Daybook.CommandLine.Program
import Std.Time

/-!
# The command line

The program on the files, the environment and the clock of the machine.
-/

namespace Daybook.Main

open CommandLine

/-- The result of an action, unless it fails. -/
def attempt {α : Type} (action : IO α) : IO (Option α) := do
  try
    let a ← action
    return some a
  catch _ => return none

/-- The pieces of bytes between zeros. -/
def splitAtZeros (bytes : ByteArray) : List ByteArray :=
  let step := fun (b : UInt8) (pieces : List (List UInt8)) =>
    match pieces with
    | [] => [[b]]
    | piece :: rest => if b = 0 then [] :: piece :: rest else (b :: piece) :: rest
  (bytes.data.toList.foldr step [[]]).map fun piece => ⟨piece.toArray⟩

/-- The name and the value of a variable. -/
def variableOf (bytes : ByteArray) : Option (String × String) := do
  let text ← String.fromUTF8? bytes
  let (name, value) ← Text.splitAt? '=' text.toList
  some (String.ofList name, String.ofList value)

/-- The environment of the process. -/
def environment : IO (List (String × String)) := do
  let bytes ← attempt (IO.FS.readBinFile "/proc/self/environ")
  return (splitAtZeros (bytes.getD ByteArray.empty)).filterMap variableOf

/-- The date of the clock. -/
def today : IO Date := do
  let now ← Std.Time.PlainDate.now
  match Date.ofCivil? now.year now.month.toNat now.day.toNat with
  | some date => return date
  | none => throw (IO.userError "the clock shows no date")

/-- All that a stream has left. -/
def readAll (stream : IO.FS.Stream) : IO ByteArray := do
  let mut bytes := ByteArray.empty
  repeat
    let more ← stream.read 65536
    if more.size = 0 then break
    bytes := bytes ++ more
  return bytes

/-- What stands at a path. -/
def look (path : String) : IO (Option FileNode) := do
  match ← attempt (IO.FS.readBinFile path) with
  | some bytes => return some (.file bytes)
  | none =>
    let place := (← IO.currentDir) / path
    return if ← place.isDir then some .directory else none

/-- The machine. -/
def machine : Host IO :=
  { environment
    today
    directory := do
      let directory ← IO.currentDir
      return directory.toString
    input := do
      let stdin ← IO.getStdin
      readAll stdin
    look
    write := fun path bytes => do return (← attempt (IO.FS.writeBinFile path bytes)).isSome
    remove := fun path => do return (← attempt (IO.FS.removeFile path)).isSome
    makeDirectory := fun path => do return (← attempt (IO.FS.createDirAll path)).isSome }

end Daybook.Main

/-- Runs the program with the arguments of the process. -/
def main (args : List String) : IO UInt32 := do
  let exit ← Daybook.CommandLine.Program.run Daybook.Main.machine args
  IO.print exit.output
  match exit.ending with
  | .done => pure ()
  | .failed message => IO.eprintln ("Error: " ++ message)
  | .misused message => IO.eprintln ("error: " ++ message)
  return exit.code.toUInt32
