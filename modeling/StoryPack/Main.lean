/-
The program: reads the files that its arguments name, and writes the answer.
-/
import StoryPack.CommandLine

open StoryPack

/-- The bytes of a file, if it can be read. -/
def fileBytes? (path : String) : IO (Option ByteArray) := do
  try
    return some (← IO.FS.readBinFile path)
  catch _ =>
    return none

/-- Writes an answer and gives its exit code. -/
def giveAnswer (a : Command.Answer) : IO UInt32 := do
  IO.print a.output
  match a.report with
  | some report => IO.eprintln report
  | none => pure ()
  return UInt32.ofNat a.exit

/-- Answers the arguments. -/
def main (args : List String) : IO UInt32 := do
  match Command.ofArguments? args with
  | none =>
    IO.eprintln Command.usage
    giveAnswer Command.refusal
  | some command =>
    let found ← command.files.mapM fun path => do return (path, ← fileBytes? path)
    giveAnswer (command.run (fun path => (found.lookup path).join))
