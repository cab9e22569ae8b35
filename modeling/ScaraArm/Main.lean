import ScaraArm.Command.Help
import ScaraArm.Command.Run

/-!
# The command

Reads the configuration file that the command line names, carries the task out and prints
its lines. A failure is told on standard error.
-/

open ScaraArm ScaraArm.Command

/-- The bytes of a file, if it can be read. -/
def readBytes (path : String) : IO (Option ByteArray) := do
  try
    let bytes ← IO.FS.readBinFile path
    return some bytes
  catch _ => return none

/-- Runs a command line and gives its exit code. -/
def main (args : List String) : IO UInt32 := do
  match Invocation.ofArguments args with
  | .error .usage =>
    IO.eprintln Help.usage
    return 2
  | .error (.help topic) =>
    IO.println (Help.text topic)
    return 0
  | .ok invocation =>
    let bytes ← match invocation.config with
      | some path => readBytes path
      | none => pure none
    let outcome := invocation.run fun _ => bytes
    for answer in outcome.answers do
      IO.println answer.toValue.toJson
    if let some e := outcome.error then
      IO.eprintln e.failure.report
    return outcome.exitCode
