import RealMode.Command.Execute

namespace RealMode.Command

/-- The bytes of a file, if it can be read. -/
def readBytes? (path : String) : IO (Option (List UInt8)) := do
  try
    return some (← IO.FS.readBinFile path).toList
  catch _ =>
    return none

end RealMode.Command

open RealMode.Command

/-- Runs a command line: output goes to the standard output, the report to the standard
    error stream. -/
def main (args : List String) : IO UInt32 := do
  let bytes ← match Invocation.parse args with
    | .ok i => readBytes? i.file
    | .error _ => pure none
  let some outcome := execute (fun _ => bytes) args | return 1
  for line in outcome.output do
    IO.println line
  for line in outcome.report do
    IO.eprintln line
  return outcome.exitCode.toUInt32
