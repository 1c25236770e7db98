import TypedLisp.CommandLine

/-!
# The program

Reads the file that the arguments name and prints what the command line answers.
-/

open TypedLisp

/-- The bytes of a file; none if it cannot be read. -/
def readBytes (file : String) : IO (Option ByteArray) :=
  try
    return some (← IO.FS.readBinFile file)
  catch _ =>
    return none

def main (args : List String) : IO UInt32 := do
  let response ← match CommandLine.parse args with
    | none => pure CommandLine.usage
    | some options => do
      let content ← readBytes options.file
      pure (CommandLine.respond options content)
  IO.print response.output
  if let some complaint := response.complaint then
    IO.eprintln complaint
  return response.status.toUInt32
