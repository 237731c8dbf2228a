import MuCompletion.CommandLine.Command

/-!
# The program

Reads the files that the arguments name, runs the command, and prints what it answers.
-/

namespace MuCompletion.CommandLine

/-- What a file name leads to on this machine. -/
def readState (file : String) : IO FileState := do
  try
    pure (.bytes (← IO.FS.readBinFile file))
  catch
    | .noFileOrDirectory .. => pure .missing
    | .inappropriateType (some _) .. => pure .notDirectory
    | .invalidArgument .. => pure .nameTooLong
    | _ => pure .directory

/-- Run the program on its arguments, print what it answers, and give its exit code. -/
def execute (arguments : List String) : IO UInt32 := do
  let files := match Invocation.ofArguments arguments with
    | .ok invocation => invocation.files
    | .error _ => []
  let states ← files.mapM fun file => do pure (file, ← readState file)
  let outcome := run (fun file => (states.lookup file).getD .missing) arguments
  IO.print outcome.output
  if let some error := outcome.error then
    IO.eprintln error.message
  pure (UInt32.ofNat outcome.code)

end MuCompletion.CommandLine

/-- Run the program on its arguments. -/
def main (arguments : List String) : IO UInt32 :=
  MuCompletion.CommandLine.execute arguments
