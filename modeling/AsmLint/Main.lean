import AsmLint.Command.Run

/-! The command line: reads the files that the arguments name and prints what the command gives. -/

namespace AsmLint

def readText (file : String) : IO (Option String) := do
  try
    return String.fromUTF8? (← IO.FS.readBinFile file)
  catch _ =>
    return none

def readAll (files : List String) : IO (List (String × Option String)) :=
  files.mapM fun file => return (file, ← readText file)

end AsmLint

open AsmLint

def main (arguments : List String) : IO UInt32 := do
  let terminal ← (← IO.getStdout).isTty
  let names := match Invocation.read terminal arguments with
    | .ok invocation => invocation.request.files
    | .error _ => []
  let texts ← readAll names
  let outcome := runCommand terminal arguments fun file => (texts.lookup file).join
  IO.print outcome.output
  outcome.notes.forM IO.eprintln
  return outcome.status.toUInt32
