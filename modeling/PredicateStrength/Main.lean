import PredicateStrength.CommandLine.Run

/-!
The command line program: reads the files that the arguments name, prints, and exits. Log records
and errors go to the error output.
-/
namespace PredicateStrength.CommandLine

/-- The cause that is reported for a file that does not exist. -/
def missingFile : String := "No such file or directory (os error 2)"

/-- The contents of a file, or why it cannot be read. -/
def loadFile (path : String) : IO (String × Except String String) := do
  try
    return (path, .ok (← IO.FS.readFile path))
  catch e =>
    return (path, .error (match e with
      | .noFileOrDirectory .. => missingFile
      | e => toString e))

end PredicateStrength.CommandLine

open PredicateStrength.CommandLine in
def main (args : List String) : IO UInt32 := do
  let loaded ← (filesToRead args).mapM loadFile
  let files : Files := fun path => (loaded.lookup path).getD (.error missingFile)
  let outcome := run files args
  IO.print outcome.output
  outcome.records.forM fun r => IO.eprintln r.text
  outcome.report.forM fun r => IO.eprintln r.text
  return UInt32.ofNat outcome.code
