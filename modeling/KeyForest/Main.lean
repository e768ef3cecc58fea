import KeyForest.Program

/-!
# The executable

Collects what is around the program, runs it, and writes what it answers.
-/
open KeyForest

/-- What is found at a path of the file system. -/
def readFileContent (path : String) : IO FileContent := do
  try
    return .ofBytes (← IO.FS.readBinFile path).toList
  catch error =>
    match error with
    | .noFileOrDirectory .. => return .missing
    | .inappropriateType _ code _ => return if code = 21 then .directory else .missing
    | _ => return .unreadable (toString error)

def main (arguments : List String) : IO UInt32 := do
  let values ← Surroundings.environmentNames.mapM fun name => return (name, ← IO.getEnv name)
  let output ← IO.getStdout
  let isTerminal ← output.isTty
  let environment (name : String) : Option String := (values.lookup name).bind id
  let without : Surroundings := ⟨environment, fun _ => .missing, isTerminal⟩
  let paths := match CommandLine.parse arguments with
    | .ok invocation => Program.paths without invocation
    | .error _ => []
  let files ← paths.mapM fun path => return (path, ← readFileContent path)
  let around := { without with file := fun path => (files.lookup path).getD .missing }
  let (outcome, events) := Program.run around arguments
  for event in events do IO.eprintln event.line
  IO.eprint (outcome.complaint around.terminal)
  IO.print outcome.output
  return outcome.exitCode
