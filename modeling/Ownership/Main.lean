import Ownership.Command.Run

/-!
# The command line

Reads the arguments, the two environment variables and the file, and hands them to the run. The exit
code is 0 if nothing was found, 1 if something was, 2 if there was nothing to check.
-/

open Ownership Ownership.Command

/-- The environment variables that are looked at. -/
def readEnvironment : IO (List (String × String)) :=
  [Settings.visitsVariable, Settings.jobsVariable].filterMapM fun name => do
    return (← IO.getEnv name).map (name, ·)

/-- No names of code points are at hand here: a literal that uses one is malformed. -/
def codeNames : Source.CodeNames := fun _ => none

/-- What reading a file gives. -/
def readFile (path : String) : IO (Except ReadError ByteArray) := do
  try
    return .ok (← IO.FS.readBinFile path)
  catch
    | .noFileOrDirectory .. => return .error .missing
    | .inappropriateType _ 20 _ => return .error .notAFolder
    | .inappropriateType _ 21 _ => return .error .isFolder
    | e => return .error (.refused (toString e))

def usage : String :=
  "usage: borrowck [-h] [--json] [--function NAME] [--max-iterations MAX_ITERATIONS] [--jobs JOBS]\n" ++
  "                [--no-dead-code-lint] [--dump-cfg] [-v]\n" ++
  "                source"

def main (words : List String) : IO UInt32 := do
  match Arguments.ofWords words with
  | .error .help =>
    IO.println usage
    return 0
  | .error (.refused r) =>
    IO.eprintln usage
    IO.eprintln r.line
    return 2
  | .ok a =>
    match a.run codeNames (← readEnvironment) (← readFile a.file) with
    | .error e =>
      IO.eprintln e.message
      return 1
    | .ok o =>
      IO.eprint o.stderr
      IO.print o.stdout
      return o.exit.toUInt32
