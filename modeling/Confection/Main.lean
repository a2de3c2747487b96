import Confection.CommandLine.Job

/-!
# The command line

Reads the file of a recipe and writes the lines of the job, as they are made.
-/

open Confection Confection.CommandLine

/-- What can be read at a path. -/
def readContents (path : Text) : IO (Except ReadFailure Text) := do
  try
    let bytes ← IO.FS.readBinFile (String.ofList path)
    match String.fromUTF8? bytes with
    | some s => return .ok s.toList
    | none => return .error .notText
  catch
    | .noFileOrDirectory .. => return .error .notFound
    | e => return .error (.other (toString e).toList)

/-- Writes the lines of a job one by one. -/
partial def writeLines (out : IO.FS.Stream) (job : Job) : IO Unit := do
  match job.next? with
  | none => return
  | some (line, job) =>
    out.putStrLn (String.ofList line)
    writeLines out job

/-- Runs the command line. -/
def main (arguments : List String) : IO UInt32 := do
  match Options.ofArguments? (arguments.map String.toList) with
  | none =>
    (← IO.getStderr).putStr (String.ofList usage)
    return 2
  | some o =>
    let entropy ← IO.rand 0 (UInt64.size - 1)
    match Job.start o (UInt64.ofNat entropy) (← readContents o.path) with
    | .error e =>
      (← IO.getStderr).putStr (String.ofList e)
      return 1
    | .ok job =>
      writeLines (← IO.getStdout) job
      return 0
