import Cool.CommandLine.Run

/-!
The compiler as a program.
-/
namespace Cool.CommandLine

/-- The files at some paths, or the first path that cannot be read. -/
def readAll : List String → IO (Except String SourceFiles)
  | [] => pure (.ok [])
  | path :: paths => do
    match ← (IO.FS.readBinFile path).toBaseIO with
    | .error _ => pure (.error path)
    | .ok text =>
      match ← readAll paths with
      | .error bad => pure (.error bad)
      | .ok files => pure (.ok (⟨path, text.toList⟩ :: files))

/-- Writes the file of a report, and tells the report that is left. -/
def writeFile (r : Report) : IO Report := do
  match r.file with
  | none => pure r
  | some (path, text) =>
    match ← (IO.FS.writeFile path text).toBaseIO with
    | .ok _ => pure r
    | .error _ => pure r.unwritten

def compileFiles (config : Config) : IO UInt32 := do
  let err ← IO.getStderr
  match ← readAll config.files with
  | .error path =>
    err.putStr ("ERROR could not load file " ++ path ++ "\n")
    pure 1
  | .ok files =>
    let report ← writeFile (run config files)
    (← IO.getStdout).putStr report.stdout
    err.putStr (report.stderr files)
    pure report.exitCode.toUInt32

end Cool.CommandLine

open Cool.CommandLine in
def main (args : List String) : IO UInt32 := do
  match parseArguments args with
  | .error e =>
    (← IO.getStderr).putStr (e.message ++ "\n")
    pure 2
  | .ok (.flag f) =>
    (← IO.getStdout).putStr (flagText f)
    pure 0
  | .ok (.compile config) => compileFiles config
