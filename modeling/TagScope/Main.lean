import TagScope.CommandLine.Run
import TagScope.Snapshot
import TagScope.Value.Reader

/-!
The command line program. It reads a snapshot of the working directory, one line of
JSON, from standard input, prints the report and writes back the files that were
fixed.
-/

set_option autoImplicit false

namespace TagScope

/-- Writes the files whose contents differ from those of the snapshot. -/
def writeChanges (snapshot : Snapshot) (disk : Disk) : IO Unit := do
  for (path, content) in snapshot.files do
    match disk.read (Path.ofText path) with
    | .ok written =>
      if written != content then IO.FS.writeBinFile path (ByteArray.mk written.toArray)
    | .error _ => pure ()

/-- Reports how a run ended, and gives the exit code. -/
def conclude : CommandLine.Ending → IO UInt32
  | .finished problems => pure (if problems = 0 then 0 else 1)
  | .served _ _ => pure 0
  | .refused .help => do
    IO.println ("usage: " ++ CommandLine.programName ++ " [options] [paths ...]")
    pure 0
  | .refused (.usage error) => do
    IO.eprintln error.report
    pure 2
  | .noSuchPath path => do
    IO.eprintln ("Path does not exist: " ++ path)
    pure 1
  | .namelessGlobal => do
    IO.eprintln CommandLine.namelessGlobalMessage
    pure 1
  | .uncollected error => do
    IO.eprintln error.message
    pure 1
  | .badImport fault => do
    IO.eprintln fault.message
    pure 1

/-- The program with given words. -/
def program (words : List String) : IO UInt32 := do
  let line ← (← IO.getStdin).getLine
  match (Value.ofJson line).toOption.bind Snapshot.ofValue? with
  | none =>
    IO.eprintln (CommandLine.programName ++ ": no snapshot on standard input")
    pure 2
  | some snapshot =>
    let cwd := (Path.ofText (toString (← IO.currentDir))).parts
    let outcome := CommandLine.run snapshot.parser (snapshot.disk cwd) words
    outcome.printed.forM fun line ↦ IO.println line
    writeChanges snapshot outcome.disk
    conclude outcome.ending

end TagScope

def main (words : List String) : IO UInt32 :=
  TagScope.program words
