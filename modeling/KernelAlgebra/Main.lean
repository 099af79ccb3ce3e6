import KernelAlgebra.CommandLine.Session

/-!
# The program

The program reads the files that its command line asks for, and writes what comes of it.
-/

open KernelAlgebra

def readFile? (path : String) : IO (Option (String × String)) := do
  try
    return some (path, ← IO.FS.readFile path)
  catch _ =>
    return none

def readAll (paths : List String) : IO Files := do
  return Files.ofList ((← paths.mapM readFile?).filterMap id)

/-- Reads the input first, and then the files that it names. -/
def main (words : List String) : IO UInt32 := do
  let first ← readAll (CommandLine.reads Files.none words)
  let files ← readAll (CommandLine.reads first words)
  let o := CommandLine.execute files words
  IO.print o.out
  IO.eprint o.log
  match o.failure with
  | none => return 0
  | some f =>
      IO.eprintln s!"{CommandLine.programName}: {f.message}"
      return 1
