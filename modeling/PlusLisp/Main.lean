import PlusLisp.CommandLine.Run

/-!
The command itself: it reads the file that its words name and shows the report on the run, or the
wording of its breakdown.
-/

namespace PlusLisp.CommandLine

/-- Why a file could not be read. -/
def failureOf : IO.Error → SourceFile.Failure
  | .inappropriateType .. => .folder
  | .invalidArgument .. => .nameTooLong
  | _ => .missing

/-- The program text of the file at a path. -/
def readSource (path : String) : IO (Except SourceFile.Failure String) := do
  match ← (IO.FS.readBinFile path).toBaseIO with
  | .ok bytes => return SourceFile.text bytes.toList
  | .error e => return .error (failureOf e)

/-- Carry out a command, and give its exit code. -/
def execute (words : List String) : IO UInt32 := do
  let source ←
    match parse words with
    | .ok (.run { file := some path, .. }) => readSource path
    | _ => pure (.error .missing)
  match run .empty words fun _ => source with
  | .ok report =>
    IO.print report.stdout
    IO.eprint report.stderr
    return report.code.toUInt32
  | .error breakdown =>
    IO.eprintln breakdown.message
    return 1

end PlusLisp.CommandLine

/-- Run the command. -/
def main (words : List String) : IO UInt32 := PlusLisp.CommandLine.execute words
