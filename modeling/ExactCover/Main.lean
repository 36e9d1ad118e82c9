/-
ExactCover.Main — the program: solves sudokus by deductions or by search.

It reads the text that the command line asks for, leaves all else to
`CommandLine.run`, and prints what that gives.
-/
import ExactCover.CommandLine.Run

namespace ExactCover.CommandLine

/-- The reason why the system could not read. -/
def readErrorOf : IO.Error → ReadError
  | .noFileOrDirectory _ _ _ => .notFound
  | .inappropriateType _ code _ => if code == 20 then .notDirectory else .isDirectory
  | e => .system (toString e)

/-- The bytes of a source. -/
def readSource : Source → IO ByteArray
  | .file path => IO.FS.readBinFile path
  | .standardInput => do (← IO.getStdin).readBinToEnd

/-- The text of a source, or why it cannot be read. -/
def readText (source : Source) : IO (Except ReadError String) := do
  match ← (readSource source).toBaseIO with
  | .error e => pure (.error (readErrorOf e))
  | .ok bytes =>
    match String.fromUTF8? bytes with
    | some text => pure (.ok text)
    | none => pure (.error .notText)

/-- Runs a command line and gives its exit code. -/
def perform (words : List String) : IO UInt32 := do
  let source? := match Arguments.parse words with
    | .ok a => a.source?
    | .error _ => none
  let text ← match source? with
    | some source => readText source
    | none => pure (.ok "")
  let output := run words fun _ => text
  (← IO.getStdout).putStr output.stdout
  (← IO.getStderr).putStr output.stderr
  return output.code.toUInt32

end ExactCover.CommandLine

def main (words : List String) : IO UInt32 := ExactCover.CommandLine.perform words
