import WordPattern.CommandLine

/-!
# The program

Reads standard input and writes what the command line says.
-/

namespace WordPattern.CommandLine

/-- All bytes that a stream still holds, behind those already read. -/
partial def readAll (stream : IO.FS.Stream) (bytes : ByteArray) : IO ByteArray := do
  let more ← stream.read 65536
  if more.isEmpty then return bytes else readAll stream (bytes ++ more)

/-- Writes an outcome and gives its exit code. -/
def report (outcome : Outcome) : IO UInt32 := do
  (← IO.getStdout).putStr outcome.out
  (← IO.getStderr).putStr outcome.err
  return outcome.code.toUInt32

end WordPattern.CommandLine

/-- Standard input is read only if the flags are good. -/
def main (args : List String) : IO UInt32 := do
  match WordPattern.CommandLine.readFlags args with
  | .error _ => WordPattern.CommandLine.report (WordPattern.CommandLine.run args [])
  | .ok _ =>
    let input ← WordPattern.CommandLine.readAll (← IO.getStdin) .empty
    WordPattern.CommandLine.report (WordPattern.CommandLine.run args input.toList)
