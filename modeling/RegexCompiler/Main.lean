import RegexCompiler.CommandLine

namespace RegexCompiler

/-- Reads until a line feed has come in or the input ends. -/
partial def readLine (stream : IO.FS.Stream) (read : ByteArray) : IO ByteArray := do
  let chunk ← stream.read 4096
  if chunk.isEmpty then return read
  else if chunk.toList.contains 10 then return read ++ chunk
  else readLine stream (read ++ chunk)

end RegexCompiler

def main (arguments : List String) : IO UInt32 := do
  let output ← IO.getStdout
  let outcome ←
    match RegexCompiler.CommandLine.respond arguments with
    | .done outcome => pure outcome
    | .ask question answer => do
      output.putStr question
      output.flush
      let input ← RegexCompiler.readLine (← IO.getStdin) .empty
      pure (answer input.toList)
  output.putStr outcome.output
  output.flush
  (← IO.getStderr).putStr outcome.errors
  return outcome.exitCode
