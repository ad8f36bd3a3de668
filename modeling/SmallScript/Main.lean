import SmallScript.CommandLine

/-! # The program

Reads what a request needs, answers it and writes the answer.
-/

namespace SmallScript

partial def readAll (stream : IO.FS.Stream) (read : ByteArray) : IO ByteArray := do
  let chunk ← stream.read 65536
  if chunk.isEmpty then return read else readAll stream (read ++ chunk)

def readFile? (name : String) : IO (Option ByteArray) := do
  try
    return some (← IO.FS.readBinFile name)
  catch _ => return none

def answer (request : CommandLine.Request) : IO CommandLine.Report := do
  let data ← match request.file? with
    | some name => readFile? name
    | none => pure none
  let mayRead := match request with
    | .execute options contents =>
      (CommandLine.source? (fun _ => data) options contents).any CommandLine.mayReadInput
    | _ => false
  let typed ← if mayRead then readAll (← IO.getStdin) .empty else pure .empty
  return request.respond Script.ampleBudget (fun _ => data) typed.data.toList

end SmallScript

open SmallScript in
def main (arguments : List String) : IO UInt32 := do
  let report ← match CommandLine.Request.ofArguments arguments with
    | some request => answer request
    | none => pure .refused
  let out ← IO.getStdout
  out.write report.output
  out.flush
  (← IO.getStderr).putStr report.errors
  return report.exitCode.toUInt32
