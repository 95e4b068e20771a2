import BluespecDocs.Command

/-!
The program: it reads files from disk and writes to the standard streams.
-/

namespace BluespecDocs

/-- The text of a file on disk. -/
def readFromDisk (path : String) : IO (Except ReadError String) := do
  try
    let bytes ← IO.FS.readBinFile path
    match String.fromUTF8? bytes with
    | some text => return .ok text
    | none => return .error .notUtf8
  catch
    | .inappropriateType _ 20 _ => return .error .notDirectory
    | .inappropriateType .. => return .error .isDirectory
    | _ => return .error .notFound

/-- Writes what an outcome says. Output that nobody takes is a failure. -/
def conclude (outcome : Outcome) : IO UInt32 := do
  try
    let out ← IO.getStdout
    out.putStr outcome.stdout
    out.flush
    IO.eprint outcome.stderr
    return UInt32.ofNat outcome.exit
  catch _ =>
    IO.eprint (Completion.failed (.write .brokenPipe)).outcome.stderr
    return 1

end BluespecDocs

def main (args : List String) : IO UInt32 := do
  BluespecDocs.conclude (← BluespecDocs.Command.run BluespecDocs.readFromDisk args).outcome
