import LambdaCalculus.Command.Session

/-!
# The command line

Runs the command at the system's own console.
-/

open LambdaCalculus.Command

/-- Why the system does not read a file. -/
def unreadable : IO.Error → Unreadable
  | .noFileOrDirectory .. => .missing
  | .inappropriateType _ _ details => .other details
  | .invalidArgument _ _ details => .other details
  | .permissionDenied _ _ details => .other details
  | error => .other error.toString

/-- The bytes read so far and all that follow in the stream. -/
partial def readAll (stream : IO.FS.Stream) (sofar : ByteArray) : IO ByteArray := do
  let bytes ← stream.read 65536
  if bytes.isEmpty then return sofar else readAll stream (sofar ++ bytes)

instance : Console IO where
  say s := do
    let out ← IO.getStdout
    out.putStr s
  complain s := IO.eprint s
  input := do
    let stdin ← IO.getStdin
    readAll stdin ByteArray.empty
  fileBytes name := do
    try
      let bytes ← IO.FS.readBinFile name
      return .ok bytes
    catch error => return .error (unreadable error)

/-- The command line of the evaluator. -/
def main (arguments : List String) : IO UInt32 := do
  let colour ← (← IO.getStdout).isTty
  match ← (command colour arguments : Work IO Exit).run with
  | .ok (.status code) => return UInt32.ofNat code
  | .ok (.failure message) =>
    IO.eprintln message
    return 1
  | .error fault =>
    IO.eprintln (String.ofList (fault.message?.getD "too deep".toList))
    return 1
