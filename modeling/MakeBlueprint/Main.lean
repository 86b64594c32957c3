import MakeBlueprint.CommandLine

/-!
# The program

Reads the file that the arguments name, and leaves the answer on the standard streams.
-/

open MakeBlueprint MakeBlueprint.CommandLine

/-- The number of the system for a directory that is read like a file. -/
def directoryCode : UInt32 := 21

/-- Everything that is left on a stream. -/
partial def readRest (stream : IO.FS.Stream) (before : ByteArray) : IO ByteArray := do
  let part ← stream.read 65536
  if part.isEmpty then return before
  readRest stream (before ++ part)

/-- The contents of a file. -/
def readSource (file : Text) : IO (Except ReadError Text) := do
  try
    let bytes ← if isStandardInput file then do readRest (← IO.getStdin) .empty
      else IO.FS.readBinFile (String.ofList file)
    return decode bytes
  catch
    | .permissionDenied .. => return .error .permissionDenied
    | .inappropriateType _ code _ =>
      return .error (if code = directoryCode then .isADirectory else .notADirectory)
    | .invalidArgument .. => return .error .invalidName
    | _ => return .error .notFound

/-- Answers the request that the arguments make. -/
def main (arguments : List String) : IO UInt32 := do
  let request := Request.ofArguments (arguments.map String.toList)
  let source ← match request with
    | .convert file _ => readSource file
    | _ => pure (.ok [])
  let response := respond request source
  (← IO.getStdout).putStr (String.ofList response.output)
  (← IO.getStderr).putStr (String.ofList response.errors)
  return UInt32.ofNat response.status
