import Listing.CommandLine

/-!
# The program

Reads the file that the arguments name, if they name one, and writes what the run comes to.
-/

namespace Listing.CommandLine

/-- The reason and the code that the system gave. -/
def readError : IO.Error → ReadError
  | .noFileOrDirectory .. => .notFound
  | .inappropriateType _ code details => .ofCode code.toNat details
  | .permissionDenied _ code details => .ofCode code.toNat details
  | .invalidArgument _ code details => .ofCode code.toNat details
  | error => ⟨toString error, 5⟩

/-- A file's contents, or why it cannot be read. -/
def readContents (file : String) : IO (Except ReadError ByteArray) := do
  try
    return .ok (← IO.FS.readBinFile file)
  catch error =>
    return .error (readError error)

end Listing.CommandLine

open Listing.CommandLine in
def main (arguments : List String) : IO UInt32 := do
  let contents ←
    match command Listing.defaultReach Listing.maxReach arguments with
    | .ok (.show_ request) => readContents request.file
    | _ => pure (.error .notFound)
  let outcome := run (fun _ => contents) arguments
  (← IO.getStdout).putStr outcome.stdout
  (← IO.getStderr).putStr outcome.stderr
  return UInt32.ofNat outcome.exit
