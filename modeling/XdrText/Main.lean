import XdrText.Check

/-!
# XdrText — the command

Reads the files that the arguments name, or else standard input, and prints the report on them.
Dates are told in UTC.
-/

namespace XdrText.Check

/-- The error number of the system; the ones of a failed opening come negated. -/
def errorNumber (code : UInt32) : Nat :=
  if code < 0x80000000 then code.toNat else (0 - code).toNat

/-- The reason why a file cannot be read. -/
def FileFault.ofError : IO.Error → FileFault
  | .noFileOrDirectory .. => .missing
  | .permissionDenied .. => .denied
  | .inappropriateType _ code _ => if errorNumber code = 21 then .isDirectory else .notDirectory
  | .invalidArgument _ code details =>
    match errorNumber code with
    | 36 => .nameTooLong
    | 40 => .linkLoop
    | _ => .other details
  | e => .other (toString e)

def readFile (path : String) : IO (String × Except FileFault Bytes) := do
  try
    return (path, .ok (← IO.FS.readBinFile path).toList)
  catch e => return (path, .error (.ofError e))

/-- Everything that standard input still holds. -/
partial def readAll (input : IO.FS.Stream) (read : ByteArray) : IO ByteArray := do
  let more ← input.read 65536
  if more.isEmpty then return read else readAll input (read ++ more)

end XdrText.Check

open XdrText in
def main (args : List String) : IO UInt32 := do
  let (paths, fromInput) :=
    match Check.Options.parse args with
    | .ok o => (o.files, o.files.isEmpty)
    | .error _ => ([], false)
  let contents ← paths.mapM Check.readFile
  let input ← if fromInput then Check.readAll (← IO.getStdin) ByteArray.empty
    else pure ByteArray.empty
  let report := Check.run args input.toList fun path =>
    (contents.lookup path).getD (.error .missing)
  IO.print report.output
  IO.eprint report.errors
  return UInt32.ofNat report.exitCode
