import Swan.CommandLine.Run

/-! The program: its arguments, the file system and its output. -/
namespace Swan

open CommandLine (FileError)

/-- The number of a system error. Some of the calls behind a read report it negated. -/
def systemNumber (code : UInt32) : UInt32 := if code < 0x80000000 then code else 0 - code

def readFailure : IO.Error → FileError
  | .noFileOrDirectory .. => .missing
  | .permissionDenied .. => .denied
  | .inappropriateType _ code _ =>
    if systemNumber code = 21 then .isDirectory else .notDirectory
  | .invalidArgument name code details =>
    if systemNumber code = 36 then .nameTooLong
    else .other (toString (IO.Error.invalidArgument name code details))
  | e => .other (toString e)

def readFile (path : String) : IO (Except FileError Image) := do
  try
    return .ok { bytes := ← IO.FS.readBinFile path }
  catch e =>
    return .error (readFailure e)

end Swan

def main (arguments : List String) : IO UInt32 := do
  let outcome ← Swan.CommandLine.run Swan.readFile arguments
  IO.print outcome.stdout
  IO.eprint outcome.stderr
  return outcome.code.toUInt32
