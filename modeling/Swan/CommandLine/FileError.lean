/-! Why a file cannot be read. -/
namespace Swan.CommandLine

inductive FileError where
  | missing
  | denied
  /-- A name leads on from something that is no directory. -/
  | notDirectory
  | isDirectory
  | nameTooLong
  | other (cause : String)
  deriving DecidableEq, Repr

/-- The cause, with the number that the system has for it. -/
def FileError.message : FileError → String
  | missing => "No such file or directory (os error 2)"
  | denied => "Permission denied (os error 13)"
  | notDirectory => "Not a directory (os error 20)"
  | isDirectory => "Is a directory (os error 21)"
  | nameTooLong => "File name too long (os error 36)"
  | other cause => cause

end Swan.CommandLine
