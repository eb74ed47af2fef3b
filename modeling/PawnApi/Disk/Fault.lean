/-
  Faults: why an operation on a disk fails.
-/

namespace PawnApi

/-- Why an operation on a disk fails. -/
inductive Fault where
  | notFound
  | alreadyThere
  | notDirectory
  | isDirectory
  | nameTooLong
  | tooManyLinks
  | notEmpty
  | busy
  | invalid
  | nulInPath
  | notText
  | denied
  | deviceError
  | noSpace
  /-- Any other answer of the system. -/
  | other (text : String) (code : Nat)
  deriving DecidableEq, Repr

/-- The wording of a fault, with its system code if it has one. -/
def Fault.message : Fault → String
  | notFound => "No such file or directory (os error 2)"
  | alreadyThere => "File exists (os error 17)"
  | notDirectory => "Not a directory (os error 20)"
  | isDirectory => "Is a directory (os error 21)"
  | nameTooLong => "File name too long (os error 36)"
  | tooManyLinks => "Too many levels of symbolic links (os error 40)"
  | notEmpty => "Directory not empty (os error 39)"
  | busy => "Device or resource busy (os error 16)"
  | invalid => "Invalid argument (os error 22)"
  | nulInPath => "file name contained an unexpected NUL byte"
  | notText => "stream did not contain valid UTF-8"
  | denied => "Permission denied (os error 13)"
  | deviceError => "Input/output error (os error 5)"
  | noSpace => "No space left on device (os error 28)"
  | other text code => text ++ " (os error " ++ toString code ++ ")"

end PawnApi
