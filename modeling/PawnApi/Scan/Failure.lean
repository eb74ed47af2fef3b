/-
  Failures of a scan.
-/
import PawnApi.Disk.Fault

namespace PawnApi

/-- What was being done to a file when the disk refused. -/
inductive Task where
  | readManifest
  | readFile
  | makeOutputDir
  | writeOutput
  deriving DecidableEq, Repr

def Task.message : Task → String
  | readManifest => "Failed to read manifest"
  | readFile => "Failed to read file"
  | makeOutputDir => "Failed to create output directory"
  | writeOutput => "Failed to write output"

/-- Why a scan, or a part of it, fails. -/
inductive Failure where
  /-- The disk refused a task. -/
  | disk (path : List Char) (task : Task) (fault : Fault)
  /-- There is no directory to scan. -/
  | noDirectory (path : List Char)
  /-- The manifest is no manifest. -/
  | badManifest
  deriving DecidableEq, Repr

namespace Failure

def message : Failure → String
  | disk path task fault =>
    "IO error with " ++ String.ofList path ++ ": " ++ task.message ++ ": " ++ fault.message
  | noDirectory path => "Directory not found at '" ++ String.ofList path ++ "'"
  | badManifest => "Config error: Invalid manifest"

/-- The code by which a failure is known. -/
def code : Failure → String
  | disk .. => "incscan::io"
  | noDirectory _ => "incscan::input"
  | badManifest => "incscan::config"

/-- What to do about it. -/
def help? : Failure → Option String
  | disk .. => none
  | noDirectory _ => some "Pass the path to an include directory"
  | badManifest => some "Check incscan.yaml syntax"

end Failure

end PawnApi
