/-
  Manifests: which files of a directory are scanned, and how the inventory is written.
-/
import PawnApi.Manifest.Pattern
import PawnApi.Path

namespace PawnApi

/-- The settings of a scan. -/
structure Manifest where
  /-- The extensions of the files that are scanned, without the dot. -/
  extensions : List String := ["inc"]
  /-- Patterns of paths that are left out. -/
  excludes : List String := []
  /-- The output file. -/
  output : Option String := none
  /-- Whether the inventory is indented. -/
  pretty : Bool := true
  deriving DecidableEq, Repr

namespace Manifest

/-- The name of the manifest file in an include directory. -/
def fileName : String :=
  "incscan.yaml"

/-- The output file where nothing else is said. -/
def defaultOutput : String :=
  "sourcemod_api.json"

/-- Whether a path has one of the extensions. -/
def hasExtension (m : Manifest) (path : List Char) : Bool :=
  match Path.extension? path with
  | some e => m.extensions.any fun want => want.toList = e
  | none => false

/-- Whether a path is left out. -/
def isExcluded (m : Manifest) (path : List Char) : Bool :=
  m.excludes.any fun p => (Pattern.ofText p.toList).covers path

/-- The output file: the one asked for, else the manifest's, else the default. -/
def outputFile (m : Manifest) (asked : Option String) : String :=
  (asked.or m.output).getD defaultOutput

end Manifest

end PawnApi
