/-
  Discovery: which files of a directory are scanned.

  How a manifest is written is not known here. A reader takes its text and gives the
  manifest, or nothing if the text is not one.
-/
import PawnApi.Disk.Files
import PawnApi.Disk.Walk
import PawnApi.Manifest.Basic
import PawnApi.Scan.Failure

namespace PawnApi

/-- A file to scan. -/
structure SourceFile where
  path : List Char
  /-- The name stamped on its entries. -/
  name : String
  deriving DecidableEq, Repr

/-- A file with the name that its path gives it. -/
def SourceFile.ofPath (path : List Char) : SourceFile :=
  ⟨path, String.ofList (Path.name path)⟩

/-- What is known of a directory before its files are read. -/
structure Discovery where
  root : List Char
  manifest : Manifest
  /-- The manifest was found and is not the default one. -/
  hasManifest : Bool
  files : List SourceFile
  deriving DecidableEq, Repr

namespace Discovery

/-- The files that a walk from a path comes to, each as the names that lead to it. A file
    leads to itself. -/
def reached (d : Disk) (root : List Char) : List (List Name) :=
  match d.find root with
  | .ok (dir, .dir) => d.walk [] root dir
  | .ok _ => [[]]
  | .error _ => []

/-- The path of names below the directory that is scanned. -/
def relativePath (ns : List Name) : List Char :=
  ("/".intercalate ns).toList

/-- The path of names, shown below the path of the directory. -/
def shownPath (root : List Char) (ns : List Name) : List Char :=
  ns.foldl (fun p n => Path.join p n.toList) root

/-- Whether a manifest asks for a file. -/
def isWanted (m : Manifest) (root : List Char) (ns : List Name) : Bool :=
  !m.isExcluded (relativePath ns) && m.hasExtension (shownPath root ns)

/-- The files below a directory that a manifest asks for. -/
def filesIn (d : Disk) (m : Manifest) (root : List Char) : List SourceFile :=
  ((reached d root).filter (isWanted m root)).map fun ns => SourceFile.ofPath (shownPath root ns)

/-- Reads a manifest. -/
def loadManifest (reader : List Char → Option Manifest) (d : Disk) (path : List Char) :
    Except Failure Manifest :=
  match d.readText path with
  | .error fault => .error (.disk path .readManifest fault)
  | .ok text =>
    match reader text with
    | some m => .ok m
    | none => .error .badManifest

/-- The manifest of a directory, if it has one. -/
def manifestOf (reader : List Char → Option Manifest) (d : Disk) (root : List Char) :
    Except Failure (Option Manifest) :=
  let path := Path.join root Manifest.fileName.toList
  if d.isFile path then (loadManifest reader d path).map some else .ok none

/-- Looks at a directory: its manifest and the files to scan. -/
def discover (reader : List Char → Option Manifest) (d : Disk) (root : List Char) :
    Except Failure Discovery := do
  if !d.isDir root then .error (.noDirectory root)
  else
    let m ← manifestOf reader d root
    let manifest := m.getD {}
    return ⟨root, manifest, m.isSome, filesIn d manifest root⟩

end Discovery

end PawnApi
