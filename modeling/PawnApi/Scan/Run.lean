/-
  A run: from the command line to the inventory on disk.

  A run looks at the directory, reads the files, lints the entries and writes the
  inventory. It says how it goes while it goes: a status line stands before each file is
  read, and the last one behind the inventory that was written.
-/
import PawnApi.Arguments
import PawnApi.Entry.Json
import PawnApi.Manifest.Reader
import PawnApi.Scan.Collection

namespace PawnApi

/-- What a run leaves behind. -/
structure Outcome where
  host : Host
  /-- What was collected, if the run came to that. -/
  collection : Option Collection
  result : Except Failure Unit
  deriving Repr

/-- The disk that a run leaves behind. -/
def Outcome.disk (o : Outcome) : Disk :=
  o.host.disk

namespace Scan

/-- What a run works with. -/
structure Setup where
  printer : Printer
  /-- Reads the text of a manifest. -/
  reader : List Char → Option Manifest
  lint : List Entry → List Lint.Finding

/-- The setup of the program: manifests are YAML, and all checks are made. -/
def Setup.standard (p : Printer) : Setup :=
  ⟨p, Manifest.ofYaml?, Lint.findings⟩

/-- Writes the inventory to a file, with the directories above it. -/
def writeInventory (d : Disk) (es : List Entry) (pretty : Bool) (path : List Char) :
    Disk × Except Failure Unit :=
  match d.makeParents path with
  | (d, .error fault) => (d, .error (.disk ((Path.parent? path).getD []) .makeOutputDir fault))
  | (d, .ok ()) =>
    let (d, result) := d.write path (Text.Utf8.encode (Entry.renderAll pretty es))
    (d, result.mapError (.disk path .writeOutput))

/-- The totals of a run. -/
def summary (c : Collection) (warnings : Nat) : String :=
  plural c.entries.length "entry" "entries" ++ " from " ++ plural c.scanned "file" "files" ++
    (if c.failed.isEmpty then "" else ", " ++ toString c.failed.length ++ " failed") ++
    (if warnings = 0 then "" else ", " ++ plural warnings "warning" "warnings")

/-- Reads the files that were found and says what is in them. -/
def survey (s : Setup) (h : Host) (found : Discovery) : Host × Collection :=
  let title := Collection.displayPath h.disk found.root ++ " (" ++
    plural found.files.length "file" "files" ++ ")"
  let (h, c) := Collection.collect s.printer (h.emit s.printer ⟨.scanning, title, none⟩) found.files
  let findings := s.lint c.entries
  let h := h.emitAll s.printer (findings.flatMap Lint.Finding.notices)
  (h.emit s.printer ⟨.finished, summary c findings.length, none⟩, c)

/-- Scans the files that were found and writes the inventory. -/
def finish (s : Setup) (h : Host) (found : Discovery) (asked : Option String) : Outcome :=
  let (h, c) := survey s h found
  let path := (found.manifest.outputFile asked).toList
  match writeInventory h.disk c.entries found.manifest.pretty path with
  | (d, .ok ()) =>
    let h := { h with disk := d }
    ⟨h.emit s.printer ⟨.wrote, Collection.displayPath d path, none⟩, some c, .ok ()⟩
  | (d, .error e) => ⟨{ h with disk := d }, some c, .error e⟩

/-- Runs a scan. A missing directory is reported and is no failure. -/
def run (s : Setup) (h : Host) (a : Arguments) : Outcome :=
  match Discovery.discover s.reader h.disk a.includeDir.toList with
  | .error (.noDirectory path) =>
    ⟨h.emit s.printer ⟨.error, (Failure.noDirectory path).message, none⟩, none, .ok ()⟩
  | .error e => ⟨h, none, .error e⟩
  | .ok found => finish s h found a.output

end Scan

end PawnApi
