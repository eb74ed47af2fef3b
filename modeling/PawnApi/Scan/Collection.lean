/-
  Collecting the entries of files.

  A file that cannot be read is set aside and changes nothing for the others.
-/
import PawnApi.Include
import PawnApi.Scan.Discovery
import PawnApi.Scan.Host

namespace PawnApi

/-- The entries of some files. -/
structure Collection where
  entries : List Entry := []
  /-- How many files were read. -/
  scanned : Nat := 0
  /-- The files that could not be read. -/
  failed : List (SourceFile × Failure) := []
  deriving DecidableEq, Repr

namespace Collection

/-- The entries of a file. Bytes that are no text are read as replacement characters. -/
def scanFile (d : Disk) (f : SourceFile) : Except Failure (List Entry) :=
  match d.read f.path with
  | .ok content => .ok (Include.parse (Text.Utf8.decodeLossy content) f.name)
  | .error fault => .error (.disk f.path .readFile fault)

/-- Adds what came of a file. -/
def add (c : Collection) (f : SourceFile) : Except Failure (List Entry) → Collection
  | .ok es => { c with entries := c.entries ++ es, scanned := c.scanned + 1 }
  | .error e => { c with failed := c.failed ++ [(f, e)] }

/-- The path of a file as it is shown. -/
def displayPath (d : Disk) (path : List Char) : String :=
  String.ofList (match d.herePath? with
    | some here => Path.display here path
    | none => path)

/-- Reads the next file, with its status lines, and adds what came of it. -/
def readNext (p : Printer) (s : Host × Collection) (f : SourceFile) : Host × Collection :=
  let h := s.1.emit p ⟨.parsing, displayPath s.1.disk f.path, none⟩
  match scanFile h.disk f with
  | .ok es => (h, s.2.add f (.ok es))
  | .error e =>
    (h.emit p ⟨.failed, f.name ++ ": " ++ e.message, none⟩, s.2.add f (.error e))

/-- Reads files in order. -/
def collect (p : Printer) (h : Host) (fs : List SourceFile) : Host × Collection :=
  fs.foldl (readNext p) (h, {})

end Collection

end PawnApi
