/-
  Reading and changing a disk by path.

  Making an item is one step: it fails and leaves the disk alone, or gives the new disk.
  Other changes take several steps and can fail after some of them: making a directory
  with those above it, taking one away with all below it, and writing a file, which is
  opened and then filled. A file that could not be filled keeps the front that was written.

  What is taken away is taken away without asking; all else asks the disk first.
-/
import PawnApi.Disk.Lookup

namespace PawnApi.Disk

/-- The content of a file. -/
def read (d : Disk) (p : List Char) : Except Fault (List UInt8) := do
  let (l, i) ← d.find p
  d.allow .read l
  match i with
  | .file content => .ok content
  | _ => .error .isDirectory

/-- The content of a file that holds text. -/
def readText (d : Disk) (p : List Char) : Except Fault (List Char) := do
  match Text.Utf8.decode? (← d.read p) with
  | some text => .ok text
  | none => .error .notText

/-- All that stands below the directory that a path leads to. -/
def contents (d : Disk) (p : List Char) : List String :=
  match d.find p with
  | .ok (l, .dir) => d.listing l
  | _ => []

/-- Opens a file to write it, new or in place of the old content. Gives where it stands. -/
def openFile (d : Disk) (p : List Char) : Except Fault Location := do
  let l := (← d.spot .filed p).location
  match d.item? l with
  | none => d.allow .extend l.dropLast
  | some (.file _) => d.allow .rewrite l
  | some _ => .error .isDirectory
  return l

/-- Writes a file. -/
def write (d : Disk) (p : List Char) (content : List UInt8) : Disk × Except Fault Unit :=
  match d.openFile p with
  | .error fault => (d, .error fault)
  | .ok l =>
    match (d.refusal? .fill l).filter fun r => r.after < content.length with
    | some r => (d.put l (.file (content.take r.after)), .error r.fault)
    | none => (d.put l (.file content), .ok ())

/-- Puts a new item where nothing stands. -/
def create (d : Disk) (p : List Char) (i : Item) : Except Fault Disk := do
  let s ← d.spot .kept p
  if (d.item? s.location).isSome then .error .alreadyThere
  else if s.wantsDir && i ≠ .dir then .error .notFound
  else
    d.allow .extend s.location.dropLast
    return d.put s.location i

/-- Makes a directory in one that is there. -/
def makeDir (d : Disk) (p : List Char) : Except Fault Disk :=
  d.create p .dir

/-- Makes a link. -/
def makeLink (d : Disk) (p : List Char) (target : String) : Except Fault Disk :=
  if target.toList.contains '\x00' then .error .nulInPath
  else if target.isEmpty then .error .notFound
  else if pathSizeLimit ≤ target.utf8ByteSize then .error .nameTooLong
  else d.create p (.link target)

/-- Makes a directory unless it is there. -/
def ensureDir (d : Disk) (p : List Char) : Disk × Except Fault Unit :=
  match d.makeDir p with
  | .ok d => (d, .ok ())
  | .error e => (d, if d.isDir p then .ok () else .error e)

/-- Makes a directory and all that are missing above it. -/
def makeDirs (d : Disk) (p : List Char) : Disk × Except Fault Unit :=
  if p.isEmpty then (d, .ok ())
  else
    match d.makeDir p with
    | .error .notFound =>
      match _h : Path.parent? p with
      | none => (d, .error .notFound)
      | some q =>
        match d.makeDirs q with
        | (d, .ok ()) => d.ensureDir p
        | (d, .error e) => (d, .error e)
    | _ => d.ensureDir p
termination_by p.length
decreasing_by exact Path.length_lt_of_parent?_eq_some _h

/-- Makes the directories above a path. -/
def makeParents (d : Disk) (p : List Char) : Disk × Except Fault Unit :=
  match Path.parent? p with
  | some q => d.makeDirs q
  | none => (d, .ok ())

/-- Takes away an empty directory. The path must end in its name, not in dots. -/
def removeDir (d : Disk) (p : List Char) : Except Fault Disk := do
  let l := (← d.spot .kept p).location
  match (pathNames p).getLast? with
  | none => .error .busy
  | some "." => .error .invalid
  | some ".." => .error .notEmpty
  | some _ =>
    match d.item? l with
    | none => .error .notFound
    | some .dir => if (d.names l).isEmpty then .ok (d.erase l) else .error .notEmpty
    | some _ => .error .notDirectory

/-- Takes away a file, a link or a directory with all below it. What is below goes first;
    if the path leads through it, the directory itself is left and that is no failure. -/
def remove (d : Disk) (p : List Char) : Disk × Except Fault Unit :=
  match d.spot (if endsInSlash p then .followed else .kept) p >>= d.arrive with
  | .error e => (d, .error e)
  | .ok (l, .dir) =>
    match (d.clear l).removeDir p with
    | .ok d => (d, .ok ())
    | .error .notFound => (d.clear l, .ok ())
    | .error e => (d.clear l, .error e)
  | .ok (l, _) => (d.erase l, .ok ())

end PawnApi.Disk
