/-
  The command line program.

  A run is a function on disks. The program takes in the part of the real disk that the
  run can see, runs, and carries out what changed. Links are taken in with the place they
  lead to, and the content of a file only if the file is read. What the real disk refuses
  is taken in as a refusal; if it refuses a change, the run is made again with that refusal.
-/
import PawnApi.Scan.Run

namespace PawnApi.Program

/-- The location of an absolute path without links. -/
def locationOf (path : String) : Location :=
  Disk.pathNames path.toList

/-- The path of a location. -/
def pathOf (l : Location) : String :=
  "/" ++ "/".intercalate l

/-- A disk with directories at a location and above it. -/
def withDirs (d : Disk) (l : Location) : Disk :=
  (List.range l.length).foldl (fun d n =>
    let above := l.take (n + 1)
    if (d.item? above).isSome then d else d.put above .dir) d

/-- The fault behind an error of the system. -/
def faultOf : IO.Error → Fault
  | .alreadyExists _ code details | .interrupted _ code details
  | .noFileOrDirectory _ code details | .invalidArgument _ code details
  | .permissionDenied _ code details | .resourceExhausted _ code details
  | .inappropriateType _ code details | .noSuchThing _ code details
  | .otherError code details | .resourceBusy code details | .resourceVanished code details
  | .unsupportedOperation code details | .hardwareFault code details
  | .unsatisfiedConstraints code details | .illegalOperation code details
  | .protocolError code details | .timeExpired code details => .other details code.toNat
  | .unexpectedEof | .userError _ => .deviceError

/-- A disk with one refusal more. -/
def refusing (d : Disk) (r : Refusal) : Disk :=
  { d with refusals := r :: d.refusals }

/-- The part of the real disk taken in so far. -/
structure View where
  disk : Disk
  /-- Where nothing is left to take in. -/
  done : List Location

/-- Takes in an entry of a directory, without what is below it. Gives the place that it
    leads to. -/
def takeEntry (v : View) (e : IO.FS.DirEntry) : IO (View × Option String) := do
  try
    let target := (← IO.FS.realPath e.path).toString
    let l := locationOf (← IO.FS.realPath e.root).toString ++ [e.fileName]
    let item ← match (← e.path.symlinkMetadata).type with
      | .symlink => pure (some (.link target))
      | .dir => pure (some .dir)
      | .file => pure (some (.file []))
      | .other => pure none
    match item with
    | some i =>
      let d := withDirs v.disk l.dropLast
      return ({ v with disk := if (d.item? l).isSome then d else d.put l i }, some target)
    | none => return (v, none)
  catch _ => return (v, none)

/-- Takes in what an absolute path without links leads to, and all below it. -/
partial def takeTree (v : View) (path : String) : IO View := do
  let l := locationOf path
  if v.done.contains l then return v
  let v := { v with done := l :: v.done }
  try
    let p ← IO.FS.realPath path
    match (← p.metadata).type with
    | .dir =>
      let v := { v with disk := withDirs v.disk l }
      try
        let mut v := v
        for e in ← p.readDir do
          let (w, target) ← takeEntry v e
          v ← match target with
            | some t => takeTree w t
            | none => pure w
        return v
      catch e => return { v with disk := refusing v.disk ⟨l, .list, faultOf e, 0⟩ }
    | .file =>
      let d := withDirs v.disk l.dropLast
      return { v with disk := if (d.item? l).isSome then d else d.put l (.file []) }
    | _ => return v
  catch _ => return v

/-- Takes in what a path goes through. -/
partial def takeWay (v : View) (path : List Char) : IO View := do
  let parent := (Path.parent? path).getD []
  let v ← if parent.isEmpty then pure v else takeWay v parent
  match Path.fileName? path with
  | none => return v
  | some name =>
    try
      let dir ← IO.FS.realPath (if parent.isEmpty then "." else String.ofList parent)
      return (← takeEntry v ⟨dir, String.ofList name⟩).1
    catch _ => return v

/-- Takes in the content of a file, or why it cannot be read. -/
def takeContent (v : View) (path : List Char) : IO View := do
  match v.disk.find path with
  | .ok (l, .file _) =>
    try
      let content ← IO.FS.readBinFile (pathOf l)
      return { v with disk := v.disk.put l (.file content.toList) }
    catch e => return { v with disk := refusing v.disk ⟨l, .read, faultOf e, 0⟩ }
  | _ => return v

/-- The part of the real disk that a run can see. -/
def viewFor (a : Arguments) : IO Disk := do
  let root := a.includeDir.toList
  let here := locationOf (← IO.FS.realPath ".").toString
  let mut v : View := ⟨withDirs { items := [], here } here, []⟩
  v ← takeWay v root
  v ← try takeTree v (← IO.FS.realPath a.includeDir).toString catch _ => pure v
  v ← takeContent v (Path.join root Manifest.fileName.toList)
  match Discovery.discover Manifest.ofYaml? v.disk root with
  | .error _ => return v.disk
  | .ok found =>
    for f in found.files do
      v ← takeContent v f.path
    return (← takeWay v (found.manifest.outputFile a.output).toList).disk

/-- Carries out on the real disk what changed. Gives the refusal that it met, if any. -/
def carryOut (before after : Disk) : IO (Option Refusal) := do
  for (l, i) in after.items.reverse do
    if before.item? l ≠ some i then
      match i with
      | .dir =>
        try IO.FS.createDir (pathOf l)
        catch e => return some ⟨l.dropLast, .extend, faultOf e, 0⟩
      | .file content =>
        try IO.FS.writeBinFile (pathOf l) ⟨content.toArray⟩
        catch e => return some ⟨l, .fill, faultOf e, 0⟩
      | .link _ => pure ()
  return none

/-- Runs a scan on the real disk. -/
def runOnDisk (s : Scan.Setup) (a : Arguments) : IO Outcome := do
  let before ← viewFor a
  let o := Scan.run s ⟨before, {}⟩ a
  match ← carryOut before o.disk with
  | none => return o
  | some r => return Scan.run s ⟨refusing before r, {}⟩ a

/-- The help text. -/
def usage : String :=
  "Usage: incscan [OPTIONS] <INCLUDE_DIR>\n\n" ++
    "  <INCLUDE_DIR>          Include directory to scan\n" ++
    "  -o, --output <OUTPUT>  Output file\n" ++
    "  -h, --help             Print help\n" ++
    "  -V, --version          Print version\n"

end PawnApi.Program

open PawnApi in
/-- Runs a scan for a command line. -/
def main (words : List String) : IO UInt32 := do
  let stderr ← IO.getStderr
  match Arguments.ofWords words with
  | .error .helpAsked => IO.print Program.usage; return 0
  | .error .versionAsked => IO.print UsageError.versionText; return 0
  | .error e => stderr.putStr Program.usage; return UInt32.ofNat e.exitCode
  | .ok a =>
    let o ← Program.runOnDisk (.standard ⟨← stderr.isTty, false⟩) a
    try stderr.putStr o.host.stderr.written catch _ => pure ()
    match o.result with
    | .ok () => return 0
    | .error e =>
      stderr.putStrLn (e.code ++ "\n\n  " ++ e.message)
      return 1
