/-
  Looking up paths.

  A path is followed name by name from the root or the working directory. Only
  directories can be passed through, where they do not refuse; links on the way are
  replaced by their targets, at most forty of them. The last name may be missing, so that something can be put there.
  From a working directory that was taken away, only the way up is left.
-/
import PawnApi.Disk.Basic
import PawnApi.Path

namespace PawnApi.Disk

/-- How many links may be passed on the way. -/
def maxLinks : Nat := 40

/-- How many bytes a name may have. -/
def maxNameSize : Nat := 255

/-- How many bytes a path may not reach. -/
def pathSizeLimit : Nat := 4096

/-- Where a path leads. -/
structure Spot where
  location : Location
  /-- The path ends in a slash, so that only a directory will do. -/
  wantsDir : Bool
  deriving DecidableEq, Repr

/-- The names of a path, dots included. -/
def pathNames (p : List Char) : List Name :=
  ((Path.segments p).filter fun w => !w.isEmpty).map String.ofList

/-- Whether a path ends in a slash. -/
def endsInSlash (p : List Char) : Bool :=
  p.getLast? == some '/'

/-- How the last name of a path is taken. -/
inductive Ending where
  /-- A link is followed. -/
  | followed
  /-- A link is taken as it is. -/
  | kept
  /-- A link is followed to a file that is there or is to be made, so that the path must
      end in a name, with no slash after it. -/
  | filed
  deriving DecidableEq, Repr

/-- Follows names from a directory up to the first link that is passed. There `jump` goes on,
    from the directory that the link is looked up in and with the names of its target put
    before the rest. -/
def followFrom (d : Disk) (e : Ending) (jump : Location → Bool → List Name → Except Fault Spot)
    (base : Location) (wantsDir : Bool) : List Name → Except Fault Spot
  | [] => if e = .filed then .error .isDirectory else .ok ⟨base, wantsDir⟩
  | n :: rest =>
    match d.refusal? .pass base with
    | some r => .error r.fault
    | none =>
      if n = "." then d.followFrom e jump base wantsDir rest
      else if n = ".." then d.followFrom e jump (d.above base) wantsDir rest
      else if e = .filed && rest.isEmpty && wantsDir then .error .isDirectory
      else if base = nowhere then .error .notFound
      else if maxNameSize < n.utf8ByteSize then .error .nameTooLong
      else
        match d.item? (base ++ [n]) with
        | some (.link target) =>
          if rest.isEmpty && e = .kept then .ok ⟨base ++ [n], wantsDir⟩
          else
            let t := target.toList
            jump (if Path.isAbsolute t then [] else base)
              (wantsDir || (rest.isEmpty && endsInSlash t)) (pathNames t ++ rest)
        | some .dir => d.followFrom e jump (base ++ [n]) wantsDir rest
        | some (.file _) =>
          if rest.isEmpty then .ok ⟨base ++ [n], wantsDir⟩ else .error .notDirectory
        | none => if rest.isEmpty then .ok ⟨base ++ [n], wantsDir⟩ else .error .notFound

/-- Follows names from a directory. `links` is how many links may be passed. -/
def follow (d : Disk) (e : Ending) (links : Nat) :
    Location → Bool → List Name → Except Fault Spot :=
  d.followFrom e (match links with
    | 0 => fun _ _ _ => .error .tooManyLinks
    | links + 1 => d.follow e links)

theorem follow_eq (d : Disk) (e : Ending) (links : Nat) :
    d.follow e links = d.followFrom e (match links with
      | 0 => fun _ _ _ => .error .tooManyLinks
      | links + 1 => d.follow e links) := by
  cases links <;> rfl

/-- Where a path leads. -/
def spot (d : Disk) (e : Ending) (p : List Char) : Except Fault Spot :=
  if p.contains '\x00' then .error .nulInPath
  else if p.isEmpty then .error .notFound
  else if pathSizeLimit ≤ (String.ofList p).utf8ByteSize then .error .nameTooLong
  else d.follow e maxLinks (if Path.isAbsolute p then [] else d.workplace) (endsInSlash p)
    (pathNames p)

/-- What stands where a path leads. -/
def arrive (d : Disk) (s : Spot) : Except Fault (Location × Item) :=
  match d.item? s.location with
  | none => .error .notFound
  | some i =>
    if s.wantsDir && i ≠ .dir then .error .notDirectory else .ok (s.location, i)

theorem item?_of_arrive_eq_ok {d : Disk} {s : Spot} {l : Location} {i : Item}
    (h : d.arrive s = .ok (l, i)) : d.item? l = some i := by
  unfold arrive at h
  split at h
  · exact absurd h (by simp)
  · rename_i j hj
    split at h
    · exact absurd h (by simp)
    · simp only [Except.ok.injEq, Prod.mk.injEq] at h
      obtain ⟨rfl, rfl⟩ := h
      exact hj

/-- What a path leads to, links followed. -/
def find (d : Disk) (p : List Char) : Except Fault (Location × Item) := do
  d.arrive (← d.spot .followed p)

theorem item?_of_find_eq_ok {d : Disk} {p : List Char} {l : Location} {i : Item}
    (h : d.find p = .ok (l, i)) : d.item? l = some i := by
  unfold find at h
  cases hs : d.spot .followed p with
  | error e => exact absurd (hs ▸ h) (by simp [bind, Except.bind])
  | ok s => exact item?_of_arrive_eq_ok (by simpa [hs, bind, Except.bind] using h)

/-- Whether a path leads to a directory. -/
def isDir (d : Disk) (p : List Char) : Bool :=
  d.find p matches .ok (_, .dir)

theorem isDir_iff {d : Disk} {p : List Char} :
    d.isDir p = true ↔ ∃ l, d.find p = .ok (l, .dir) := by
  rw [isDir]
  split
  · rename_i l hf
    simp [hf]
  · rename_i hno
    simpa using hno

/-- Whether a path leads to a file. -/
def isFile (d : Disk) (p : List Char) : Bool :=
  d.find p matches .ok (_, .file _)

end PawnApi.Disk
