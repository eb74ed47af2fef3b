/-
  Disks: what stands at each location.

  A location is the list of names from the root down. The root is a directory; any other
  location holds a file, a directory or a link, or nothing. A link holds a path as text,
  which is looked up from the directory of the link when someone goes through it.

  The working directory can be taken away while one works in it. It is then still a
  directory, with nothing in it, and it stands at a location that no path spells.

  A disk can refuse what is asked of it, for want of permission or because a device fails.
  Its refusals are part of it: what stands where, and what can be done there, are two
  things. A file that cannot be read is still a file.

  The order in which the items of a disk are listed means nothing. `names` gives the
  names of a directory in the order of their bytes, each once.
-/
import PawnApi.Disk.Fault
import PawnApi.Text.Utf8

namespace PawnApi

/-- The name of an item in its directory. -/
abbrev Name := String

/-- The names from the root down to an item. -/
abbrev Location := List Name

/-- What can stand at a location. -/
inductive Item where
  | file (content : List UInt8)
  | dir
  | link (target : String)
  deriving DecidableEq, Repr

/-! ## Refusals -/

/-- What can be asked at a location. -/
inductive Act where
  /-- Going through a directory to what stands in it. -/
  | pass
  /-- Listing the names in a directory. -/
  | list
  /-- Putting a new item into a directory. -/
  | extend
  /-- Reading a file. -/
  | read
  /-- Opening a file that is there to write it anew. -/
  | rewrite
  /-- Writing the content of a file that was opened. -/
  | fill
  deriving DecidableEq, Repr

/-- What a disk refuses at a location, and why. -/
structure Refusal where
  location : Location
  act : Act
  fault : Fault
  /-- How many bytes of a content are written before. -/
  after : Nat := 0
  deriving DecidableEq, Repr

/-! ## Names in the order of their bytes -/

namespace Name

/-- Whether a name comes before another: by bytes. -/
def isBefore (a b : Name) : Bool :=
  decide (Text.Utf8.encode a < Text.Utf8.encode b)

/-- Puts a name in its place, unless it is there. -/
def insert (n : Name) : List Name → List Name
  | [] => [n]
  | m :: ms =>
    if n = m then m :: ms
    else if n.isBefore m then n :: m :: ms
    else m :: insert n ms

/-- Names in order, each once. -/
def sort (ns : List Name) : List Name :=
  ns.foldr insert []

theorem mem_insert {x n : Name} {ms : List Name} : x ∈ insert n ms ↔ x = n ∨ x ∈ ms := by
  induction ms with
  | nil => simp [insert]
  | cons m ms ih =>
    rw [insert]
    split
    · rename_i h
      simp [h]
    · split
      · simp
      · simp only [List.mem_cons, ih]
        constructor
        · rintro (h | h | h) <;> simp [h]
        · rintro (h | h | h) <;> simp [h]

@[simp]
theorem mem_sort {x : Name} {ns : List Name} : x ∈ sort ns ↔ x ∈ ns := by
  induction ns with
  | nil => simp [sort]
  | cons n ns ih =>
    have h : sort (n :: ns) = insert n (sort ns) := rfl
    rw [h, mem_insert, ih, List.mem_cons]

end Name

/-! ## Disks -/

/-- The state of a file system, as seen from a working directory. -/
structure Disk where
  items : List (Location × Item)
  /-- Where the working directory was entered. -/
  here : Location
  /-- Whether the working directory was taken away since. What stands at `here` then is
      another item. -/
  lost : Bool := false
  /-- What is refused. All else that can be asked is granted. -/
  refusals : List Refusal := []
  deriving DecidableEq, Repr

namespace Disk

/-- The location of a working directory that was taken away. -/
def nowhere : Location :=
  ["."]

/-- The locations that hold a directory on every disk: the root and `nowhere`. -/
def isFixed (l : Location) : Prop :=
  l = [] ∨ l = nowhere

instance (l : Location) : Decidable (isFixed l) :=
  inferInstanceAs (Decidable (_ ∨ _))

/-- What stands at a location. -/
def item? (d : Disk) (l : Location) : Option Item :=
  if isFixed l then some .dir else d.items.lookup l

/-- The refusal that an act meets at a location. -/
def refusal? (d : Disk) (a : Act) (l : Location) : Option Refusal :=
  d.refusals.find? fun r => r.act = a && r.location = l

/-- Asks whether an act is granted at a location. -/
def allow (d : Disk) (a : Act) (l : Location) : Except Fault Unit :=
  match d.refusal? a l with
  | some r => .error r.fault
  | none => .ok ()

/-- The location of the working directory. -/
def workplace (d : Disk) : Location :=
  if d.lost then nowhere else d.here

/-- The directory above a location. -/
def above (d : Disk) (l : Location) : Location :=
  if l = nowhere then d.here.dropLast else l.dropLast

/-- Puts an item at a location. -/
def put (d : Disk) (l : Location) (i : Item) : Disk :=
  { d with items := (l, i) :: d.items.filter (·.1 ≠ l) }

/-- Takes away a location and all below it. -/
def erase (d : Disk) (l : Location) : Disk :=
  { d with
    items := d.items.filter fun e => !l.isPrefixOf e.1
    lost := d.lost || l.isPrefixOf d.here }

/-- Takes away all below a location. -/
def clear (d : Disk) (l : Location) : Disk :=
  { d with
    items := d.items.filter fun e => !(l.isPrefixOf e.1 && e.1 ≠ l)
    lost := d.lost || (l.isPrefixOf d.here && d.here ≠ l) }

/-- The last name of a location that stands directly in `l`. -/
def nameIn? (l key : Location) : Option Name :=
  if key.dropLast = l then key.getLast? else none

/-- The names in a directory, in the order of their bytes. -/
def names (d : Disk) (l : Location) : List Name :=
  Name.sort (d.items.filterMap fun e => nameIn? l e.1)

/-- The names that a directory gives away: all of them, or none if it cannot be listed. -/
def listed (d : Disk) (l : Location) : List Name :=
  if (d.refusal? .list l).isSome then [] else d.names l

/-- All that stands below a location: relative paths, with a slash at the end of a
    directory, in the order of their bytes. -/
def listing (d : Disk) (l : Location) : List String :=
  Name.sort (d.items.filterMap fun e =>
    if l.isPrefixOf e.1 && e.1.length ≠ l.length then
      some ("/".intercalate (e.1.drop l.length) ++ if e.2 = .dir then "/" else "")
    else none)

/-- The working directory as a path, unless it was taken away. -/
def herePath? (d : Disk) : Option (List Char) :=
  if d.lost then none else some ('/' :: ("/".intercalate d.here).toList)

/-! ## What stands where after a change -/

theorem lookup_filter_ne {l k : Location} (h : k ≠ l) (es : List (Location × Item)) :
    (es.filter (·.1 ≠ l)).lookup k = es.lookup k := by
  induction es with
  | nil => rfl
  | cons e es ih =>
    obtain ⟨m, i⟩ := e
    by_cases hm : m = l
    · subst hm
      rw [List.filter_cons_of_neg (by simp), ih, List.lookup_cons,
        beq_eq_false_iff_ne.mpr h]
    · rw [List.filter_cons_of_pos (by simpa using hm), List.lookup_cons, List.lookup_cons, ih]

theorem item?_put_self {d : Disk} {l : Location} (h : ¬ isFixed l) (i : Item) :
    (d.put l i).item? l = some i := by
  simp [item?, put, h]

theorem item?_put_of_ne {d : Disk} {l k : Location} (h : k ≠ l) (i : Item) :
    (d.put l i).item? k = d.item? k := by
  unfold item? put
  split
  · rfl
  · rw [List.lookup_cons]
    simp only [beq_eq_false_iff_ne.mpr h]
    exact lookup_filter_ne h d.items

/-- An item whose location is not fixed is listed. -/
theorem exists_mem_of_item?_eq_some {d : Disk} {l : Location} {i : Item} (hl : ¬ isFixed l)
    (h : d.item? l = some i) : ∃ e ∈ d.items, e.1 = l := by
  rw [item?, if_neg hl] at h
  generalize d.items = es at h
  induction es with
  | nil => simp at h
  | cons e es ih =>
    obtain ⟨m, j⟩ := e
    by_cases hm : l = m
    · exact ⟨(m, j), List.mem_cons_self, hm.symm⟩
    · rw [List.lookup_cons, beq_eq_false_iff_ne.mpr hm] at h
      obtain ⟨e, he, hel⟩ := ih h
      exact ⟨e, List.mem_cons_of_mem _ he, hel⟩

end Disk

end PawnApi
