/-
  Walking a directory.

  The walk goes through the names of each directory in the order of their bytes, and
  into a directory where its name comes up. Links are followed. A link that leads
  nowhere is passed over, and so is one that leads back to a directory the walk is in.
  A directory that cannot be listed is walked as if it were empty.

  Directories and links are looked up by the whole path that the walk has come, so one
  whose path is too long, or goes through too many links, is passed over as well. A file
  is not looked up.

  A directory the walk is in can be entered again by its own name, below a link that
  leads above it; the link is then a way back and the walk ends there. So each step
  into a link visits a directory that was not visited, and between two links the walk
  only goes down.
-/
import PawnApi.Disk.Lookup

namespace PawnApi.Disk

/-! ## The measure of a walk -/

/-- The locations of a disk, the fixed ones included. -/
def places (d : Disk) : List Location :=
  [] :: nowhere :: d.items.map (·.1)

/-- How many locations the walk is not in. -/
def unvisited (d : Disk) (inside : List Location) : Nat :=
  d.places.countP (· ∉ inside)

/-- The length of the longest location. -/
def depth (d : Disk) : Nat :=
  d.places.foldr (fun l n => max l.length n) 0

theorem mem_places_of_item?_eq_some {d : Disk} {l : Location} {i : Item}
    (h : d.item? l = some i) : l ∈ d.places := by
  by_cases hl : isFixed l
  · rcases hl with hl | hl <;> simp [places, hl]
  · obtain ⟨e, he, hel⟩ := exists_mem_of_item?_eq_some hl h
    exact List.mem_cons_of_mem _ (List.mem_cons_of_mem _ (hel ▸ List.mem_map_of_mem he))

theorem length_le_depth {d : Disk} {l : Location} (h : l ∈ d.places) : l.length ≤ d.depth := by
  unfold depth
  generalize d.places = ls at h
  induction ls with
  | nil => simp at h
  | cons m ls ih =>
    rw [List.foldr_cons]
    rcases List.mem_cons.mp h with rfl | h
    · exact Nat.le_max_left ..
    · exact Nat.le_trans (ih h) (Nat.le_max_right ..)

theorem unvisited_cons_le (d : Disk) (l : Location) (inside : List Location) :
    d.unvisited (l :: inside) ≤ d.unvisited inside := by
  refine List.countP_mono_left fun m _ hm => ?_
  simp only [decide_eq_true_eq, List.mem_cons, not_or] at hm ⊢
  exact hm.2

theorem unvisited_cons_lt {d : Disk} {l : Location} {inside : List Location}
    (hl : l ∈ d.places) (h : l ∉ inside) : d.unvisited (l :: inside) < d.unvisited inside := by
  unfold unvisited
  generalize d.places = ls at hl
  induction ls with
  | nil => simp at hl
  | cons m ls ih =>
    have hle : ls.countP (· ∉ l :: inside) ≤ ls.countP (· ∉ inside) :=
      List.countP_mono_left fun m _ hm => by
        simp only [decide_eq_true_eq, List.mem_cons, not_or] at hm ⊢
        exact hm.2
    rw [List.countP_cons, List.countP_cons]
    rcases List.mem_cons.mp hl with rfl | hl
    · rw [if_neg (by simp), if_pos (by simpa using h)]
      omega
    · have := ih hl
      by_cases hm : m ∈ inside
      · rw [if_neg (by simp [hm]), if_neg (by simp [hm])]
        omega
      · have hout : decide (m ∉ inside) = true := by simpa using hm
        rw [hout, if_pos rfl]
        split <;> omega

/-- What is left to walk from a directory: going down brings it nearer to the deepest
    location, and each new directory makes up for the way back up. -/
def remaining (d : Disk) (inside : List Location) (dir : Location) : Nat :=
  d.unvisited inside * (d.depth + 1) + (d.depth - dir.length)

theorem remaining_lt_of_unvisited_lt {d : Disk} {inside inside' : List Location}
    {dir dir' : Location} (h : d.unvisited inside' < d.unvisited inside) :
    d.remaining inside' dir' < d.remaining inside dir := by
  have hmul : (d.unvisited inside' + 1) * (d.depth + 1) ≤ d.unvisited inside * (d.depth + 1) :=
    Nat.mul_le_mul_right _ h
  rw [Nat.succ_mul] at hmul
  unfold remaining
  omega

theorem remaining_lt_of_length_lt {d : Disk} {inside inside' : List Location}
    {dir dir' : Location} (h : d.unvisited inside' ≤ d.unvisited inside)
    (hdepth : dir'.length ≤ d.depth) (hlength : dir.length < dir'.length) :
    d.remaining inside' dir' < d.remaining inside dir := by
  have hmul : d.unvisited inside' * (d.depth + 1) ≤ d.unvisited inside * (d.depth + 1) :=
    Nat.mul_le_mul_right _ h
  unfold remaining
  omega

/-! ## The walk -/

/-- The files below a directory, each as the names that lead to it. `outer` are the
    directories that the walk came through, and `path` is the way to this one. -/
def walk (d : Disk) (outer : List Location) (path : List Char) (dir : Location) :
    List (List Name) :=
  (d.listed dir).flatMap fun n =>
    let way := Path.join path n.toList
    match _h : d.item? (dir ++ [n]) with
    | none => []
    | some (.file _) => [[n]]
    | some .dir =>
      if d.isDir way then (d.walk (dir :: outer) way (dir ++ [n])).map (n :: ·) else []
    | some (.link _) =>
      match _h : d.find way with
      | .ok (_, .file _) => [[n]]
      | .ok (target, .dir) =>
        if target ∈ dir :: outer then [] else (d.walk (dir :: outer) way target).map (n :: ·)
      | _ => []
termination_by d.remaining (dir :: outer) dir
decreasing_by
  · apply remaining_lt_of_length_lt (d.unvisited_cons_le (dir ++ [n]) (dir :: outer))
    · exact length_le_depth (mem_places_of_item?_eq_some _h)
    · simp
  · apply remaining_lt_of_unvisited_lt
    exact unvisited_cons_lt (mem_places_of_item?_eq_some (item?_of_find_eq_ok _h))
      (by assumption)

end PawnApi.Disk
